import GraphSchema.Files.Error
import GraphSchema.Files.Tree
import GraphSchema.Path

/-!
# Following paths

A path is followed from the root, segment by segment. Every segment but the last
has to lead to a directory, through links if need be, and `..` leads to the
directory that really holds the present one. No path may go through more than
forty links, or be longer than 4095 bytes.

Whether a link at the end is followed is up to the use that a call makes of the
path. So a path is first resolved to where it ends: a directory, and a name that
may or may not stand in it.
-/

namespace GraphSchema

/-- The use that a call makes of a path. -/
inductive PathUse where
  /-- The call is about the entry at the end, which may be a link. -/
  | entry
  /-- The call is about what a link at the end leads to. -/
  | target
  /-- The call puts a file where a link at the end leads to. No file has a path that ends in a
  slash. -/
  | file
deriving DecidableEq, Inhabited, Repr

/-- Where a path ends. -/
structure PathEnd where
  /-- The directory that the path ends in. -/
  directory : Place
  /-- The name at the end, unless the path ends in the directory itself. -/
  name? : Option String
  /-- Whether a slash after the name asks for a directory. -/
  slash : Bool
deriving DecidableEq, Inhabited, Repr

namespace PathEnd

/-- The place that a path ends at. -/
def place (e : PathEnd) : Place := e.directory ++ e.name?.toList

end PathEnd

namespace Path

/-- The segments of a path that are not empty. -/
def steps (path : String) : List String :=
  ((segments path.toList).filter (!·.isEmpty)).map String.ofList

/-- Whether a path ends in a slash. -/
def endsInSlash (path : String) : Bool := path.toList.getLast? == some '/'

/-- Whether a segment leads somewhere else than to an entry of a directory. -/
def isDots (segment : String) : Bool := segment == "." || segment == ".."

/-- The segments of a path that are followed before its end. -/
def frontSteps (steps : List String) : List String :=
  match steps.getLast? with
  | some s => if isDots s then steps else steps.dropLast
  | none => steps

/-- The name at the end of a path's segments. -/
def lastName? (steps : List String) : Option String := steps.getLast?.filter (!isDots ·)

/-- Whether a name has more bytes than any entry of a directory may have. -/
def isTooLong (name : String) : Bool := 255 < name.utf8ByteSize

/-- Whether a path has more bytes than any path may have. -/
def isOverlong (path : String) : Bool := 4095 < path.utf8ByteSize

/-- Whether a path has a zero character, which no file system is ever asked about. -/
def hasZero (path : String) : Bool := path.toList.contains '\x00'

/-- Refuses a path that cannot be followed at all, whatever there is. -/
def check (path : String) : Except FileError Unit :=
  if hasZero path then throw .zeroInPath
  else if path.isEmpty then throw .missing
  else if isOverlong path then throw .nameTooLong
  else return ()

end Path

namespace FileTree

/-- Where some segments lead. -/
inductive Advance where
  /-- They lead to a directory. -/
  | arrived (directory : Place)
  /-- They lead to a link, with the rest still to follow. -/
  | link (directory : Place) (target : String) (rest : List String)
  | failed (reason : FileError)

/-- Follows segments from a place as far as the first link. -/
def advance (t : FileTree) (here : Place) : List String → Advance
  | [] =>
      match t.entries? here with
      | some _ => .arrived here
      | none => .failed .notDirectory
  | s :: rest =>
      match t.entries? here with
      | none => .failed .notDirectory
      | some entries =>
          if s = "." then advance t here rest
          else if s = ".." then advance t here.parent rest
          else if Path.isTooLong s then .failed .nameTooLong
          else
            match entries.lookup s with
            | none => .failed .missing
            | some (.link target) => .link here target rest
            | some _ => advance t (here ++ [s]) rest

/-- Where the target of a link in a directory is seen from. -/
def linkBase (directory : Place) (target : String) : Place :=
  if Path.isAbsolute target then [] else directory

/-- Resolves segments, seen from a place, going through so many links at most. -/
def resolveFrom (t : FileTree) (use : PathUse) (links : Nat) (here : Place) (steps : List String)
    (slash : Bool) : Except FileError PathEnd :=
  match t.advance here (Path.frontSteps steps) with
  | .failed reason => .error reason
  | .link directory target rest =>
      match links with
      | 0 => .error .tooManyLinks
      | n + 1 =>
          resolveFrom t use n (linkBase directory target)
            (Path.steps target ++ rest ++ (Path.lastName? steps).toList) slash
  | .arrived directory =>
      match Path.lastName? steps with
      | none => .ok ⟨directory, none, slash⟩
      | some name =>
          if use = .entry then .ok ⟨directory, some name, slash⟩
          else if use = .file ∧ slash then .error .isDirectory
          else if Path.isTooLong name then .error .nameTooLong
          else
            match t.node? (directory ++ [name]) with
            | some (.link target) =>
                match links with
                | 0 => .error .tooManyLinks
                | n + 1 =>
                    resolveFrom t use n (linkBase directory target) (Path.steps target)
                      (slash || Path.endsInSlash target)
            | _ => .ok ⟨directory, some name, slash⟩

/-- How many links a path may go through. -/
def linkLimit : Nat := 40

/-- Where a path ends, for a use of it. -/
def resolve (t : FileTree) (use : PathUse) (path : String) : Except FileError PathEnd := do
  Path.check path
  t.resolveFrom use linkLimit [] (Path.steps path) (Path.endsInSlash path)

/-- What stands where a path ends. -/
def nodeAt (t : FileTree) (e : PathEnd) : Except FileError (Option Node) :=
  if e.name?.any Path.isTooLong then throw .nameTooLong else return t.node? e.place

/-- The place of what a path leads to, through all links. -/
def locate (t : FileTree) (path : String) : Except FileError Place := do
  let e ← t.resolve .target path
  match t.node? e.place with
  | none => throw .missing
  | some (.directory _) => return e.place
  | some _ => if e.slash then throw .notDirectory else return e.place

/-- The place of what stands at a path. A link at the end is followed only if a slash asks for the
directory behind it. -/
def standing (t : FileTree) (path : String) : Except FileError Place := do
  if Path.endsInSlash path then t.locate path
  else
    let e ← t.resolve .entry path
    if (← t.nodeAt e).isNone then throw .missing
    return e.place

/-- What a path leads to, through all links. -/
def find (t : FileTree) (path : String) : Except FileError Node := do
  match t.node? (← t.locate path) with
  | some node => return node
  | none => throw .missing

end FileTree

end GraphSchema
