import GraphSchema.Files.Resolve

/-!
# Operations on files

Looking at a file tree, and changing it one call at a time. A call that fails
leaves the tree as it was; only making several directories, and removing one
with all that is in it, may get part of the way.
-/

namespace GraphSchema

/-- The tree after a call, or why the call failed. -/
abbrev FileTree.Change := Except FileError FileTree

namespace FileTree

/-- The outcome of a change to a tree: a failed one leaves it as it was. -/
def settle (t : FileTree) (change : Change) : Except FileError Unit × FileTree :=
  match change with
  | .ok u => (.ok (), u)
  | .error reason => (.error reason, t)

/-- Whether a path leads to something. -/
def leadsSomewhere (t : FileTree) (path : String) : Bool := (t.locate path).isOk

/-- Whether a path leads to a directory. -/
def isDirectory (t : FileTree) (path : String) : Bool :=
  match t.find path with
  | .ok (.directory _) => true
  | _ => false

/-- The text of a file. -/
def readText (t : FileTree) (path : String) : Except FileError String := do
  match ← t.find path with
  | .file content _ =>
      match String.fromUTF8? content with
      | some text => return text
      | none => throw .notText
  | _ => throw .isDirectory

/-- The names in a directory, in order. -/
def list (t : FileTree) (path : String) : Except FileError (List String) := do
  match ← t.find path with
  | .directory entries => return entries.map (·.1)
  | _ => throw .notDirectory

/-- Makes a directory, in one that exists. -/
def makeDirectory (t : FileTree) (path : String) : Change := do
  let e ← t.resolve .entry path
  match e.name?, ← t.nodeAt e with
  | some name, none => return t.put e.directory name (.directory [])
  | _, _ => throw .occupied

/-- The paths above a path, the nearest first, so many at most. -/
def pathsAbove (most : Nat) (path : String) : List String :=
  match most, Path.parent? path with
  | n + 1, some p => p :: pathsAbove n p
  | _, _ => []

/-- A path and the paths above it, the nearest first. The root and the empty path, which need
not be made, are left out. A path has no more paths above it than characters. -/
def pathsUpwards (path : String) : List String :=
  (path :: pathsAbove path.length path).filter fun p => (Path.parent? p).isSome

/-- Makes the first of some paths. Where it cannot be made because the next one is missing, that
one is made before. A directory that exists already does not count as a failure. -/
def makeUpwards (t : FileTree) : List String → Except FileError Unit × FileTree
  | [] => (.ok (), t)
  | path :: above =>
      match t.makeDirectory path with
      | .ok u => (.ok (), u)
      | .error .missing =>
          match makeUpwards t above with
          | (.error reason, u) => (.error reason, u)
          | (.ok (), u) =>
              match u.makeDirectory path with
              | .ok v => (.ok (), v)
              | .error reason => (if u.isDirectory path then .ok () else .error reason, u)
      | .error reason => (if t.isDirectory path then .ok () else .error reason, t)

/-- Makes a directory, and the directories above it as far as they are missing. -/
def makeDirectories (t : FileTree) (path : String) : Except FileError Unit × FileTree :=
  t.makeUpwards (pathsUpwards path)

/-- Removes a file or a link. -/
def remove (t : FileTree) (path : String) : Change := do
  let e ← t.resolve .entry path
  match e.name?, ← t.nodeAt e with
  | some _, none => throw .missing
  | some _, some (.directory _) => throw .isDirectory
  | some name, some _ =>
      if e.slash then throw .notDirectory else return t.erase e.directory name
  | none, _ => throw .isDirectory

/-- Removes a directory that is empty. The path has to name it: a link to it does not do. -/
def removeDirectory (t : FileTree) (path : String) : Change := do
  let e ← t.resolve .entry path
  match e.name?, ← t.nodeAt e with
  | some _, none => throw .missing
  | some name, some (.directory []) => return t.erase e.directory name
  | some _, some (.directory _) => throw .notEmpty
  | some _, some _ => throw .notDirectory
  | none, _ => throw (if (Path.steps path).getLast? = some "." then .misplaced else .busy)

/-- Removes all that is in a directory. -/
def clear (t : FileTree) (directory : Place) : FileTree :=
  ((t.entries? directory).getD []).foldl (fun u entry => u.erase directory entry.1) t

/-- Removes a file, a link, or a directory with all that is in it. A directory is emptied first,
and is left standing if the path does not name it. That it is gone by then is no failure. -/
def removeAll (t : FileTree) (path : String) : Except FileError Unit × FileTree :=
  match t.standing path with
  | .error reason => (.error reason, t)
  | .ok place =>
      if (t.entries? place).isNone then t.settle (t.remove path)
      else
        let u := t.clear place
        match u.removeDirectory path with
        | .error .missing => (.ok (), u)
        | change => u.settle change

/-- Moves what stands at a path to another one, in place of a file or an empty directory there. -/
def rename (t : FileTree) (source target : String) : Change := do
  if Path.hasZero source || Path.hasZero target then throw .zeroInPath
  let a ← t.resolve .entry source
  let b ← t.resolve .entry target
  match a.name?, b.name? with
  | some aName, some bName =>
      let some moved ← t.nodeAt a | throw .missing
      let replaced ← t.nodeAt b
      match moved with
      | .directory _ =>
          if a.place = b.place then return t
          else if a.place.isPrefixOf b.place then throw .misplaced
          else if b.place.isPrefixOf a.place then throw .notEmpty
          else
            match replaced with
            | some (.directory (_ :: _)) => throw .notEmpty
            | some (.directory []) | none =>
                return (t.erase a.directory aName).put b.directory bName moved
            | some _ => throw .notDirectory
      | _ =>
          if a.slash || b.slash then throw .notDirectory
          else if a.place = b.place then return t
          else if b.place.isPrefixOf a.place then throw .notEmpty
          else
            match replaced with
            | some (.directory _) => throw .isDirectory
            | _ => return (t.erase a.directory aName).put b.directory bName moved
  | _, _ => throw .busy

/-- Puts a file with a content at the end of a path, through links. -/
def write (t : FileTree) (path : String) (content : ByteArray) (time : Int) : Change := do
  let e ← t.resolve .file path
  match e.name?, ← t.nodeAt e with
  | none, _ => throw .isDirectory
  | some _, some (.directory _) => throw .isDirectory
  | some name, _ => return t.put e.directory name (.file content time)

/-- Sets the time of the last change of a file. -/
def setTime (t : FileTree) (path : String) (time : Int) : Change := do
  let e ← t.resolve .target path
  match e.name?, ← t.nodeAt e with
  | some name, some (.file content _) =>
      if e.slash then throw .notDirectory
      else return t.put e.directory name (.file content time)
  | some _, none => throw .missing
  | _, _ => throw .isDirectory

/-- Makes a link to a target, which has to be a path that can be followed. -/
def makeLink (t : FileTree) (path target : String) : Change := do
  Path.check target
  let e ← t.resolve .entry path
  match e.name?, ← t.nodeAt e with
  | some name, none =>
      if e.slash then throw .missing else return t.put e.directory name (.link target)
  | _, _ => throw .occupied

end FileTree

end GraphSchema
