/-!
# Paths

A path is a text whose segments stand between slashes. Two paths are the same
if they have the same components: empty segments and the segment `.` do not
count, except that a relative path may start with `.`. Paths are ordered by
their components, one after the other.
-/

namespace GraphSchema.Path

/-- A component of a path. -/
inductive Component where
  /-- The slash that an absolute path starts with. -/
  | root
  /-- The `.` that a relative path starts with. -/
  | here
  /-- The segment `..`. -/
  | up
  | name (text : String)
deriving DecidableEq, Inhabited, Repr

namespace Component

/-- The place of a component's kind in the order of components. -/
def rank : Component → Nat
  | root => 0
  | here => 1
  | up => 2
  | name _ => 3

/-- The text of a name. -/
def text : Component → String
  | name s => s
  | _ => ""

/-- The order of components: by kind, and names by their characters. -/
def compare (a b : Component) : Ordering :=
  (Ord.compare a.rank b.rank).then (Ord.compare a.text b.text)

end Component

/-- The texts between slashes. -/
def segments : List Char → List (List Char)
  | [] => [[]]
  | c :: r =>
      if c = '/' then [] :: segments r
      else
        match segments r with
        | [] => [[c]]
        | s :: ss => (c :: s) :: ss

/-- The component of a segment, unless it does not count. -/
def component? (segment : List Char) : Option Component :=
  if segment = [] ∨ segment = ['.'] then none
  else if segment = ['.', '.'] then some .up
  else some (.name (String.ofList segment))

/-- Whether a path starts at the root. -/
def isAbsolute (path : String) : Bool := path.toList.head? == some '/'

/-- The components of a path. -/
def components (path : String) : List Component :=
  let parts := segments path.toList
  let inner := parts.filterMap component?
  if isAbsolute path then .root :: inner
  else if parts.head? == some ['.'] then .here :: inner
  else inner

/-- The order of paths. -/
def compare (a b : String) : Ordering :=
  List.compareLex Component.compare (components a) (components b)

/-- Whether two paths have the same components. -/
def same (a b : String) : Bool := components a == components b

/-- A path seen from another one. An absolute path is itself from everywhere. -/
def join (base path : String) : String :=
  if isAbsolute path then path
  else if base.isEmpty || base.toList.getLast? == some '/' then base ++ path
  else base ++ "/" ++ path

/-- A reversed path without the slashes and `.` segments that do not count at its end. -/
def trimReversed : List Char → List Char
  | ['/'] => ['/']
  | '/' :: r => trimReversed r
  | '.' :: '/' :: r => trimReversed ('/' :: r)
  | cs => cs

/-- The path without its last component, if it has one beside the root. -/
def parent? (path : String) : Option String :=
  match trimReversed path.toList.reverse with
  | [] => none
  | ['/'] => none
  | r => some (String.ofList (trimReversed (r.dropWhile (· != '/'))).reverse)

/-- The name at the end of a path. -/
def fileName? (path : String) : Option String :=
  match (components path).getLast? with
  | some (.name s) => some s
  | _ => none

/-- The path with another name at its end, or one more where no name stands there. -/
def withFileName (path name : String) : String :=
  match fileName? path with
  | some _ => join ((parent? path).getD "") name
  | none => join path name

/-- What follows the last dot of a name, unless this is its first character. -/
def extensionOfName? (name : String) : Option String :=
  let (after, before) := name.toList.reverse.span (· != '.')
  match before with
  | _ :: _ :: _ => some (String.ofList after.reverse)
  | _ => none

/-- The extension of the name at the end of a path. -/
def extension? (path : String) : Option String := fileName? path >>= extensionOfName?

end GraphSchema.Path
