import GraphSchema.Files.Operations

/-!
# Walking directories

A walk goes through a directory and all below it, in the order of the names, and
through links as if what they lead to stood in their place. A link to a directory
that the walk is inside of is not followed again, so every walk ends. What cannot
be visited is told, and the walk goes on.
-/

namespace GraphSchema

/-- What a walk comes by. -/
inductive Finding where
  /-- A file, reached on a path that leads to a place. -/
  | file (path : String) (place : Place) (time : Int)
  /-- A file that is there, and cannot be asked about. -/
  | sealed (path : String) (reason : FileError)
  /-- A path that cannot be visited, below so many directories of the walk. -/
  | unreadable (path : String) (depth : Nat) (reason : FileError)
  /-- A link to a directory that the walk is inside of. -/
  | loop (path ancestor : String)
deriving DecidableEq, Inhabited, Repr

/-- A directory that a walk is inside of. -/
structure Ancestor where
  /-- The path on which the walk came in. -/
  path : String
  place : Place
deriving DecidableEq, Inhabited, Repr

namespace FileTree

/-- What a walk comes by from a node on, inside of directories given innermost first. Each step
down an entry or through a link takes one from the count of steps. -/
def walkFrom (t : FileTree) (steps : Nat) (inside : List Ancestor) (path : String)
    (place : Place) : List Finding :=
  match steps with
  | 0 => []
  | n + 1 =>
      match t.node? place with
      | none => [.unreadable path inside.length .missing]
      | some (.file _ time) =>
          if Path.isOverlong path || Path.isOverlong place.path then [.sealed path .nameTooLong]
          else [.file path place time]
      | some (.directory entries) =>
          if Path.isOverlong path then [.unreadable path inside.length .nameTooLong]
          else entries.flatMap fun (name, _) =>
            walkFrom t n (⟨path, place⟩ :: inside) (Path.join path name) (place ++ [name])
      | some (.link _) =>
          match t.locate path with
          | .error reason => [.unreadable path inside.length reason]
          | .ok target =>
              match inside.find? (·.place = target) with
              | some ancestor => [.loop path ancestor.path]
              | none => walkFrom t n inside path target

/-- A number of steps that no walk exceeds. Links to directories lead to ever new ones, and
between two of them a walk goes down the tree. -/
def walkSteps (t : FileTree) : Nat := (t.size + 1) * (t.size + 2)

/-- What a walk from a path comes by. -/
def walk (t : FileTree) (path : String) : List Finding :=
  match t.standing path with
  | .error reason => [.unreadable path 0 reason]
  | .ok place => t.walkFrom t.walkSteps [] path place

end FileTree

end GraphSchema
