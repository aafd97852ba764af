/-!
# File trees

Files, directories and links under one root. A node of the tree is known by its
place, the names from the root down to it, and every node stands in a directory
by construction. The entries of a directory are in the order of their names.
-/

namespace GraphSchema

/-- A node of a file tree. -/
inductive Node where
  /-- A file with its bytes and the time of its last change, in nanoseconds since the epoch. -/
  | file (content : ByteArray) (time : Int)
  | directory (entries : List (String × Node))
  /-- A link to a path, seen from the directory that the link stands in. -/
  | link (target : String)
deriving Inhabited

/-- A tree, given by the entries of its root. -/
structure FileTree where
  entries : List (String × Node)
deriving Inhabited

/-- The names from the root down to a node. -/
abbrev Place := List String

namespace Place

/-- The directory of a place. The root stands in itself. -/
def parent (place : Place) : Place := place.dropLast

/-- The path of a place. -/
def path (place : Place) : String := "/" ++ String.intercalate "/" place

end Place

namespace Node

/-- The entries with a node under a name, in place of one that stands there. -/
def insertEntry (name : String) (node : Node) : List (String × Node) → List (String × Node)
  | [] => [(name, node)]
  | (k, v) :: r =>
      if k = name then (name, node) :: r
      else if name < k then (name, node) :: (k, v) :: r
      else (k, v) :: insertEntry name node r

/-- The entries without the one of a name. -/
def eraseEntry (name : String) (entries : List (String × Node)) : List (String × Node) :=
  entries.filter (·.1 != name)

/-- The entries with a node under a name, or with none. -/
def setEntry (name : String) (node : Option Node) (entries : List (String × Node)) :
    List (String × Node) :=
  match node with
  | some n => insertEntry name n entries
  | none => eraseEntry name entries

/-- What stands at a place below entries. -/
def find? (entries : List (String × Node)) : Place → Option Node
  | [] => some (.directory entries)
  | name :: rest =>
      match entries.lookup name with
      | some (.directory inner) => find? inner rest
      | some node => if rest.isEmpty then some node else none
      | none => none

/-- The entries with a node set under a name of a directory below them. -/
def setBelow (name : String) (node : Option Node) (entries : List (String × Node)) :
    Place → List (String × Node)
  | [] => setEntry name node entries
  | d :: rest =>
      match entries.lookup d with
      | some (.directory inner) =>
          insertEntry d (.directory (setBelow name node inner rest)) entries
      | _ => entries

mutual

/-- The number of nodes from a node on downwards. -/
def size : Node → Nat
  | .directory entries => sizeOfEntries entries + 1
  | _ => 1

/-- The number of nodes among entries and below them. -/
def sizeOfEntries : List (String × Node) → Nat
  | [] => 0
  | (_, n) :: r => size n + sizeOfEntries r

end

end Node

namespace FileTree

/-- The tree of the root alone. -/
def empty : FileTree := ⟨[]⟩

/-- What stands at a place. -/
def node? (t : FileTree) (place : Place) : Option Node := Node.find? t.entries place

/-- The entries of the directory at a place. -/
def entries? (t : FileTree) (place : Place) : Option (List (String × Node)) :=
  match t.node? place with
  | some (.directory entries) => some entries
  | _ => none

/-- The tree with a node under a name of a directory. -/
def put (t : FileTree) (directory : Place) (name : String) (node : Node) : FileTree :=
  ⟨Node.setBelow name (some node) t.entries directory⟩

/-- The tree without what stands under a name of a directory. -/
def erase (t : FileTree) (directory : Place) (name : String) : FileTree :=
  ⟨Node.setBelow name none t.entries directory⟩

/-- The number of nodes. -/
def size (t : FileTree) : Nat := Node.sizeOfEntries t.entries + 1

end FileTree

end GraphSchema
