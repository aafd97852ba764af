import GraphSchema.Toml.Value

/-!
# TOML tables under construction

How tables come about decides what may still be added to them. A table that a
header names is closed to a second header and to dotted keys from outside. One
that only lies on the way to a header may still get a header of its own, and one
that dotted keys made takes more dotted keys, but no header. A value, an inline
table among them, takes nothing.
-/

namespace GraphSchema.Toml

/-- How a table came about. -/
inductive Origin where
  /-- Named by a header. -/
  | header
  /-- On the way to a header. -/
  | passed
  /-- On the way of a dotted key. -/
  | dotted
deriving DecidableEq, Repr

/-- What stands under a key while a document is read. -/
inductive Node where
  | value (v : Value)
  | table (origin : Origin) (entries : List (String × Node))
  /-- An array of tables, one for each header in double brackets. -/
  | tables (elements : List (List (String × Node)))
deriving Inhabited, Repr

namespace Node

/-- Entries of a table under construction. -/
abbrev Entries := List (String × Node)

/-- The entries with another node under a key, in its place or at the end. -/
def put (key : String) (node : Node) : Entries → Entries
  | [] => [(key, node)]
  | (k, n) :: r => if k = key then (key, node) :: r else (k, n) :: put key node r

mutual

/-- The value that a node has become. -/
def toValue : Node → Value
  | value v => v
  | table _ entries => .table (toEntries entries)
  | tables elements => .array (toTables elements)

/-- The entries of a table as values. -/
def toEntries : List (String × Node) → List (String × Value)
  | [] => []
  | (k, n) :: r => (k, toValue n) :: toEntries r

/-- The tables of an array as values. -/
def toTables : List (List (String × Node)) → List Value
  | [] => []
  | es :: r => .table (toEntries es) :: toTables r

end

/-- Enters a value under a dotted key into entries. The tables on the way must
be open to dotted keys, and the last of them made by some. -/
def putDotted (path : List String) (key : String) (v : Value) (entries : Entries) :
    Option Entries :=
  match path with
  | [] => if (entries.lookup key).isSome then none else some (put key (.value v) entries)
  | k :: path =>
      match entries.lookup k with
      | none => do return put k (.table .dotted (← putDotted path key v [])) entries
      | some (.table .dotted inner) => do
          return put k (.table .dotted (← putDotted path key v inner)) entries
      | some (.table .passed inner) =>
          if path.isEmpty then none
          else do return put k (.table .passed (← putDotted path key v inner)) entries
      | some (.tables elements) =>
          match elements.reverse with
          | last :: front =>
              if path.isEmpty then none
              else do
                let last ← putDotted path key v last
                return put k (.tables (last :: front).reverse) entries
          | [] => none
      | some _ => none

/-- Applies `change` to the entries of the table that a path leads to. Tables
that are not there are passed into being, and of an array its last table counts. -/
def alter (change : Entries → Option Entries) (path : List String) (entries : Entries) :
    Option Entries :=
  match path with
  | [] => change entries
  | k :: path =>
      match entries.lookup k with
      | none => do return put k (.table .passed (← alter change path [])) entries
      | some (.table origin inner) => do
          return put k (.table origin (← alter change path inner)) entries
      | some (.tables elements) =>
          match elements.reverse with
          | last :: front => do
              let last ← alter change path last
              return put k (.tables (last :: front).reverse) entries
          | [] => none
      | some (.value _) => none

/-- Opens the table that a header names. -/
def openTable (key : String) (entries : Entries) : Option Entries :=
  match entries.lookup key with
  | none => some (put key (.table .header []) entries)
  | some (.table .passed inner) => some (put key (.table .header inner) entries)
  | some _ => none

/-- Adds a table to the array that a header in double brackets names. -/
def openElement (key : String) (entries : Entries) : Option Entries :=
  match entries.lookup key with
  | none => some (put key (.tables [[]]) entries)
  | some (.tables elements) => some (put key (.tables (elements ++ [[]])) entries)
  | some _ => none

end Node

end GraphSchema.Toml
