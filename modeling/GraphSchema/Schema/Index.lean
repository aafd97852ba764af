import GraphSchema.Schema.Document
import Std.Data.TreeMap.Basic

/-!
# Schemas

A document with an index of its names. Of several definitions of one name the
index knows the first.
-/

namespace GraphSchema

/-- A document and the position of each name in it. -/
structure Schema where
  document : Document
  positions : Std.TreeMap String Nat

namespace Schema

/-- Enters a definition at a position, unless its name is known. -/
def enter (positions : Std.TreeMap String Nat) (d : Definition × Nat) : Std.TreeMap String Nat :=
  if positions.contains d.1.name then positions else positions.insert d.1.name d.2

/-- The schema of a document. -/
def ofDocument (d : Document) : Schema := ⟨d, d.definitions.zipIdx.foldl enter {}⟩

/-- The definition of a name. -/
def getType? (s : Schema) (name : String) : Option Definition :=
  s.positions[name]?.bind fun i => s.document.definitions[i]?

/-- Whether a name is defined. -/
def hasType (s : Schema) (name : String) : Bool := s.positions.contains name

/-- The names of the definitions, in order. -/
def typeNames (s : Schema) : List String := s.document.names

/-- The root type of an operation kind, if its name is that of an object. -/
def rootType? (s : Schema) (kind : OperationKind) : Option Definition :=
  (s.getType? kind.typeName).filter (·.objectFields?.isSome)

end Schema

end GraphSchema
