import GraphSchema.Requirement.TypeMapping

/-!
# Resolved types

A target type that says of every level whether it admits null. A reference is
resolved level by level; it has no resolved type if a non-null wraps a non-null
directly, or if its innermost name is empty.
-/

namespace GraphSchema

/-- A target type. -/
inductive ResolvedType where
  | named (name : String) (nullable : Bool)
  | list (element : ResolvedType) (nullable : Bool)
deriving DecidableEq, Inhabited, Repr

namespace ResolvedType

/-- Whether the outermost level admits null. -/
def isNullable : ResolvedType → Bool
  | named _ nullable => nullable
  | list _ nullable => nullable

/-- The same type with the outermost level admitting null or not. -/
def withNullable (nullable : Bool) : ResolvedType → ResolvedType
  | named name _ => named name nullable
  | list element _ => list element nullable

/-- The innermost name. -/
def baseName : ResolvedType → String
  | named name _ => name
  | list element _ => element.baseName

/-- The number of list levels. -/
def depth : ResolvedType → Nat
  | named .. => 0
  | list element _ => element.depth + 1

/-- The type in composite notation. -/
def render : ResolvedType → String
  | named name nullable => name ++ if nullable then "|null" else ""
  | list element nullable => "array<" ++ element.render ++ ">" ++ if nullable then "|null" else ""

end ResolvedType

namespace TypeReference

/-- The target type of a reference. A level admits null unless a non-null wraps it. -/
def resolve? (mapName : NameMap) : TypeReference → Option ResolvedType
  | named name => if name.isEmpty then none else some (.named (mapName name) true)
  | list item => (item.resolve? mapName).map fun element => .list element true
  | nonNull (nonNull _) => none
  | nonNull inner => (inner.resolve? mapName).map (·.withNullable false)

end TypeReference

end GraphSchema
