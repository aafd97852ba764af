/-!
# Type references

How a field, an argument or an input field names its type: a name, a list of a
reference, or a reference that admits no null. The reference `[String!]!` is a
non-null list of non-null strings.
-/

namespace GraphSchema

/-- The scalars that every document may use without declaring them. -/
def builtinScalars : List String := ["String", "Int", "Float", "Boolean", "ID"]

/-- Whether a name is that of a built-in scalar. -/
def isBuiltinScalar (name : String) : Bool := builtinScalars.contains name

/-- A reference to a type. -/
inductive TypeReference where
  | named (name : String)
  | list (item : TypeReference)
  | nonNull (inner : TypeReference)
deriving DecidableEq, Inhabited, Repr

namespace TypeReference

/-- The name inside every wrapper. -/
def baseName : TypeReference → String
  | named name => name
  | list item => item.baseName
  | nonNull inner => inner.baseName

/-- Whether the outermost wrapper is the non-null one. -/
def isNonNull : TypeReference → Bool
  | nonNull _ => true
  | _ => false

/-- The reference as schema text: brackets around a list, `!` after a non-null. -/
def render : TypeReference → String
  | named name => name
  | list item => "[" ++ item.render ++ "]"
  | nonNull inner => inner.render ++ "!"

end TypeReference

end GraphSchema
