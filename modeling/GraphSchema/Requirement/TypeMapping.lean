import GraphSchema.Schema.TypeReference

/-!
# Type mappings

How names of schema types become names of target types. Only atomic names are
looked up: a text in composite notation, `array<T>` or `T|null`, is peeled, its
innermost name is mapped, and the notation is put back around the result.
-/

namespace GraphSchema

/-- The target names of atomic names. -/
abbrev NameMap := String → String

/-- The text after an element type that admits null. -/
def nullSuffix : List Char := "|null".toList

/-- The text before the element type of a list. -/
def listOpening : List Char := "array<".toList

namespace NameMap

/-- The target type of a text in composite notation whose length is below the first
argument. A `|null` at the end is peeled before an `array<…>` around the whole. -/
def compositeWithin (mapName : NameMap) : Nat → List Char → List Char
  | 0, cs => (mapName (String.ofList cs)).toList
  | n + 1, cs =>
      match nullSuffix.isSuffixOf? cs with
      | some inner => compositeWithin mapName n inner ++ nullSuffix
      | none =>
          match listOpening.isPrefixOf? cs >>= ['>'].isSuffixOf? with
          | some inner => listOpening ++ compositeWithin mapName n inner ++ ['>']
          | none => (mapName (String.ofList cs)).toList

/-- The target type of a text that may be in composite notation. -/
def toTargetType (mapName : NameMap) (text : String) : String :=
  String.ofList (compositeWithin mapName (text.toList.length + 1) text.toList)

end NameMap

/-- The target names of the built-in scalars. -/
def builtinTypeMap : List (String × String) :=
  [("String", "string"), ("Int", "int"), ("Float", "float"), ("Boolean", "bool"), ("ID", "string")]

/-- A table of names that take precedence over the built-in ones. -/
structure TypeMapping where
  overrides : List (String × String)
deriving DecidableEq, Inhabited, Repr

namespace TypeMapping

/-- The target name of an atomic name; one that no table knows stays as it is. -/
def mapName (m : TypeMapping) : NameMap := fun name =>
  match m.overrides.lookup name with
  | some target => target
  | none => (builtinTypeMap.lookup name).getD name

end TypeMapping

end GraphSchema
