import GraphSchema.Json.Basic
import GraphSchema.Schema.Document

/-!
# Documents as JSON

The stored form of a document. A definition is an object tagged by `kind`, a
type reference an object of `kind` and `of`. What is absent or empty is left out
when it is written, and its default stands in for it when it is read. Keys that
a record does not have are passed over; a key of its own may not be repeated.

Every record may be read from the list of its values too, in the order that they
are written in. The list of a definition starts with its kind.
-/

namespace GraphSchema

namespace TypeReference

/-- The stored form of a type reference. -/
def toJson : TypeReference → Json
  | named name => .object [("kind", .string "named"), ("of", .string name)]
  | list item => .object [("kind", .string "list"), ("of", item.toJson)]
  | nonNull inner => .object [("kind", .string "non_null"), ("of", inner.toJson)]

/-- Reads a type reference that nests less deep than the second argument. -/
def ofJsonWithin? (isNothing : Json → Bool) : Nat → Json → Option TypeReference
  | 0, _ => none
  | n + 1, j => do
      let members ← j.record? ["kind", "of"]
      let kind ← Json.required members "kind" (Json.case? isNothing)
      if kind == "named" then named <$> Json.required members "of" Json.string?
      else if kind == "list" then
        list <$> Json.required members "of" (ofJsonWithin? isNothing n)
      else if kind == "non_null" then
        nonNull <$> Json.required members "of" (ofJsonWithin? isNothing n)
      else none

/-- The type reference that a value stores. -/
def ofJson? (j : Json) : Option TypeReference := ofJsonWithin? Json.isNull (j.depth + 1) j

/-- The type reference that a value in a definition stores. A definition is kept as it is until
its kind is known, and an object without members is then as good as null. -/
def ofInnerJson? (j : Json) : Option TypeReference := ofJsonWithin? Json.isVoid (j.depth + 1) j

end TypeReference

namespace DirectiveArgument

/-- The stored form of a directive's argument. -/
def toJson (a : DirectiveArgument) : Json :=
  .object [("name", .string a.name), ("value", .string a.value)]

/-- The directive argument that a value stores. -/
def ofJson? (j : Json) : Option DirectiveArgument := do
  let members ← j.record? ["name", "value"]
  return ⟨← Json.required members "name" Json.string?, ← Json.required members "value" Json.string?⟩

end DirectiveArgument

namespace Directive

/-- The stored form of a directive. -/
def toJson (d : Directive) : Json :=
  .ofPresent [some ("name", .string d.name),
    Json.presentList "arguments" DirectiveArgument.toJson d.arguments]

/-- The directive that a value stores. -/
def ofJson? (j : Json) : Option Directive := do
  let members ← j.record? ["name", "arguments"]
  return ⟨← Json.required members "name" Json.string?,
    ← Json.optionalList members "arguments" DirectiveArgument.ofJson?⟩

end Directive

namespace InputValue

/-- The stored form of an argument or input field. -/
def toJson (v : InputValue) : Json :=
  .ofPresent [some ("name", .string v.name), Json.presentText "description" v.description,
    some ("type", v.type.toJson), Json.presentText "default_value" v.defaultValue,
    Json.presentList "directives" Directive.toJson v.directives]

/-- The argument or input field that a value stores. -/
def ofJson? (j : Json) : Option InputValue := do
  let members ← j.record? ["name", "description", "type", "default_value", "directives"]
  return {
    name := ← Json.required members "name" Json.string?
    description := ← Json.optionalText members "description"
    type := ← Json.required members "type" TypeReference.ofInnerJson?
    defaultValue := ← Json.optionalText members "default_value"
    directives := ← Json.optionalList members "directives" Directive.ofJson? }

end InputValue

namespace Field

/-- The stored form of a field. -/
def toJson (f : Field) : Json :=
  .ofPresent [some ("name", .string f.name), Json.presentText "description" f.description,
    Json.presentList "arguments" InputValue.toJson f.arguments, some ("type", f.type.toJson),
    Json.presentList "directives" Directive.toJson f.directives]

/-- The field that a value stores. -/
def ofJson? (j : Json) : Option Field := do
  let members ← j.record? ["name", "description", "arguments", "type", "directives"]
  return {
    name := ← Json.required members "name" Json.string?
    description := ← Json.optionalText members "description"
    arguments := ← Json.optionalList members "arguments" InputValue.ofJson?
    type := ← Json.required members "type" TypeReference.ofInnerJson?
    directives := ← Json.optionalList members "directives" Directive.ofJson? }

end Field

namespace EnumValue

/-- The stored form of an enum's value. -/
def toJson (v : EnumValue) : Json :=
  .ofPresent [some ("name", .string v.name), Json.presentText "description" v.description,
    Json.presentList "directives" Directive.toJson v.directives]

/-- The enum's value that a value stores. -/
def ofJson? (j : Json) : Option EnumValue := do
  let members ← j.record? ["name", "description", "directives"]
  return {
    name := ← Json.required members "name" Json.string?
    description := ← Json.optionalText members "description"
    directives := ← Json.optionalList members "directives" Directive.ofJson? }

end EnumValue

namespace Definition

/-- The tag of a body. -/
def Body.tag : Body → String
  | .scalar => "scalar"
  | .object .. => "object"
  | .interface .. => "interface"
  | .union _ => "union"
  | .enum _ => "enum"
  | .inputObject _ => "input_object"

/-- The implemented interfaces of a body, left out when there are none. -/
def Body.interfacesMember : Body → Option (String × Json)
  | .object interfaces _ => Json.presentList "interfaces" .string interfaces
  | .interface interfaces _ => Json.presentList "interfaces" .string interfaces
  | _ => none

/-- The parts of a body. -/
def Body.partsMember : Body → Option (String × Json)
  | .scalar => none
  | .object _ fields => some ("fields", .array (fields.map Field.toJson))
  | .interface _ fields => some ("fields", .array (fields.map Field.toJson))
  | .union members => some ("members", .array (members.map .string))
  | .enum values => some ("values", .array (values.map EnumValue.toJson))
  | .inputObject fields => some ("fields", .array (fields.map InputValue.toJson))

/-- The stored form of a definition. -/
def toJson (d : Definition) : Json :=
  .ofPresent [some ("kind", .string d.body.tag), some ("name", .string d.name),
    Json.presentText "description" d.description, d.body.interfacesMember,
    Json.presentList "directives" Directive.toJson d.directives, d.body.partsMember]

/-- Reads the body that a tag announces. -/
def Body.ofMembers? (tag : String) (members : List (String × Json)) : Option Body :=
  if tag == "scalar" then some .scalar
  else if tag == "object" then
    return .object (← Json.optionalList members "interfaces" Json.string?)
      (← Json.required members "fields" (Json.arrayOf? Field.ofJson?))
  else if tag == "interface" then
    return .interface (← Json.optionalList members "interfaces" Json.string?)
      (← Json.required members "fields" (Json.arrayOf? Field.ofJson?))
  else if tag == "union" then
    .union <$> Json.required members "members" (Json.arrayOf? Json.string?)
  else if tag == "enum" then
    .enum <$> Json.required members "values" (Json.arrayOf? EnumValue.ofJson?)
  else if tag == "input_object" then
    .inputObject <$> Json.required members "fields" (Json.arrayOf? InputValue.ofJson?)
  else none

/-- The fields of a definition with a tag, the tag left out. -/
def fieldsOf (tag : String) : List String :=
  if tag == "object" || tag == "interface" then
    ["name", "description", "interfaces", "directives", "fields"]
  else if tag == "union" then ["name", "description", "directives", "members"]
  else if tag == "enum" then ["name", "description", "directives", "values"]
  else if tag == "input_object" then ["name", "description", "directives", "fields"]
  else ["name", "description", "directives"]

/-- The tag of a stored definition, and its members. -/
def tagged? : Json → Option (String × List (String × Json))
  | .object members => do return (← Json.required members "kind" Json.string?, members)
  | .array (first :: rest) => do
      let tag ← first.string?
      return (tag, ← Json.record? (fieldsOf tag) (.array rest))
  | _ => none

/-- The definition that a value stores. -/
def ofJson? (j : Json) : Option Definition := do
  let (tag, members) ← tagged? j
  return {
    name := ← Json.required members "name" Json.string?
    description := ← Json.optionalText members "description"
    directives := ← Json.optionalList members "directives" Directive.ofJson?
    body := ← Body.ofMembers? tag members }

end Definition

namespace Document

/-- The stored form of a document. -/
def toJson (d : Document) : Json :=
  .object [("definitions", .array (d.definitions.map Definition.toJson))]

/-- The members of a stored document. -/
def members? (j : Json) : Option (List (String × Json)) := j.record? ["definitions"]

/-- The document that a value stores. -/
def ofJson? (j : Json) : Option Document := do
  let members ← members? j
  return ⟨← Json.required members "definitions" (Json.arrayOf? Definition.ofJson?)⟩

end Document

end GraphSchema
