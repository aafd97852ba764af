import GraphSchema.Json.Printer
import GraphSchema.Requirement.ResolvedType

/-!
# Requirement descriptors

What a schema asks an implementation for: a resolver for every field that has
to be resolved, a data holder for every entity, and an input holder for every
input object. Descriptors have a stored form, and a field map, which is an
object of plain names and rendered types.
-/

namespace GraphSchema

/-- The kinds of requirement. -/
inductive RequirementKind where
  | resolver
  | entity
  | request
deriving DecidableEq, Inhabited, Repr

namespace RequirementKind

/-- All kinds, in order. -/
def all : List RequirementKind := [resolver, entity, request]

/-- The name of a kind. -/
def name : RequirementKind → String
  | resolver => "resolver"
  | entity => "entity"
  | request => "request"

end RequirementKind

/-- An argument or a field with its target type. -/
structure TypedName where
  name : String
  type : ResolvedType
deriving DecidableEq, Inhabited, Repr

namespace TypedName

/-- The stored form of a typed name. -/
def toJson (t : TypedName) : Json :=
  .object [("name", .string t.name), ("type", .string t.type.render)]

/-- The object of names and rendered types. Of entries with one name the last one counts. -/
def fieldMap (entries : List TypedName) : Json :=
  .object (entries.foldl (fun members t => Json.put members t.name (.string t.type.render)) [])

end TypedName

/-- The field that a resolver serves, and the type that owns it. -/
structure ResolverKey where
  owner : String
  field : String
deriving DecidableEq, Inhabited, Repr

/-- The key as `owner.field`. -/
def ResolverKey.render (k : ResolverKey) : String := k.owner ++ "." ++ k.field

/-- A field that has to be resolved. -/
structure Resolver where
  key : ResolverKey
  arguments : List TypedName
  returnType : ResolvedType
  description : Option String
deriving DecidableEq, Inhabited, Repr

namespace Resolver

/-- The first argument of a name. -/
def findArgument? (r : Resolver) (name : String) : Option TypedName :=
  r.arguments.find? (·.name == name)

/-- The stored form of a resolver. -/
def toJson (r : Resolver) : Json :=
  .ofPresent [
    some ("key", .object [("owner", .string r.key.owner), ("field", .string r.key.field)]),
    some ("arguments", .array (r.arguments.map TypedName.toJson)),
    some ("return_type", .string r.returnType.render),
    Json.presentText "description" r.description]

/-- The field map of a resolver. -/
def fieldMap (r : Resolver) : Json :=
  .object [("type", .string r.key.owner), ("field", .string r.key.field),
    ("returnType", .string r.returnType.render), ("args", TypedName.fieldMap r.arguments),
    ("description", r.description.elim .null .string)]

end Resolver

/-- A type whose values are held: an entity's data, or a request's input. -/
structure Holder where
  name : String
  fields : List TypedName
  description : Option String
deriving DecidableEq, Inhabited, Repr

namespace Holder

/-- The first field of a name. -/
def findField? (h : Holder) (name : String) : Option TypedName := h.fields.find? (·.name == name)

/-- The stored form of a holder. -/
def toJson (h : Holder) : Json :=
  .ofPresent [some ("name", .string h.name),
    some ("fields", .array (h.fields.map TypedName.toJson)),
    Json.presentText "description" h.description]

/-- The field map of a holder. -/
def fieldMap (h : Holder) : Json :=
  .object [("name", .string h.name), ("fields", TypedName.fieldMap h.fields),
    ("description", h.description.elim .null .string)]

end Holder

/-- Everything that a schema asks for. -/
structure RequirementSet where
  resolvers : List Resolver
  entities : List Holder
  requests : List Holder
deriving DecidableEq, Inhabited, Repr

namespace RequirementSet

/-- The first resolver of a field. -/
def findResolver? (s : RequirementSet) (owner field : String) : Option Resolver :=
  s.resolvers.find? fun r => r.key.owner == owner && r.key.field == field

/-- The first entity of a name. -/
def findEntity? (s : RequirementSet) (name : String) : Option Holder :=
  s.entities.find? (·.name == name)

/-- The first request of a name. -/
def findRequest? (s : RequirementSet) (name : String) : Option Holder :=
  s.requests.find? (·.name == name)

/-- The number of descriptors of a kind. -/
def count (s : RequirementSet) : RequirementKind → Nat
  | .resolver => s.resolvers.length
  | .entity => s.entities.length
  | .request => s.requests.length

/-- The stored form of a set. -/
def toJson (s : RequirementSet) : Json :=
  .object [("resolvers", .array (s.resolvers.map Resolver.toJson)),
    ("entities", .array (s.entities.map Holder.toJson)),
    ("requests", .array (s.requests.map Holder.toJson))]

/-- The text in which a set is saved. -/
def toText (s : RequirementSet) : String := s.toJson.pretty

end RequirementSet

end GraphSchema
