import GraphSchema.Schema.TypeReference

/-!
# Definitions

What a schema document defines. All definitions have a name, a description and
directives; their bodies tell the six kinds apart. No position in a source is
kept, so equality is equality of content. Values of directives and defaults are
kept as schema text.
-/

namespace GraphSchema

/-- The kinds of root operation, in the order in which a merged document lists them. -/
inductive OperationKind where
  | query
  | mutation
  | subscription
deriving DecidableEq, Inhabited, Repr

namespace OperationKind

/-- All kinds, in order. -/
def all : List OperationKind := [query, mutation, subscription]

/-- The name of the root type of a kind. -/
def typeName : OperationKind → String
  | query => "Query"
  | mutation => "Mutation"
  | subscription => "Subscription"

/-- The name of a kind. -/
def name : OperationKind → String
  | query => "query"
  | mutation => "mutation"
  | subscription => "subscription"

/-- The kind whose root type has a name. -/
def ofTypeName? (name : String) : Option OperationKind := all.find? (·.typeName == name)

end OperationKind

/-- An argument of a directive, its value as schema text. -/
structure DirectiveArgument where
  name : String
  value : String
deriving DecidableEq, Inhabited, Repr

/-- A directive that is applied, its name without the `@`. -/
structure Directive where
  name : String
  arguments : List DirectiveArgument
deriving DecidableEq, Inhabited, Repr

/-- An argument of a field, or a field of an input object. -/
structure InputValue where
  name : String
  description : Option String
  type : TypeReference
  /-- The default as schema text. -/
  defaultValue : Option String
  directives : List Directive
deriving DecidableEq, Inhabited, Repr

/-- A field of an object or an interface. -/
structure Field where
  name : String
  description : Option String
  arguments : List InputValue
  type : TypeReference
  directives : List Directive
deriving DecidableEq, Inhabited, Repr

/-- One value of an enum. -/
structure EnumValue where
  name : String
  description : Option String
  directives : List Directive
deriving DecidableEq, Inhabited, Repr

/-- What a definition says of its type beyond name, description and directives. -/
inductive Definition.Body where
  | scalar
  | object (interfaces : List String) (fields : List Field)
  | interface (interfaces : List String) (fields : List Field)
  | union (members : List String)
  | enum (values : List EnumValue)
  | inputObject (fields : List InputValue)
deriving DecidableEq, Inhabited, Repr

/-- A definition of a type. -/
structure Definition where
  name : String
  description : Option String
  directives : List Directive
  body : Definition.Body
deriving DecidableEq, Inhabited, Repr

/-- The classes within which a merged document defines a name once. -/
inductive DefinitionClass where
  | scalar
  | namedType
  | inputObject
deriving DecidableEq, Inhabited, Repr

namespace DefinitionClass

/-- The name of a class. -/
def name : DefinitionClass → String
  | scalar => "scalar"
  | namedType => "named_type"
  | inputObject => "input_object"

/-- The word for a class in messages. -/
def label : DefinitionClass → String
  | scalar => "scalar"
  | namedType => "type"
  | inputObject => "input"

end DefinitionClass

/-- The first argument of a name. -/
def Field.findArgument? (f : Field) (name : String) : Option InputValue :=
  f.arguments.find? (·.name == name)

namespace Definition

/-- The keyword that introduces a definition. -/
def keyword (d : Definition) : String :=
  match d.body with
  | .scalar => "scalar"
  | .object .. => "type"
  | .interface .. => "interface"
  | .union _ => "union"
  | .enum _ => "enum"
  | .inputObject _ => "input"

/-- The class within which a definition's name is unique. -/
def definitionClass (d : Definition) : DefinitionClass :=
  match d.body with
  | .scalar => .scalar
  | .inputObject _ => .inputObject
  | _ => .namedType

/-- Whether a definition declares a scalar. -/
def isScalar (d : Definition) : Bool := d.body matches .scalar

/-- The fields of an object. -/
def objectFields? (d : Definition) : Option (List Field) :=
  match d.body with
  | .object _ fields => some fields
  | _ => none

/-- The fields of an object or an interface. -/
def outputFields? (d : Definition) : Option (List Field) :=
  match d.body with
  | .object _ fields => some fields
  | .interface _ fields => some fields
  | _ => none

/-- The fields of an input object. -/
def inputFields? (d : Definition) : Option (List InputValue) :=
  match d.body with
  | .inputObject fields => some fields
  | _ => none

/-- The operation kind that an object with the name of a root type serves. -/
def rootKind? (d : Definition) : Option OperationKind :=
  match d.body with
  | .object .. => OperationKind.ofTypeName? d.name
  | _ => none

end Definition

end GraphSchema
