import GraphSchema.Schema.Document
import GraphSchema.Sdl.Parser
import GraphSchema.Sdl.Value

/-!
# The grammar of schema documents

One parser for each rule. Definitions of types are read into the document;
a schema block, an extension and a definition of a directive are recognised and
skipped. A schema block that names an operation twice or an unknown one, and an
extension that adds nothing, are refused at their keyword after they have been
read.
-/

namespace GraphSchema.Sdl

/-- The kinds of definition that are skipped. -/
inductive SkippedKind where
  | schema
  | extension
  | directive
deriving DecidableEq, Inhabited, Repr

/-- The keyword that introduces a skipped definition. -/
def SkippedKind.keyword : SkippedKind → String
  | schema => "schema"
  | extension => "extend"
  | directive => "directive"

/-- A definition that is recognised and left out. -/
structure Skipped where
  kind : SkippedKind
  name : Option String
  position : Position
deriving DecidableEq, Inhabited, Repr

/-- What a skipped definition is called, such as `extend User`. -/
def Skipped.label (s : Skipped) : String :=
  match s.name with
  | some name => s.kind.keyword ++ " " ++ name
  | none => s.kind.keyword

/-- An entry of a schema document. -/
inductive Entry where
  | definition (value : Definition)
  | skipped (value : Skipped)
deriving DecidableEq, Inhabited, Repr

namespace Grammar

open GraphSchema.Sdl.Parser

/-- Reads a value of bounded depth. A constant holds no variables. -/
def valueWithin (constant : Bool) : Nat → Parser Value
  | 0 => failHere
  | n + 1 => do
      match ← peek with
      | some (.int i) => skip; pure (.int i)
      | some (.float x) => skip; pure (.float x)
      | some (.string s) => skip; pure (.string s)
      | some (.name s) =>
          skip
          if s = "true" then pure (.boolean true)
          else if s = "false" then pure (.boolean false)
          else if s = "null" then pure .null
          else pure (.enum s)
      | some (.punctuator '$') => if constant then failHere else skip; .var <$> name
      | some (.punctuator '[') =>
          skip
          let items ← many (· != .punctuator ']') (valueWithin constant n)
          mark ']'
          pure (.list items)
      | some (.punctuator '\x7b') =>
          skip
          let fields ← many isName do
            let k ← name
            mark ':'
            let v ← valueWithin constant n
            pure (k, v)
          mark '\x7d'
          pure (.ofFields fields)
      | _ => failHere

/-- Reads a value. Each level takes a token, so the tokens bound the depth. -/
def value (constant : Bool) : Parser Value := fun ts => valueWithin constant (ts.length + 1) ts

/-- Reads a type of bounded depth. -/
def typeWithin : Nat → Parser TypeReference
  | 0 => failHere
  | n + 1 => do
      let t ←
        if ← accept (.punctuator '[') then
          let item ← typeWithin n
          mark ']'
          pure (.list item)
        else .named <$> name
      if ← accept (.punctuator '!') then pure (.nonNull t) else pure t

/-- Reads a type. Each level takes a token, so the tokens bound the depth. -/
def type : Parser TypeReference := fun ts => typeWithin (ts.length + 1) ts

/-- Reads an argument of a directive. -/
def directiveArgument : Parser DirectiveArgument := do
  let key ← name
  mark ':'
  let v ← value false
  pure ⟨key, v.render⟩

/-- Reads a directive that is applied. -/
def directive : Parser Directive := do
  mark '@'
  let key ← name
  let arguments ← between '(' ')' (oneOrMore isName directiveArgument)
  pure ⟨key, arguments⟩

/-- Reads the directives that are applied to something. -/
def directives : Parser (List Directive) := many (· == .punctuator '@') directive

/-- Reads an argument of a field, or a field of an input object. -/
def inputValue : Parser InputValue := do
  let description ← string?
  let key ← name
  mark ':'
  let t ← type
  let defaultValue ←
    if ← accept (.punctuator '=') then
      let v ← value true
      pure (some v.render)
    else pure none
  let applied ← directives
  pure ⟨key, description, t, defaultValue, applied⟩

/-- Reads the arguments of a field or of a directive's definition. -/
def arguments : Parser (List InputValue) := between '(' ')' (oneOrMore isNameOrString inputValue)

/-- Reads a field of an object or an interface. -/
def field : Parser Field := do
  let description ← string?
  let key ← name
  let taken ← arguments
  mark ':'
  let t ← type
  let applied ← directives
  pure ⟨key, description, taken, t, applied⟩

/-- Reads a value of an enum. -/
def enumValue : Parser EnumValue := do
  let description ← string?
  let key ← name
  let applied ← directives
  pure ⟨key, description, applied⟩

/-- Reads the body in braces of a type, if it has one. -/
def block {α : Type} (item : Parser α) : Parser (List α) :=
  between '\x7b' '\x7d' (oneOrMore isNameOrString item)

/-- Reads the interfaces that a type implements. -/
def implements : Parser (List String) := do
  if ← accept (.name "implements") then
    let _ ← accept (.punctuator '&')
    separated '&' name
  else pure []

/-- Reads the members of a union. -/
def unionMembers : Parser (List String) := do
  if ← accept (.punctuator '=') then
    let _ ← accept (.punctuator '|')
    separated '|' name
  else pure []

/-- Reads the definition of a type from its keyword on. -/
def typeDefinition (description : Option String) : Parser Definition := do
  match ← peek with
  | some (.name "scalar") =>
      skip
      let key ← name
      let applied ← directives
      pure ⟨key, description, applied, .scalar⟩
  | some (.name "type") =>
      skip
      let key ← name
      let interfaces ← implements
      let applied ← directives
      let fields ← block field
      pure ⟨key, description, applied, .object interfaces fields⟩
  | some (.name "interface") =>
      skip
      let key ← name
      let interfaces ← implements
      let applied ← directives
      let fields ← block field
      pure ⟨key, description, applied, .interface interfaces fields⟩
  | some (.name "union") =>
      skip
      let key ← name
      let applied ← directives
      let members ← unionMembers
      pure ⟨key, description, applied, .union members⟩
  | some (.name "enum") =>
      skip
      let key ← name
      let applied ← directives
      let values ← block enumValue
      pure ⟨key, description, applied, .enum values⟩
  | some (.name "input") =>
      skip
      let key ← name
      let applied ← directives
      let fields ← block inputValue
      pure ⟨key, description, applied, .inputObject fields⟩
  | _ => failHere

/-- Whether an extension brings nothing. The interfaces of an interface do not count. -/
def addsNothing (d : Definition) : Bool :=
  d.directives.isEmpty &&
    match d.body with
    | .scalar => true
    | .object interfaces fields => interfaces.isEmpty && fields.isEmpty
    | .interface _ fields => fields.isEmpty
    | .union members => members.isEmpty
    | .enum values => values.isEmpty
    | .inputObject fields => fields.isEmpty

/-- Reads an extension. -/
def extension : Parser Skipped := do
  expect (.name "extend")
  let p ← position
  let d ← typeDefinition none
  if addsNothing d then failAt p else pure ⟨.extension, some d.name, p⟩

/-- The operations that a schema block may name. -/
def operationNames : List String := OperationKind.all.map OperationKind.name

/-- Reads a schema block. -/
def schemaBlock : Parser Skipped := do
  let p ← position
  expect (.name "schema")
  let _ ← directives
  mark '\x7b'
  let operations ← many isName do
    let operation ← name
    mark ':'
    let _ ← name
    pure operation
  mark '\x7d'
  if operations.all operationNames.contains && operations.Nodup then pure ⟨.schema, none, p⟩
  else failAt p

/-- The places at which a directive may be allowed. -/
def directiveLocations : List String :=
  ["QUERY", "MUTATION", "SUBSCRIPTION", "FIELD", "FRAGMENT_DEFINITION", "FRAGMENT_SPREAD",
    "INLINE_FRAGMENT", "SCHEMA", "SCALAR", "OBJECT", "FIELD_DEFINITION", "ARGUMENT_DEFINITION",
    "INTERFACE", "UNION", "ENUM", "ENUM_VALUE", "INPUT_OBJECT", "INPUT_FIELD_DEFINITION",
    "VARIABLE_DEFINITION"]

/-- Reads a place at which a directive is allowed. -/
def directiveLocation : Parser String := do
  match ← peek with
  | some (.name s) => if directiveLocations.contains s then skip; pure s else failHere
  | _ => failHere

/-- Reads the definition of a directive. -/
def directiveDefinition : Parser Skipped := do
  let p ← position
  expect (.name "directive")
  mark '@'
  let key ← name
  let _ ← arguments
  let _ ← accept (.name "repeatable")
  expect (.name "on")
  match ← peek with
  | some (.name _) => let _ ← separated '|' directiveLocation
  | some (.punctuator '|') =>
      skip
      let _ ← separated '|' directiveLocation
  | _ => pure ()
  pure ⟨.directive, some ("@" ++ key), p⟩

/-- Reads an entry of a document. Only a type or a directive may have a description. -/
def entry : Parser Entry := do
  match ← peek with
  | some (.name "schema") => .skipped <$> schemaBlock
  | some (.name "extend") => .skipped <$> extension
  | _ =>
      let description ← string?
      match ← peek with
      | some (.name "directive") => .skipped <$> directiveDefinition
      | _ => .definition <$> typeDefinition description

/-- Reads a document, which has an entry at least. -/
def document : Parser (List Entry) := oneOrMore (fun _ => true) entry

end Grammar

/-- What a source text holds: its definitions, and what was skipped. -/
structure Parsed where
  document : Document
  skipped : List Skipped
deriving DecidableEq, Inhabited, Repr

namespace Parsed

/-- The entries of a document by their kind, each in order. -/
def ofEntries (entries : List Entry) : Parsed where
  document := ⟨entries.filterMap fun | .definition d => some d | .skipped _ => none⟩
  skipped := entries.filterMap fun | .definition _ => none | .skipped s => some s

/-- What a text holds, or the place where it stops being a schema document. -/
def ofText (text : String) : Except Position Parsed :=
  let lexed := Lexed.ofText text
  match Grammar.document lexed.tokens with
  | .error (.located p) => .error p
  | .error .atEnd => .error lexed.stop
  | .ok (entries, _) => if lexed.complete then .ok (ofEntries entries) else .error lexed.stop

end Parsed

end GraphSchema.Sdl
