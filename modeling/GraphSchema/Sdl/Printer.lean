import GraphSchema.Schema.Document
import GraphSchema.Sdl.Quoted

/-!
# Printing definitions

The text of a document: its definitions with a blank line between them. Bodies
have one entry a line, indented by two spaces, and no braces when they are
empty. A description is a quoted string on the line before; that of an argument
stands in front of it. Default values and directive arguments are schema text
already and are written as they are.
-/

namespace GraphSchema

/-- The indentation of the entries of a body. -/
def Definition.indent : String := "  "

namespace Directive

/-- The text of a directive. -/
def print (d : Directive) : String :=
  let arguments :=
    if d.arguments.isEmpty then ""
    else "(" ++ ", ".intercalate (d.arguments.map fun a => a.name ++ ": " ++ a.value) ++ ")"
  "@" ++ d.name ++ arguments

/-- The text of directives behind what they are applied to. -/
def printAll (ds : List Directive) : String := String.join (ds.map fun d => " " ++ d.print)

end Directive

/-- The text of a description on a line of its own. -/
def printDescription (indent : String) (description : Option String) : String :=
  match description with
  | some text => indent ++ Sdl.Quoted.quote text ++ "\n"
  | none => ""

namespace InputValue

/-- The text of an argument or input field without its description. -/
def print (v : InputValue) : String :=
  let defaultText := match v.defaultValue with
    | some text => " = " ++ text
    | none => ""
  v.name ++ ": " ++ v.type.render ++ defaultText ++ Directive.printAll v.directives

/-- The text of an argument, its description in front of it. -/
def printArgument (v : InputValue) : String :=
  match v.description with
  | some text => Sdl.Quoted.quote text ++ " " ++ v.print
  | none => v.print

/-- The lines of an input field. -/
def printField (v : InputValue) : String :=
  printDescription Definition.indent v.description ++ Definition.indent ++ v.print

end InputValue

/-- The lines of a field. -/
def Field.print (f : Field) : String :=
  let arguments :=
    if f.arguments.isEmpty then ""
    else "(" ++ ", ".intercalate (f.arguments.map InputValue.printArgument) ++ ")"
  printDescription Definition.indent f.description ++ Definition.indent ++ f.name ++ arguments ++
    ": " ++ f.type.render ++ Directive.printAll f.directives

/-- The lines of an enum's value. -/
def EnumValue.print (v : EnumValue) : String :=
  printDescription Definition.indent v.description ++ Definition.indent ++ v.name ++
    Directive.printAll v.directives

namespace Definition

/-- The text of the interfaces that a type implements. -/
def printInterfaces (interfaces : List String) : String :=
  if interfaces.isEmpty then "" else " implements " ++ " & ".intercalate interfaces

/-- The text of a body in braces, one entry a line. -/
def printBlock (entries : List String) : String :=
  if entries.isEmpty then "" else " \x7b\n" ++ String.join (entries.map (· ++ "\n")) ++ "\x7d"

/-- The text of what stands between the name of a definition and its directives. -/
def Body.printHead : Body → String
  | .object interfaces _ => printInterfaces interfaces
  | .interface interfaces _ => printInterfaces interfaces
  | _ => ""

/-- The text of what stands behind the directives of a definition. -/
def Body.printTail : Body → String
  | .scalar => ""
  | .object _ fields => printBlock (fields.map Field.print)
  | .interface _ fields => printBlock (fields.map Field.print)
  | .union members => if members.isEmpty then "" else " = " ++ " | ".intercalate members
  | .enum values => printBlock (values.map EnumValue.print)
  | .inputObject fields => printBlock (fields.map InputValue.printField)

/-- The text of a definition. -/
def print (d : Definition) : String :=
  printDescription "" d.description ++ d.keyword ++ " " ++ d.name ++ d.body.printHead ++
    Directive.printAll d.directives ++ d.body.printTail

end Definition

/-- The text of a document, which ends in a line feed unless it is empty. -/
def Document.print (d : Document) : String :=
  let text := "\n\n".intercalate (d.definitions.map Definition.print)
  if text.isEmpty then "" else text ++ "\n"

end GraphSchema
