import GraphSchema.Proofs.Sdl.Words
import GraphSchema.Schema.Document
import GraphSchema.Sdl.Value

/-!
# Well-formed documents

The documents that schema text can say: all names are names of the language, no reference is
non-null twice, and defaults and directive arguments are the texts of values. Nothing is asked of
descriptions and strings, and bodies and lists may be empty.
-/

namespace GraphSchema

namespace Sdl

/-- A value without floats. Only one that is no constant has variables. -/
inductive Value.IsPlain (constant : Bool) : Value → Prop
  | var {name : String} (hconstant : constant = false) (hname : IsName name) :
      IsPlain constant (.var name)
  | int {n : Int} (hn : IsInt64 n) : IsPlain constant (.int n)
  | string (s : String) : IsPlain constant (.string s)
  | boolean (b : Bool) : IsPlain constant (.boolean b)
  | null : IsPlain constant .null
  | enum {name : String} (hname : IsName name) : IsPlain constant (.enum name)
  | list {items : List Value} (hitems : ∀ v ∈ items, IsPlain constant v) :
      IsPlain constant (.list items)
  | object {fields : List (String × Value)} (hnames : ∀ f ∈ fields, IsName f.1)
      (hsorted : fields.Pairwise fun f g => f.1 < g.1)
      (hvalues : ∀ f ∈ fields, IsPlain constant f.2) : IsPlain constant (.object fields)

/-- A text is that of a plain value. -/
def IsValueText (constant : Bool) (text : String) : Prop :=
  ∃ v : Value, v.IsPlain constant ∧ text = v.render

end Sdl

open Sdl

/-- A reference that text can say, which is never non-null twice. -/
inductive TypeReference.IsProper : TypeReference → Prop
  | named {name : String} (hname : IsName name) : IsProper (.named name)
  | list {item : TypeReference} (hitem : IsProper item) : IsProper (.list item)
  | nonNull {inner : TypeReference} (hbare : inner.isNonNull = false) (hinner : IsProper inner) :
      IsProper (.nonNull inner)

structure Directive.WellFormed (d : Directive) : Prop where
  name : IsName d.name
  argumentNames : ∀ a ∈ d.arguments, IsName a.name
  argumentValues : ∀ a ∈ d.arguments, IsValueText false a.value

structure InputValue.WellFormed (v : InputValue) : Prop where
  name : IsName v.name
  type : v.type.IsProper
  defaultValue : ∀ text ∈ v.defaultValue, IsValueText true text
  directives : ∀ d ∈ v.directives, d.WellFormed

structure Field.WellFormed (f : Field) : Prop where
  name : IsName f.name
  arguments : ∀ a ∈ f.arguments, a.WellFormed
  type : f.type.IsProper
  directives : ∀ d ∈ f.directives, d.WellFormed

structure EnumValue.WellFormed (v : EnumValue) : Prop where
  name : IsName v.name
  directives : ∀ d ∈ v.directives, d.WellFormed

/-- What is asked of a body. -/
def Definition.Body.WellFormed : Definition.Body → Prop
  | .scalar => True
  | .object interfaces fields => (∀ s ∈ interfaces, IsName s) ∧ ∀ f ∈ fields, f.WellFormed
  | .interface interfaces fields => (∀ s ∈ interfaces, IsName s) ∧ ∀ f ∈ fields, f.WellFormed
  | .union members => ∀ s ∈ members, IsName s
  | .enum values => ∀ v ∈ values, v.WellFormed
  | .inputObject fields => ∀ v ∈ fields, v.WellFormed

structure Definition.WellFormed (d : Definition) : Prop where
  name : IsName d.name
  directives : ∀ x ∈ d.directives, x.WellFormed
  body : d.body.WellFormed

/-- All definitions are well-formed, and there is one at least. -/
structure Document.WellFormed (d : Document) : Prop where
  nonempty : d.definitions ≠ []
  definitions : ∀ x ∈ d.definitions, x.WellFormed

end GraphSchema
