import GraphSchema.Proofs.Sdl.WellFormed

/-!
# Permitted documents

What a source can say at a place with some brackets open. Which floats may stand in values, and how
many brackets may be open, is left to an allowance: well-formed documents have no floats and any
number of brackets.
-/

namespace GraphSchema

namespace Sdl

/-- Which floats values may hold, and how many brackets may be open at once. -/
structure Allowance where
  floats : Binary64 → Prop
  opened : Nat → Prop

/-- No floats, and any number of brackets. -/
def Allowance.plain : Allowance := ⟨fun _ => False, fun _ => True⟩

/-- Every float that values may hold has a text that is read back. -/
def Allowance.IsReadable (allowed : Allowance) : Prop := ∀ x, allowed.floats x → x.IsReadable

theorem Allowance.isReadable_plain : Allowance.plain.IsReadable := fun _ => False.elim

variable (allowed : Allowance)

/-- A value at a place with some brackets open. -/
inductive Value.Permitted (constant : Bool) : Nat → Value → Prop
  | var {n : Nat} {name : String} (hconstant : constant = false) (hname : IsName name) :
      Permitted constant n (.var name)
  | int {n : Nat} {i : Int} (hi : IsInt64 i) : Permitted constant n (.int i)
  | float {n : Nat} {x : Binary64} (hx : allowed.floats x) : Permitted constant n (.float x)
  | string {n : Nat} (s : String) : Permitted constant n (.string s)
  | boolean {n : Nat} (b : Bool) : Permitted constant n (.boolean b)
  | null {n : Nat} : Permitted constant n .null
  | enum {n : Nat} {name : String} (hname : IsName name) : Permitted constant n (.enum name)
  | list {n : Nat} {items : List Value} (hopened : allowed.opened (n + 1))
      (hitems : ∀ v ∈ items, Permitted constant (n + 1) v) : Permitted constant n (.list items)
  | object {n : Nat} {fields : List (String × Value)} (hopened : allowed.opened (n + 1))
      (hnames : ∀ f ∈ fields, IsName f.1) (hsorted : fields.Pairwise fun f g => f.1 < g.1)
      (hvalues : ∀ f ∈ fields, Permitted constant (n + 1) f.2) :
      Permitted constant n (.object fields)

/-- A text is that of a permitted value. -/
def IsPermittedText (constant : Bool) (n : Nat) (text : String) : Prop :=
  ∃ v : Value, v.Permitted allowed constant n ∧ text = v.render

end Sdl

open Sdl

variable (allowed : Allowance)

/-- A reference at a place with some brackets open. -/
inductive TypeReference.Permitted : Nat → TypeReference → Prop
  | named {n : Nat} {name : String} (hname : IsName name) : Permitted n (.named name)
  | list {n : Nat} {item : TypeReference} (hopened : allowed.opened (n + 1))
      (hitem : Permitted (n + 1) item) : Permitted n (.list item)
  | nonNull {n : Nat} {inner : TypeReference} (hbare : inner.isNonNull = false)
      (hinner : Permitted n inner) : Permitted n (.nonNull inner)

/-- An applied directive. Its arguments stand in brackets of their own. -/
structure Directive.Permitted (n : Nat) (d : Directive) : Prop where
  name : IsName d.name
  opened : d.arguments ≠ [] → allowed.opened (n + 1)
  argumentNames : ∀ a ∈ d.arguments, IsName a.name
  argumentValues : ∀ a ∈ d.arguments, IsPermittedText allowed false (n + 1) a.value

structure InputValue.Permitted (n : Nat) (v : InputValue) : Prop where
  name : IsName v.name
  type : v.type.Permitted allowed n
  defaultValue : ∀ text ∈ v.defaultValue, IsPermittedText allowed true n text
  directives : ∀ d ∈ v.directives, d.Permitted allowed n

structure Field.Permitted (n : Nat) (f : Field) : Prop where
  name : IsName f.name
  opened : f.arguments ≠ [] → allowed.opened (n + 1)
  arguments : ∀ a ∈ f.arguments, a.Permitted allowed (n + 1)
  type : f.type.Permitted allowed n
  directives : ∀ d ∈ f.directives, d.Permitted allowed n

structure EnumValue.Permitted (n : Nat) (v : EnumValue) : Prop where
  name : IsName v.name
  directives : ∀ d ∈ v.directives, d.Permitted allowed n

/-- What is asked of a body, whose braces are the first brackets of a definition. -/
def Definition.Body.Permitted : Definition.Body → Prop
  | .scalar => True
  | .object interfaces fields =>
      (∀ s ∈ interfaces, IsName s) ∧ ∀ f ∈ fields, f.Permitted allowed 1
  | .interface interfaces fields =>
      (∀ s ∈ interfaces, IsName s) ∧ ∀ f ∈ fields, f.Permitted allowed 1
  | .union members => ∀ s ∈ members, IsName s
  | .enum values => ∀ v ∈ values, v.Permitted allowed 1
  | .inputObject fields => ∀ v ∈ fields, v.Permitted allowed 1

structure Definition.Permitted (d : Definition) : Prop where
  name : IsName d.name
  directives : ∀ x ∈ d.directives, x.Permitted allowed 0
  body : d.body.Permitted allowed

variable {allowed}

theorem TypeReference.Permitted.isProper {n : Nat} {t : TypeReference}
    (h : t.Permitted allowed n) : t.IsProper := by
  induction h with
  | named hname => exact .named hname
  | list _ _ ih => exact .list ih
  | nonNull hbare _ ih => exact .nonNull hbare ih

/-! Well-formed documents have no floats. -/

theorem Sdl.Value.IsPlain.permitted {constant : Bool} {v : Value} (h : v.IsPlain constant)
    (n : Nat) : v.Permitted .plain constant n := by
  induction h generalizing n with
  | var hconstant hname => exact .var hconstant hname
  | int hn => exact .int hn
  | string s => exact .string s
  | boolean b => exact .boolean b
  | null => exact .null
  | enum hname => exact .enum hname
  | list _ ih => exact .list trivial fun v hv => ih v hv (n + 1)
  | object hnames hsorted _ ih =>
    exact .object trivial hnames hsorted fun f hf => ih f hf (n + 1)

theorem Sdl.IsValueText.permitted {constant : Bool} {text : String}
    (h : IsValueText constant text) (n : Nat) : IsPermittedText .plain constant n text := by
  obtain ⟨v, hv, htext⟩ := h
  exact ⟨v, hv.permitted n, htext⟩

theorem TypeReference.IsProper.permitted {t : TypeReference} (h : t.IsProper) (n : Nat) :
    t.Permitted .plain n := by
  induction h generalizing n with
  | named hname => exact .named hname
  | list _ ih => exact .list trivial (ih (n + 1))
  | nonNull hbare _ ih => exact .nonNull hbare (ih n)

theorem Directive.WellFormed.permitted {d : Directive} (hd : d.WellFormed) (n : Nat) :
    d.Permitted .plain n where
  name := hd.name
  opened _ := trivial
  argumentNames := hd.argumentNames
  argumentValues a ha := (hd.argumentValues a ha).permitted (n + 1)

theorem InputValue.WellFormed.permitted {v : InputValue} (hv : v.WellFormed) (n : Nat) :
    v.Permitted .plain n where
  name := hv.name
  type := hv.type.permitted n
  defaultValue text htext := (hv.defaultValue text htext).permitted n
  directives d hd := (hv.directives d hd).permitted n

theorem Field.WellFormed.permitted {f : Field} (hf : f.WellFormed) (n : Nat) :
    f.Permitted .plain n where
  name := hf.name
  opened _ := trivial
  arguments a ha := (hf.arguments a ha).permitted (n + 1)
  type := hf.type.permitted n
  directives d hd := (hf.directives d hd).permitted n

theorem EnumValue.WellFormed.permitted {v : EnumValue} (hv : v.WellFormed) (n : Nat) :
    v.Permitted .plain n where
  name := hv.name
  directives d hd := (hv.directives d hd).permitted n

theorem Definition.WellFormed.permitted {d : Definition} (hd : d.WellFormed) :
    d.Permitted .plain := by
  obtain ⟨hname, hdirectives, hbody⟩ := hd
  refine ⟨hname, fun x hx => (hdirectives x hx).permitted 0, ?_⟩
  cases hcases : d.body with
  | scalar => exact trivial
  | object interfaces fields =>
    rw [hcases] at hbody
    exact ⟨hbody.1, fun f hf => (hbody.2 f hf).permitted 1⟩
  | interface interfaces fields =>
    rw [hcases] at hbody
    exact ⟨hbody.1, fun f hf => (hbody.2 f hf).permitted 1⟩
  | union members =>
    rw [hcases] at hbody
    exact hbody
  | enum values =>
    rw [hcases] at hbody
    exact fun v hv => (hbody v hv).permitted 1
  | inputObject fields =>
    rw [hcases] at hbody
    exact fun v hv => (hbody v hv).permitted 1

end GraphSchema
