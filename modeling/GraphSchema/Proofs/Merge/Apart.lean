import GraphSchema.Proofs.Merge.Union
import GraphSchema.Proofs.Sdl.Rendering

/-!
# Definitions that differ in a value

Values are kept as texts and compared as such. Definitions that are the same but for the value of a
default or of a directive's argument are in conflict, unless the two values are the same up to the
name of the infinity.
-/

namespace GraphSchema

/-- Two lists are the same but for one place, where their items are related. -/
inductive OneApart {α : Type} (R : α → α → Prop) : List α → List α → Prop
  | here {x y : α} (before after : List α) (h : R x y) :
      OneApart R (before ++ x :: after) (before ++ y :: after)

theorem OneApart.eq_iff {α : Type} {R : α → α → Prop} {P : Prop} {xs ys : List α}
    (h : OneApart R xs ys) (hR : ∀ {x y}, R x y → (x = y ↔ P)) : xs = ys ↔ P := by
  cases h with
  | here before after h =>
    rw [List.append_cancel_left_eq, List.cons.injEq, and_iff_left rfl]
    exact hR h

section

variable (a b : String)

/-- The first argument has the value `a` and the second one `b`. -/
inductive DirectiveArgument.Apart : DirectiveArgument → DirectiveArgument → Prop
  | value (x : DirectiveArgument) : Apart { x with value := a } { x with value := b }

/-- Directives that are the same but for `a` in one and `b` in the other. -/
inductive Directive.Apart : Directive → Directive → Prop
  | arguments (d : Directive) {xs ys : List DirectiveArgument}
      (h : OneApart (DirectiveArgument.Apart a b) xs ys) :
      Apart { d with arguments := xs } { d with arguments := ys }

inductive InputValue.Apart : InputValue → InputValue → Prop
  | defaultValue (v : InputValue) :
      Apart { v with defaultValue := some a } { v with defaultValue := some b }
  | directives (v : InputValue) {xs ys : List Directive}
      (h : OneApart (Directive.Apart a b) xs ys) :
      Apart { v with directives := xs } { v with directives := ys }

inductive Field.Apart : Field → Field → Prop
  | arguments (f : Field) {xs ys : List InputValue} (h : OneApart (InputValue.Apart a b) xs ys) :
      Apart { f with arguments := xs } { f with arguments := ys }
  | directives (f : Field) {xs ys : List Directive} (h : OneApart (Directive.Apart a b) xs ys) :
      Apart { f with directives := xs } { f with directives := ys }

inductive EnumValue.Apart : EnumValue → EnumValue → Prop
  | directives (v : EnumValue) {xs ys : List Directive}
      (h : OneApart (Directive.Apart a b) xs ys) :
      Apart { v with directives := xs } { v with directives := ys }

inductive Definition.Body.Apart : Definition.Body → Definition.Body → Prop
  | object (interfaces : List String) {xs ys : List Field} (h : OneApart (Field.Apart a b) xs ys) :
      Apart (.object interfaces xs) (.object interfaces ys)
  | interface (interfaces : List String) {xs ys : List Field}
      (h : OneApart (Field.Apart a b) xs ys) :
      Apart (.interface interfaces xs) (.interface interfaces ys)
  | enum {xs ys : List EnumValue} (h : OneApart (EnumValue.Apart a b) xs ys) :
      Apart (.enum xs) (.enum ys)
  | inputObject {xs ys : List InputValue} (h : OneApart (InputValue.Apart a b) xs ys) :
      Apart (.inputObject xs) (.inputObject ys)

/-- Definitions that are the same but for one default or directive argument, which has the value
`a` in one and `b` in the other. -/
inductive Definition.Apart : Definition → Definition → Prop
  | directives (d : Definition) {xs ys : List Directive}
      (h : OneApart (Directive.Apart a b) xs ys) :
      Apart { d with directives := xs } { d with directives := ys }
  | body (d : Definition) {x y : Definition.Body} (h : Definition.Body.Apart a b x y) :
      Apart { d with body := x } { d with body := y }

end

section

variable {a b : String}

theorem DirectiveArgument.Apart.eq_iff {x y : DirectiveArgument}
    (h : DirectiveArgument.Apart a b x y) : x = y ↔ a = b := by
  cases h
  simp

theorem Directive.Apart.eq_iff {d e : Directive} (h : Directive.Apart a b d e) :
    d = e ↔ a = b := by
  cases h with
  | arguments d h => simpa using h.eq_iff DirectiveArgument.Apart.eq_iff

theorem InputValue.Apart.eq_iff {v w : InputValue} (h : InputValue.Apart a b v w) :
    v = w ↔ a = b := by
  cases h with
  | defaultValue v => simp
  | directives v h => simpa using h.eq_iff Directive.Apart.eq_iff

theorem Field.Apart.eq_iff {f g : Field} (h : Field.Apart a b f g) : f = g ↔ a = b := by
  cases h with
  | arguments f h => simpa using h.eq_iff InputValue.Apart.eq_iff
  | directives f h => simpa using h.eq_iff Directive.Apart.eq_iff

theorem EnumValue.Apart.eq_iff {v w : EnumValue} (h : EnumValue.Apart a b v w) :
    v = w ↔ a = b := by
  cases h with
  | directives v h => simpa using h.eq_iff Directive.Apart.eq_iff

theorem Definition.Body.Apart.eq_iff {x y : Definition.Body} (h : Definition.Body.Apart a b x y) :
    x = y ↔ a = b := by
  cases h with
  | object interfaces h => simpa using h.eq_iff Field.Apart.eq_iff
  | interface interfaces h => simpa using h.eq_iff Field.Apart.eq_iff
  | enum h => simpa using h.eq_iff EnumValue.Apart.eq_iff
  | inputObject h => simpa using h.eq_iff InputValue.Apart.eq_iff

theorem Definition.Apart.eq_iff {d e : Definition} (h : Definition.Apart a b d e) :
    d = e ↔ a = b := by
  cases h with
  | directives d h => simpa using h.eq_iff Directive.Apart.eq_iff
  | body d h => simpa using h.eq_iff

theorem Field.Apart.name_eq {f g : Field} (h : Field.Apart a b f g) : f.name = g.name := by
  cases h <;> rfl

/-- The two have the same name in the same class, and are root types only together. -/
theorem Definition.Apart.same_place {d e : Definition} (h : Definition.Apart a b d e) :
    d.name = e.name ∧ d.definitionClass = e.definitionClass ∧ d.rootKind? = e.rootKind? := by
  cases h with
  | directives d h => exact ⟨rfl, rfl, rfl⟩
  | body d h => cases h <;> exact ⟨rfl, rfl, rfl⟩

end

namespace Merge

variable {documents : List (String × Document)} {m : Document} {a b : String}

/-- In what merges, definitions that differ in a value have the same text for it. -/
theorem eq_of_apart (hm : ofDocuments documents = .ok m) {d e : Definition}
    (hd : d ∈ allDefinitions documents) (he : e ∈ allDefinitions documents)
    (hkind : d.rootKind? = none) (h : Definition.Apart a b d e) : a = b := by
  obtain ⟨hname, hclass, hroot⟩ := h.same_place
  have hplain : e ∈ plain d.definitionClass (allDefinitions documents) :=
    mem_plain.mpr ⟨he, hroot.symm.trans hkind, hclass.symm⟩
  exact h.eq_iff.mp ((compatible_of_ofDocuments hm).2.definitions _ d
    (mem_plain.mpr ⟨hd, hkind, rfl⟩) e hplain hname)

theorem eq_of_fieldApart (hm : ofDocuments documents = .ok m) {k : OperationKind} {f g : Field}
    (hf : f ∈ contributed k (allDefinitions documents))
    (hg : g ∈ contributed k (allDefinitions documents)) (h : Field.Apart a b f g) : a = b :=
  h.eq_iff.mp ((compatible_of_ofDocuments hm).2.fields k f hf g hg h.name_eq)

end Merge

namespace Sdl.Value

/-- A value that is read somewhere in a text. -/
def IsParsed (v : Value) : Prop :=
  ∃ constant n start text behind, v.StandsAt constant n start text behind

theorem IsParsed.spelled {v : Value} (hv : v.IsParsed) : v.Spelled := by
  obtain ⟨constant, n, start, text, behind, hv⟩ := hv
  exact hv.spelledAt.2

end Sdl.Value

namespace Merge

open Sdl

/-- Parsed values have the same text exactly if they are the same up to the name of the infinity. If
they are not, no merge succeeds with two definitions, or two fields of one root type, that are the
same but for these values. -/
theorem values_told_apart {v w : Value} (hv : v.IsParsed) (hw : w.IsParsed) :
    (v.render = w.render ↔ v.namingInfinity = w.namingInfinity) ∧
      (v.namingInfinity ≠ w.namingInfinity → ∀ documents m, ofDocuments documents = .ok m →
        (∀ d ∈ allDefinitions documents, ∀ e ∈ allDefinitions documents, d.rootKind? = none →
          ¬ Definition.Apart v.render w.render d e) ∧
        ∀ k, ∀ f ∈ contributed k (allDefinitions documents),
          ∀ g ∈ contributed k (allDefinitions documents),
          ¬ Field.Apart v.render w.render f g) := by
  have hiff := hv.spelled.render_eq_iff hw.spelled
  refine ⟨hiff, fun hne documents m hm => ⟨?_, ?_⟩⟩
  · intro d hd e he hkind h
    exact hne (hiff.mp (eq_of_apart hm hd he hkind h))
  · intro k f hf g hg h
    exact hne (hiff.mp (eq_of_fieldApart hm hf hg h))

/-- An input object with one field, which has a default. -/
def inputWith (text : String) : Definition :=
  ⟨"I", none, [], .inputObject [⟨"x", none, .named "Int", some text, []⟩]⟩

/-- A comma within a string and one between items. -/
theorem values_told_apart_commas : ∃ v w : Value, v.IsParsed ∧ w.IsParsed ∧
    v.render = "[\"a, b\"]" ∧ w.render = "[\"a\", \"b\"]" ∧
    v.namingInfinity ≠ w.namingInfinity ∧
    ∀ m, ofDocuments [("one", ⟨[inputWith v.render]⟩), ("two", ⟨[inputWith w.render]⟩)] ≠
      .ok m := by
  have hone : Value.readsAs true 1 "[\"a, b\"]".toList [' ', '\x7d']
      (·.render == "[\"a, b\"]") = true := by decide +kernel
  have htwo : Value.readsAs true 1 "[\"a\" \"b\"]".toList [' ', '\x7d']
      (·.render == "[\"a\", \"b\"]") = true := by decide +kernel
  obtain ⟨v, hv, hvtext⟩ := Value.standsAt_of_readsAs hone
  obtain ⟨w, hw, hwtext⟩ := Value.standsAt_of_readsAs htwo
  have hvtext := eq_of_beq hvtext
  have hwtext := eq_of_beq hwtext
  have hv : v.IsParsed := ⟨true, 1, .start, _, _, hv⟩
  have hw : w.IsParsed := ⟨true, 1, .start, _, _, hw⟩
  have htold := values_told_apart hv hw
  have hne : v.namingInfinity ≠ w.namingInfinity := by
    rw [Ne, ← htold.1, hvtext, hwtext]
    decide
  refine ⟨v, w, hv, hw, hvtext, hwtext, hne, fun m hm => ?_⟩
  have hdefinitions := (htold.2 hne _ m hm).1 (inputWith v.render) (by simp [allDefinitions])
    (inputWith w.render) (by simp [allDefinitions]) rfl
  exact hdefinitions (.body (inputWith "")
    (.inputObject (.here [] [] (.defaultValue ⟨"x", none, .named "Int", none, []⟩))))

/-- A number that overflows has the text of a name. Definitions that differ in the two are merged
as one. -/
theorem not_values_told_apart : ∃ v w : Value,
    v.StandsAt true 1 .start "1e400".toList [' ', '\x7d'] ∧
    w.StandsAt true 1 .start "inf".toList [' ', '\x7d'] ∧ v ≠ w ∧ v.render = w.render ∧
    ∃ m, ofSources [("one", Value.asDefault "1e400"), ("two", Value.asDefault "inf")] = .ok m := by
  have hone : Value.readsAs true 1 "1e400".toList [' ', '\x7d']
      (fun v => v.render == "inf" && v matches .float _) = true := by decide +kernel
  have htwo : Value.readsAs true 1 "inf".toList [' ', '\x7d']
      (fun v => v.render == "inf" && v matches .enum _) = true := by decide +kernel
  have hmerge : (ofSources [("one", Value.asDefault "1e400"),
      ("two", Value.asDefault "inf")]).toOption.any (fun _ => true) = true := by decide +kernel
  obtain ⟨v, hv, hfloat⟩ := Value.standsAt_of_readsAs hone
  obtain ⟨w, hw, henum⟩ := Value.standsAt_of_readsAs htwo
  obtain ⟨hvtext, hfloat⟩ := Bool.and_eq_true_iff.mp hfloat
  obtain ⟨hwtext, henum⟩ := Bool.and_eq_true_iff.mp henum
  obtain ⟨m, hm, -⟩ := exists_ok_of_any hmerge
  refine ⟨v, w, hv, hw, ?_, (eq_of_beq hvtext).trans (eq_of_beq hwtext).symm, m, hm⟩
  rintro rfl
  cases v <;> simp_all

end Merge

end GraphSchema
