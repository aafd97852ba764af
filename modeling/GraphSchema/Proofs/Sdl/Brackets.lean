import GraphSchema.Proofs.Sdl.Grammar

/-!
# Brackets of printed text

What is printed where brackets are open closes those that it opens, and goes no deeper than lexing
follows if what it is printed for was permitted there.
-/

namespace GraphSchema

namespace Sdl

/-- Characters outside strings that open no string and are no brackets. -/
def areNeutral (cs : List Char) : Bool :=
  cs.all fun c => decide (c ≠ '"' ∧ ¬(c = '(' ∨ c = '[' ∨ c = '\x7b') ∧
    ¬(c = ')' ∨ c = ']' ∨ c = '\x7d'))

/-- A text behind which as many brackets are open as before it, and never too many. -/
def Fits (n : Nat) (cs : List Char) : Prop :=
  ∀ rest, peakFrom false n rest ≤ Lexed.bracketLimit →
    peakFrom false n (cs ++ rest) ≤ Lexed.bracketLimit

section Texts

variable {n : Nat} {cs ds : List Char}

theorem fits_nil : Fits n [] := fun _ h => h

theorem Fits.append (hcs : Fits n cs) (hds : Fits n ds) : Fits n (cs ++ ds) := by
  intro rest h
  rw [List.append_assoc]
  exact hcs _ (hds rest h)

theorem fits_neutral (cs : List Char) (h : areNeutral cs = true) : Fits n cs := by
  intro rest hrest
  induction cs with
  | nil => exact hrest
  | cons c cs ih =>
    rw [areNeutral, List.all_cons, Bool.and_eq_true, decide_eq_true_eq] at h
    obtain ⟨⟨hquote, hopening, hclosing⟩, hcs⟩ := h
    rw [List.cons_append, peakFrom, if_neg hquote, if_neg hopening, if_neg hclosing]
    exact ih hcs

theorem fits_word {w : List Char} {t : Token} (hw : Word w t) : Fits n w := by
  intro rest h
  rw [peakFrom_word hw]
  exact h

theorem fits_name {s : String} (hs : IsName s) : Fits n s.toList := fits_word (.name hs)

theorem fits_bracketed {opening closing : Char}
    (hopening : opening = '(' ∨ opening = '[' ∨ opening = '\x7b')
    (hclosing : closing = ')' ∨ closing = ']' ∨ closing = '\x7d')
    (hroom : n + 1 ≤ Lexed.bracketLimit) (h : Fits (n + 1) cs) :
    Fits n (opening :: (cs ++ [closing])) := by
  have hquote : opening ≠ '"' ∧ closing ≠ '"' := by
    constructor
    · rcases hopening with rfl | rfl | rfl <;> decide
    · rcases hclosing with rfl | rfl | rfl <;> decide
  have hnot : ¬(closing = '(' ∨ closing = '[' ∨ closing = '\x7b') := by
    rcases hclosing with rfl | rfl | rfl <;> decide
  intro rest hrest
  rw [List.cons_append, List.append_assoc, peakFrom, if_neg hquote.1, if_pos hopening]
  apply h
  rw [List.singleton_append, peakFrom, if_neg hquote.2, if_neg hnot, if_pos hclosing]
  exact Nat.max_le.mpr ⟨hroom, hrest⟩

theorem fits_flatMap {α : Type} {write : α → List Char} {xs : List α}
    (h : ∀ x ∈ xs, Fits n (write x)) : Fits n (xs.flatMap write) := by
  induction xs with
  | nil => exact fits_nil
  | cons x xs ih =>
    rw [List.flatMap_cons]
    exact (h x (by simp)).append (ih fun y hy => h y (by simp [hy]))

theorem fits_intercalate {blanks : List Char} (hblanks : areNeutral blanks = true)
    {xs : List (List Char)} (h : ∀ x ∈ xs, Fits n x) : Fits n (blanks.intercalate xs) := by
  cases xs with
  | nil => exact fits_nil
  | cons x xs =>
    rw [intercalate_cons]
    exact (h x (by simp)).append
      (fits_flatMap fun y hy => (fits_neutral _ hblanks).append (h y (by simp [hy])))

theorem fits_described {before : List Char} {after : Char} {description : Option String}
    (hbefore : areNeutral before = true) (hafter : areNeutral [after] = true) :
    Fits n (described before after description) := by
  cases description with
  | none => exact fits_nil
  | some s =>
    exact (fits_neutral _ hbefore).append ((fits_word (.string s)).append
      (fits_neutral _ hafter))

theorem fits_parenthesized {α : Type} {write : α → String} {xs : List α}
    (hroom : xs ≠ [] → n + 1 ≤ Lexed.bracketLimit)
    (h : ∀ x ∈ xs, Fits (n + 1) (write x).toList) : Fits n (parenthesized write xs).toList := by
  cases xs with
  | nil => exact fits_nil
  | cons x xs =>
    show Fits n ("(" ++ ", ".intercalate ((x :: xs).map write) ++ ")").toList
    rw [String.toList_append, String.toList_append, toList_intercalate_map, List.append_assoc]
    refine fits_bracketed (.inl rfl) (.inl rfl) (hroom (by simp))
      (fits_intercalate (by decide) fun y hy => ?_)
    obtain ⟨z, hz, rfl⟩ := List.mem_map.mp hy
    exact h z hz

theorem fits_block {α : Type} {write : α → String} {xs : List α}
    (h : ∀ x ∈ xs, Fits 1 (write x).toList) :
    Fits 0 (Definition.printBlock (xs.map write)).toList := by
  cases xs with
  | nil => exact fits_nil
  | cons x xs =>
    show Fits 0 (" \x7b\n" ++ String.join (((x :: xs).map write).map (· ++ "\n")) ++ "\x7d").toList
    rw [List.map_map, String.toList_append, String.toList_append, toList_join_map]
    have hlines : Fits 1 ((x :: xs).flatMap fun y => (write y ++ "\n").toList) := by
      refine fits_flatMap fun y hy => ?_
      rw [String.toList_append]
      exact (h y hy).append (fits_neutral _ (by decide))
    have hbody : Fits 1 ('\n' :: (x :: xs).flatMap fun y => (write y ++ "\n").toList) :=
      (fits_neutral ['\n'] (by decide)).append hlines
    exact (fits_neutral [' '] (by decide)).append
      (fits_bracketed (.inr (.inr rfl)) (.inr (.inr rfl)) (by decide) hbody)

end Texts

open Grammar

section Permitted

variable {floats : Binary64 → Prop} (hfloats : ∀ x, floats x → x.IsReadable) {n : Nat}

include hfloats in
theorem fits_value {constant : Bool} {v : Value} (h : v.Permitted (.lexed floats) constant n) :
    Fits n v.render.toList := by
  induction h with
  | var _ hname =>
    rw [Value.render, String.toList_append]
    exact (fits_neutral _ (by decide)).append (fits_name hname)
  | int hi => exact fits_word (.int hi)
  | @float _ x hx =>
    cases hfinite : x.isInfinite with
    | false => exact fits_word (.float (hfloats x hx) hfinite)
    | true =>
      rw [Value.render, Binary64.render_infinite (hfloats x hx) hfinite]
      exact fits_name (by decide)
  | string s => exact fits_word (.string s)
  | boolean b => cases b <;> exact fits_name (by decide)
  | null => exact fits_name (by decide)
  | enum hname => exact fits_name hname
  | @list n items hopened _ ih =>
    rw [Value.toList_render_list]
    refine fits_bracketed (.inr (.inl rfl)) (.inr (.inl rfl)) hopened
      (fits_intercalate (by decide) fun y hy => ?_)
    obtain ⟨v, hv, rfl⟩ := List.mem_map.mp hy
    exact ih v hv
  | @object n fields hopened hnames _ _ ih =>
    rw [Value.toList_render_object]
    refine fits_bracketed (.inr (.inr rfl)) (.inr (.inr rfl)) hopened
      (fits_intercalate (by decide) fun y hy => ?_)
    obtain ⟨f, hf, rfl⟩ := List.mem_map.mp hy
    rw [String.toList_append, String.toList_append]
    exact ((fits_name (hnames f hf)).append (fits_neutral _ (by decide))).append (ih f hf)

include hfloats in
theorem fits_text {constant : Bool} {text : String}
    (h : IsPermittedText (.lexed floats) constant n text) : Fits n text.toList := by
  obtain ⟨v, hv, rfl⟩ := h
  exact fits_value hfloats hv

theorem fits_type {t : TypeReference} (h : t.Permitted (.lexed floats) n) :
    Fits n t.render.toList := by
  induction h with
  | named hname => exact fits_name hname
  | list hopened _ ih =>
    rw [TypeReference.render, String.toList_append, String.toList_append, List.append_assoc]
    exact fits_bracketed (.inr (.inl rfl)) (.inr (.inl rfl)) hopened ih
  | nonNull _ _ ih =>
    rw [TypeReference.render, String.toList_append]
    exact ih.append (fits_neutral _ (by decide))

include hfloats in
theorem fits_directives {ds : List Directive} (h : ∀ d ∈ ds, d.Permitted (.lexed floats) n) :
    Fits n (Directive.printAll ds).toList := by
  rw [Directive.printAll, toList_join_map]
  refine fits_flatMap fun d hd => ?_
  obtain ⟨hname, hopened, hnames, hvalues⟩ := h d hd
  have htext := toList_printDirective d []
  rw [List.append_nil, List.append_nil] at htext
  rw [htext]
  have harguments : Fits n (parenthesized argumentText d.arguments).toList := by
    refine fits_parenthesized hopened fun a ha => ?_
    rw [argumentText, String.toList_append, String.toList_append]
    exact ((fits_name (hnames a ha)).append (fits_neutral _ (by decide))).append
      (fits_text hfloats (hvalues a ha))
  exact (fits_neutral [' ', '@'] (by decide)).append ((fits_name hname).append harguments)

include hfloats in
theorem fits_inputPrint {v : InputValue} (h : v.Permitted (.lexed floats) n) :
    Fits n v.print.toList := by
  have htext := toList_inputPrint v []
  rw [List.append_nil, List.append_nil] at htext
  rw [htext]
  have hdefault : Fits n (defaultText v.defaultValue).toList := by
    cases hvalue : v.defaultValue with
    | none => exact fits_nil
    | some text =>
      rw [defaultText, String.toList_append]
      exact (fits_neutral _ (by decide)).append (fits_text hfloats (h.defaultValue text hvalue))
  have hbehind := (fits_type h.type).append (hdefault.append (fits_directives hfloats h.directives))
  exact (fits_name h.name).append ((fits_neutral [':', ' '] (by decide)).append hbehind)

theorem fits_indented {description : Option String} {text : List Char} (h : Fits n text) :
    Fits n (indented description text) :=
  (fits_described (by decide) (by decide)).append ((fits_neutral _ (by decide)).append h)

include hfloats in
theorem fits_field {f : Field} (h : f.Permitted (.lexed floats) n) : Fits n f.print.toList := by
  have harguments : Fits n (parenthesized InputValue.printArgument f.arguments).toList := by
    refine fits_parenthesized h.opened fun a ha => ?_
    rw [toList_printArgument]
    exact (fits_described rfl (by decide)).append (fits_inputPrint hfloats (h.arguments a ha))
  have hbehind := (fits_type h.type).append (fits_directives hfloats h.directives)
  rw [toList_fieldPrint]
  exact fits_indented ((fits_name h.name).append (harguments.append
    ((fits_neutral [':', ' '] (by decide)).append hbehind)))

include hfloats in
theorem fits_enumValue {v : EnumValue} (h : v.Permitted (.lexed floats) n) :
    Fits n v.print.toList := by
  rw [toList_enumPrint]
  exact fits_indented ((fits_name h.name).append (fits_directives hfloats h.directives))

include hfloats in
theorem fits_inputField {v : InputValue} (h : v.Permitted (.lexed floats) n) :
    Fits n v.printField.toList := by
  rw [toList_printField]
  exact fits_indented (fits_inputPrint hfloats h)

/-- Names with a mark between them, behind some characters. -/
theorem fits_names {before between : String} (hbefore : areNeutral before.toList = true)
    (hbetween : areNeutral between.toList = true) {xs : List String} (h : ∀ s ∈ xs, IsName s) :
    Fits n (before ++ between.intercalate xs).toList := by
  rw [String.toList_append, String.toList_intercalate]
  refine (fits_neutral _ hbefore).append (fits_intercalate hbetween fun y hy => ?_)
  obtain ⟨s, hs, rfl⟩ := List.mem_map.mp hy
  exact fits_name (h s hs)

theorem fits_interfaces {interfaces : List String} (h : ∀ s ∈ interfaces, IsName s) :
    Fits n (Definition.printInterfaces interfaces).toList := by
  unfold Definition.printInterfaces
  split
  · exact fits_nil
  · exact fits_names (by decide) (by decide) h

include hfloats in
theorem fits_body {b : Definition.Body} (h : b.Permitted (.lexed floats)) :
    Fits 0 b.printHead.toList ∧ Fits 0 b.printTail.toList := by
  cases b with
  | scalar => exact ⟨fits_nil, fits_nil⟩
  | object interfaces fields =>
    exact ⟨fits_interfaces h.1, fits_block fun f hf => fits_field hfloats (h.2 f hf)⟩
  | interface interfaces fields =>
    exact ⟨fits_interfaces h.1, fits_block fun f hf => fits_field hfloats (h.2 f hf)⟩
  | union members =>
    refine ⟨fits_nil, ?_⟩
    rw [Definition.Body.printTail]
    split
    · exact fits_nil
    · exact fits_names (by decide) (by decide) h
  | enum values => exact ⟨fits_nil, fits_block fun v hv => fits_enumValue hfloats (h v hv)⟩
  | inputObject fields =>
    exact ⟨fits_nil, fits_block fun v hv => fits_inputField hfloats (h v hv)⟩

include hfloats in
theorem fits_definition {d : Definition} (h : d.Permitted (.lexed floats)) :
    Fits 0 d.print.toList := by
  have hkeyword : IsName d.keyword := isName_typeKeyword _ (keyword_mem d)
  obtain ⟨hhead, htail⟩ := fits_body hfloats h.body
  simp only [Definition.print, String.toList_append, toList_printDescription]
  exact ((((((fits_described rfl (by decide)).append (fits_name hkeyword)).append
    (fits_neutral _ (by decide))).append (fits_name h.name)).append hhead).append
      (fits_directives hfloats h.directives)).append htail

include hfloats in
/-- The text of permitted definitions goes no deeper than lexing follows. -/
theorem bracketPeak_print {definitions : List Definition}
    (h : ∀ d ∈ definitions, d.Permitted (.lexed floats)) :
    bracketPeak (Document.print ⟨definitions⟩) ≤ Lexed.bracketLimit := by
  have hfits : Fits 0 (Document.print ⟨definitions⟩).toList := by
    cases definitions with
    | nil => exact fits_nil
    | cons x xs =>
      rw [toList_documentPrint]
      refine (fits_intercalate (by decide) fun y hy => ?_).append (fits_neutral _ (by decide))
      obtain ⟨d, hd, rfl⟩ := List.mem_map.mp hy
      exact fits_definition hfloats (h d hd)
  have hpeak := hfits [] (by decide)
  rw [List.append_nil] at hpeak
  exact hpeak

end Permitted

/-- Definitions that a source could hold are read from their text as they are. -/
theorem Parsed.ofText_print_permitted {floats : Binary64 → Prop}
    (hfloats : ∀ x, floats x → x.IsReadable) {definitions : List Definition}
    (hne : definitions ≠ []) (h : ∀ d ∈ definitions, d.Permitted (.lexed floats)) :
    ofText (Document.print ⟨definitions⟩) = .ok ⟨⟨definitions⟩, []⟩ := by
  have hreadable : (Allowance.lexed floats).IsReadable := hfloats
  obtain ⟨used, hread⟩ := legible_definitions hreadable hne h
  exact ofText_of_reads hread (bracketPeak_print hfloats h)

end Sdl

end GraphSchema
