import GraphSchema.Proofs.Sdl.Values
import GraphSchema.Sdl.Printer

/-!
# Reading entries

What is printed for directives, arguments, fields and enum values is read back as it was.
-/

namespace GraphSchema

namespace Sdl

theorem toList_join_map {α : Type} (write : α → String) (xs : List α) :
    (String.join (xs.map write)).toList = xs.flatMap fun x => (write x).toList := by
  rw [String.toList_join, List.flatMap_map]

/-- The text of items in parentheses, if there are any. -/
def parenthesized {α : Type} (write : α → String) (xs : List α) : String :=
  if xs.isEmpty then "" else "(" ++ ", ".intercalate (xs.map write) ++ ")"

section Lists

variable {α : Type} {first : Token → Bool} {item : Parser α} {write : α → String} {xs : List α}
  {words : List String}

theorem lead_blanks {blanks : List Char} (hblanks : ∀ c ∈ blanks, isGap c = true)
    (cs : List Char) : lead (blanks ++ cs) = lead cs := by
  induction blanks with
  | nil => rfl
  | cons c blanks ih =>
    rw [List.cons_append, lead_gap (hblanks c (by simp)), ih fun x hx => hblanks x (by simp [hx])]

/-- Items behind blanks are read if each may stand behind the one before it. -/
theorem legible_items {c : Char} {blanks : List Char} (hblanks : ∀ x ∈ c :: blanks, isGap x = true)
    {x : α} (hitem : ∀ y ∈ x :: xs, Legible first (fun _ => item) (write y).toList y (Avoids words))
    (hlead : ∀ y ∈ x :: xs, ∀ cs, Bounded cs →
      ∀ w ∈ words, lead ((write y).toList ++ cs) ≠ w.toList) :
    Legible first (fun _ => Parser.oneOrMore first item)
      ((c :: blanks).intercalate ((x :: xs).map fun y => (write y).toList)) (x :: xs)
      fun cs => Avoids words cs ∧ Stops first cs := by
  have hbehind : ∀ y ∈ xs, ∀ cs, Avoids words cs →
      Avoids words ((c :: blanks) ++ (write y).toList ++ cs) := by
    intro y hy cs hcs
    apply avoids_gap (hblanks c (by simp))
    intro w hw
    rw [List.append_eq, List.append_eq, List.append_assoc,
      lead_blanks fun z hz => hblanks z (by simp [hz])]
    exact hlead y (by simp [hy]) cs hcs.1 w hw
  have hread := legible_oneOrMore hblanks hitem hbehind
  rw [List.map_id'] at hread
  exact hread

theorem reads_parenthesized (hfirst : first (.punctuator ')') = false)
    (hwords : ∀ w ∈ words, [')'] ≠ w.toList)
    (hitem : ∀ x ∈ xs, Legible first (fun _ => item) (write x).toList x (Avoids words))
    (hlead : ∀ x ∈ xs, ∀ cs, Bounded cs →
      ∀ w ∈ words, lead ((write x).toList ++ cs) ≠ w.toList) :
    ∃ used, ∀ {rest : List Char}, lead rest ≠ ['('] →
      Reads used (Parser.between '(' ')' (Parser.oneOrMore first item))
        ((parenthesized write xs).toList ++ rest) xs rest := by
  cases xs with
  | nil => exact ⟨[], fun hrest => .not_between hrest⟩
  | cons x xs =>
    obtain ⟨t, used, -, hread⟩ := legible_items
      (show ∀ c ∈ [',', ' '], isGap c = true by simp [isGap]) hitem hlead
    refine ⟨.punctuator '(' :: (t :: used ++ [Token.punctuator ')']), fun {rest} _ => ?_⟩
    have hinner := hread (Nat.lt_succ_self _)
      ⟨avoids_mark rfl hwords rest, stops_mark rfl hfirst (lead_mark rfl rest)⟩
    show Reads _ _ (("(" ++ ", ".intercalate ((x :: xs).map write) ++ ")").toList ++ rest) _ _
    rw [String.toList_append, String.toList_append, toList_intercalate_map, List.append_assoc,
      List.append_assoc]
    exact .between rfl hinner (.mark rfl rest)

theorem flatMap_lines {α : Type} (write : α → List Char) (x : α) (xs : List α) :
    (x :: xs).flatMap (fun y => write y ++ ['\n']) =
      ['\n'].intercalate ((x :: xs).map write) ++ ['\n'] := by
  induction xs generalizing x with
  | nil => simp
  | cons y xs ih =>
    rw [List.flatMap_cons, ih]
    simp only [List.map_cons, List.intercalate_cons_cons, List.append_assoc]

theorem reads_block (hfirst : first (.punctuator '\x7d') = false)
    (hitem : ∀ x ∈ xs, Legible first (fun _ => item) (write x).toList x (Avoids words))
    (hlead : ∀ x ∈ xs, ∀ cs, Bounded cs →
      ∀ w ∈ words, lead ((write x).toList ++ cs) ≠ w.toList)
    (hwords : ∀ w ∈ words, ['\x7d'] ≠ w.toList) :
    ∃ used, ∀ {rest : List Char}, lead rest ≠ ['\x7b'] →
      Reads used (Parser.between '\x7b' '\x7d' (Parser.oneOrMore first item))
        ((Definition.printBlock (xs.map write)).toList ++ rest) xs rest := by
  cases xs with
  | nil => exact ⟨[], fun hrest => .not_between hrest⟩
  | cons x xs =>
    obtain ⟨t, used, -, hread⟩ := legible_items
      (show ∀ c ∈ ['\n'], isGap c = true by simp [isGap]) hitem hlead
    refine ⟨.punctuator '\x7b' :: (t :: used ++ [Token.punctuator '\x7d']), fun {rest} _ => ?_⟩
    -- The last line ends before the brace, and no line goes on with one.
    have hclose : Avoids words ('\n' :: '\x7d' :: rest) := by
      apply avoids_gap rfl
      intro w hw
      rw [lead_mark rfl]
      exact hwords w hw
    have hstop : Stops first ('\n' :: '\x7d' :: rest) :=
      stops_mark rfl hfirst (by rw [lead_gap rfl, lead_mark rfl])
    have hinner := hread (Nat.lt_succ_self _) ⟨hclose, hstop⟩
    have htext : (Definition.printBlock ((x :: xs).map write)).toList ++ rest =
        ' ' :: '\x7b' :: '\n' ::
          (['\n'].intercalate ((x :: xs).map fun y => (write y).toList) ++
            '\n' :: '\x7d' :: rest) := by
      have hlines := flatMap_lines (fun y => (write y).toList) x xs
      show (" \x7b\n" ++ String.join (((x :: xs).map write).map (· ++ "\n")) ++
        "\x7d").toList ++ rest = _
      rw [List.map_map, String.toList_append, String.toList_append, toList_join_map]
      simp only [Function.comp_apply, String.toList_append]
      show [' ', '\x7b', '\n'] ++ (x :: xs).flatMap (fun y => (write y).toList ++ ['\n']) ++
        ['\x7d'] ++ rest = _
      rw [hlines]
      simp
    rw [htext]
    exact .gap rfl (.between rfl (.gap rfl hinner) (.gap rfl (.mark rfl rest)))

end Lists

/-- The punctuators that go on with an entry. -/
def entryMarks : List String := ["!", "(", "=", "@"]

/-- A text starts with a name. -/
def LeadsName (cs : List Char) : Prop := ∃ s, IsName s ∧ lead cs = s.toList

/-- A text starts with a name or a string. -/
def LeadsEntry (cs : List Char) : Prop := lead cs = ['"'] ∨ LeadsName cs

theorem LeadsEntry.ne {cs : List Char} (h : LeadsEntry cs) :
    ∀ w ∈ entryMarks, lead cs ≠ w.toList := by
  have hne : ∀ c : Char, Token.isPunctuator c = true → lead cs ≠ [c] := by
    rintro c hc hlead
    rcases h with hquote | ⟨s, hs, hname⟩
    · rw [hquote, List.singleton_inj] at hlead
      rw [← hlead] at hc
      exact absurd hc (by decide)
    · rw [hname] at hlead
      exact (hs.inert c (by simp [hlead])).ne (Token.isDelimiter_of_isPunctuator hc) rfl
  intro w hw
  simp only [entryMarks, List.mem_cons, List.not_mem_nil, or_false] at hw
  rcases hw with rfl | rfl | rfl | rfl
  · exact hne '!' rfl
  · exact hne '(' rfl
  · exact hne '=' rfl
  · exact hne '@' rfl

/-- The text of a description with blanks around it. -/
def described (before : List Char) (after : Char) (description : Option String) : List Char :=
  description.elim [] fun s => before ++ ((Quoted.quote s).toList ++ [after])

section Described

variable {α : Type} {q : Option String → Parser α} {description : Option String}
  {before text : List Char} {after : Char} {a : α} {follow : List Char → Prop}

theorem legible_described (hbefore : ∀ c ∈ before, isGap c = true) (hafter : isGap after = true)
    (h : Legible Parser.isName (fun _ => q description) text a follow) :
    Legible Parser.isNameOrString (fun _ => Parser.string? >>= q)
      (described before after description ++ text) a follow := by
  obtain ⟨t, used, ht, hread⟩ := h
  cases description with
  | none =>
    have hfirst : Parser.isNameOrString t = true := by
      cases t with
      | name s => rfl
      | _ => exact absurd ht Bool.false_ne_true
    exact ⟨t, used, hfirst, fun hn hrest => .no_string ht (hread hn hrest)⟩
  | some s =>
    rw [described, Option.elim_some, List.append_assoc, List.append_assoc]
    refine Legible.gap hbefore ⟨.string s, t :: used, rfl, fun {n rest} hn hrest => ?_⟩
    rw [List.append_assoc]
    have hbehind : Avoids [] (after :: (text ++ rest)) := avoids_gap hafter (by simp)
    exact (Reads.string s hbehind.1).bind (.gap hafter (hread (Nat.lt_of_succ_lt hn) hrest))

theorem leads_described (hbefore : ∀ c ∈ before, isGap c = true) {cs : List Char}
    (hcs : LeadsName cs) : LeadsEntry (described before after description ++ cs) := by
  cases description with
  | none => exact .inr hcs
  | some s =>
    left
    rw [described, Option.elim_some, List.append_assoc, List.append_assoc, lead_blanks hbefore,
      Quoted.quote_append]
    rfl

end Described

section Texts

variable {words : List String} {rest : List Char}

theorem avoids_parenthesized {α : Type} (write : α → String) (xs : List α)
    (hwords : ∀ w ∈ words, ['('] ≠ w.toList) (hrest : Avoids words rest) :
    Avoids words ((parenthesized write xs).toList ++ rest) := by
  cases xs with
  | nil => exact hrest
  | cons x xs =>
    show Avoids words (("(" ++ _ ++ ")").toList ++ rest)
    rw [String.toList_append, String.toList_append, List.append_assoc, List.append_assoc]
    exact avoids_mark rfl hwords _

/-- The text of an argument of a directive. -/
def argumentText (a : DirectiveArgument) : String := a.name ++ ": " ++ a.value

theorem toList_printDirective (d : Directive) (cs : List Char) : (" " ++ d.print).toList ++ cs =
    ' ' :: '@' :: (d.name.toList ++ ((parenthesized argumentText d.arguments).toList ++ cs)) := by
  show (" " ++ ("@" ++ d.name ++ parenthesized argumentText d.arguments)).toList ++ cs = _
  simp only [String.toList_append, List.append_assoc]
  rfl

theorem avoids_directives (ds : List Directive) (hwords : ∀ w ∈ words, ['@'] ≠ w.toList)
    (hrest : Avoids words rest) : Avoids words ((Directive.printAll ds).toList ++ rest) := by
  rw [Directive.printAll, toList_join_map]
  cases ds with
  | nil => exact hrest
  | cons d ds =>
    rw [List.flatMap_cons, List.append_assoc, toList_printDirective]
    apply avoids_gap rfl
    intro w hw
    rw [lead_mark rfl]
    exact hwords w hw

theorem bounded_parenthesized {α : Type} (write : α → String) (xs : List α)
    (hrest : Bounded rest) : Bounded ((parenthesized write xs).toList ++ rest) :=
  have h : Avoids [] ((parenthesized write xs).toList ++ rest) :=
    avoids_parenthesized write xs (by simp) ⟨hrest, by simp⟩
  h.1

theorem bounded_directives (ds : List Directive) (hrest : Bounded rest) :
    Bounded ((Directive.printAll ds).toList ++ rest) :=
  have h : Avoids [] ((Directive.printAll ds).toList ++ rest) :=
    avoids_directives ds (by simp) ⟨hrest, by simp⟩
  h.1

end Texts

namespace Grammar

variable {allowed : Allowance} (hfloats : allowed.IsReadable) {n : Nat}

include hfloats in
theorem legible_directiveArgument {a : DirectiveArgument} (hname : IsName a.name)
    (hvalue : IsPermittedText allowed false n a.value) :
    Legible Parser.isName (fun _ => directiveArgument) (argumentText a).toList a (Avoids []) := by
  obtain ⟨v, hrender, t, used, -, hread⟩ := legible_value hfloats hvalue
  refine ⟨.name a.name, [Token.punctuator ':'] ++ (t :: used ++ []), rfl,
    fun {n rest} hn hrest => ?_⟩
  have hinner := hread (Nat.lt_succ_self _) hrest.1
  have hpure : Reads [] (pure ⟨a.name, v.render⟩ : Parser DirectiveArgument) rest a rest := by
    rw [hrender]
    exact .pure a rest
  rw [argumentText, String.toList_append, String.toList_append, List.append_assoc,
    List.append_assoc]
  unfold directiveArgument
  exact (Reads.name hname (bounded_cons rfl _)).bind
    ((Reads.mark rfl _).bind ((Reads.gap rfl hinner).bind hpure))

include hfloats in
theorem legible_directive {d : Directive} (hd : d.Permitted allowed n) :
    Legible (· == .punctuator '@') (fun _ => directive) (" " ++ d.print).toList d
      (Avoids ["("]) := by
  have hitem : ∀ a ∈ d.arguments, Legible Parser.isName (fun _ => directiveArgument)
      (argumentText a).toList a (Avoids []) := fun a ha =>
    legible_directiveArgument hfloats (hd.argumentNames a ha) (hd.argumentValues a ha)
  obtain ⟨used, harguments⟩ := reads_parenthesized rfl (by simp) hitem (by simp)
  refine ⟨.punctuator '@', [Token.name d.name] ++ (used ++ []), rfl, fun {n rest} hn hrest => ?_⟩
  have hbehind := bounded_parenthesized argumentText d.arguments hrest.1
  rw [toList_printDirective]
  unfold directive
  exact .gap rfl ((Reads.mark rfl _).bind ((Reads.name hd.name hbehind).bind
    ((harguments (hrest.2 "(" (by decide))).bind (.pure _ rest))))

include hfloats in
theorem reads_directives {ds : List Directive} (hds : ∀ d ∈ ds, d.Permitted allowed n) :
    ∃ used, ∀ {rest : List Char}, Avoids ["@", "("] rest →
      Reads used directives ((Directive.printAll ds).toList ++ rest) ds rest := by
  have hbehind : ∀ d ∈ ds, ∀ cs, Avoids ["("] cs →
      Avoids ["("] ((" " ++ d.print).toList ++ cs) := by
    intro d _ cs _
    rw [toList_printDirective]
    apply avoids_gap rfl
    intro w hw
    rw [lead_mark rfl]
    revert w hw
    decide
  obtain ⟨used, hread⟩ :=
    reads_many_flatMap (fun d hd => legible_directive hfloats (hds d hd)) hbehind
  refine ⟨used, fun {rest} hrest => ?_⟩
  have hmany := hread (Nat.le_refl _) (hrest.mono (by decide))
    (stops_of_lead_ne (hrest.2 "@" (by decide)))
  rw [List.map_id'] at hmany
  rw [Directive.printAll, toList_join_map]
  exact hmany

/-- Reads the default of an input value, if there is one. -/
def defaultBody : Parser (Option String) := do
  if ← Parser.accept (.punctuator '=') then
    let v ← value true
    pure (some v.render)
  else pure none

/-- Reads an input value behind its description. -/
def inputBody (description : Option String) : Parser InputValue := do
  let key ← Parser.name
  Parser.mark ':'
  let t ← type
  let defaultValue ← defaultBody
  let applied ← directives
  pure ⟨key, description, t, defaultValue, applied⟩

theorem inputValue_eq : inputValue = Parser.string? >>= inputBody := by
  unfold inputValue inputBody defaultBody
  simp only [bind_assoc]
  refine bind_congr fun description => bind_congr fun key => bind_congr fun _ =>
    bind_congr fun t => bind_congr fun hasDefault => ?_
  cases hasDefault <;> simp

/-- The text of a default behind a type. -/
def defaultText (defaultValue : Option String) : String :=
  match defaultValue with
  | some text => " = " ++ text
  | none => ""

include hfloats in
theorem reads_default {defaultValue : Option String}
    (h : ∀ text, defaultValue = some text → IsPermittedText allowed true n text) :
    ∃ used, ∀ {rest : List Char}, Avoids ["="] rest →
      Reads used defaultBody ((defaultText defaultValue).toList ++ rest) defaultValue rest := by
  cases defaultValue with
  | none =>
    refine ⟨[] ++ [], fun hrest => ?_⟩
    exact (Reads.not_accept (hrest.2 "=" (by decide))).bind (.pure none _)
  | some text =>
    obtain ⟨w, hrender, first, used, -, hvalue⟩ := legible_value hfloats (h text rfl)
    subst hrender
    refine ⟨[Token.punctuator '='] ++ (first :: used ++ []), fun {rest} hrest => ?_⟩
    have htext : (defaultText (some w.render)).toList ++ rest =
        ' ' :: '=' :: ' ' :: (w.render.toList ++ rest) := by
      rw [defaultText, String.toList_append]
      rfl
    rw [htext]
    exact (Reads.gap rfl (Reads.accept (starts_mark rfl _))).bind
      ((Reads.gap rfl (hvalue (Nat.lt_succ_self _) hrest.1)).bind (.pure _ rest))

theorem avoids_default (defaultValue : Option String) {words : List String} {rest : List Char}
    (hwords : ∀ w ∈ words, ['='] ≠ w.toList) (hrest : Avoids words rest) :
    Avoids words ((defaultText defaultValue).toList ++ rest) := by
  cases defaultValue with
  | none => exact hrest
  | some text =>
    rw [defaultText, String.toList_append, List.append_assoc]
    exact avoids_gap rfl hwords

theorem toList_inputPrint (v : InputValue) (cs : List Char) :
    v.print.toList ++ cs = v.name.toList ++ ':' :: ' ' ::
      (v.type.render.toList ++ ((defaultText v.defaultValue).toList ++
        ((Directive.printAll v.directives).toList ++ cs))) := by
  show (v.name ++ ": " ++ v.type.render ++ defaultText v.defaultValue ++
    Directive.printAll v.directives).toList ++ cs = _
  simp only [String.toList_append, List.append_assoc]
  rfl

include hfloats in
theorem legible_inputBody {v : InputValue} (hv : v.Permitted allowed n) :
    Legible Parser.isName (fun _ => inputBody v.description) v.print.toList v
      (Avoids entryMarks) := by
  obtain ⟨t, usedType, -, htype⟩ := legible_type hv.type.isProper
  obtain ⟨usedDefault, hdefault⟩ := reads_default hfloats hv.defaultValue
  obtain ⟨usedDirectives, hdirectives⟩ := reads_directives hfloats hv.directives
  refine ⟨.name v.name, [Token.punctuator ':'] ++ (t :: usedType ++ (usedDefault ++
    (usedDirectives ++ []))), rfl, fun {n rest} hn hrest => ?_⟩
  have hbehind : Avoids ["!", "="] ((Directive.printAll v.directives).toList ++ rest) :=
    avoids_directives _ (by decide) (hrest.mono (by decide))
  have hexclaim : Avoids ["!"] ((defaultText v.defaultValue).toList ++
      ((Directive.printAll v.directives).toList ++ rest)) :=
    avoids_default _ (by decide) (hbehind.mono (by decide))
  rw [toList_inputPrint]
  unfold inputBody
  exact (Reads.name hv.name (bounded_cons rfl _)).bind ((Reads.mark rfl _).bind
    ((Reads.gap rfl (htype (Nat.lt_succ_self _) hexclaim)).bind
      ((hdefault (hbehind.mono (by decide))).bind
        ((hdirectives (hrest.mono (by decide))).bind (.pure _ rest)))))

theorem toList_printDescription (indent : String) (description : Option String) :
    (printDescription indent description).toList = described indent.toList '\n' description := by
  cases description with
  | none => rfl
  | some s =>
    show (indent ++ Quoted.quote s ++ "\n").toList = _
    rw [String.toList_append, String.toList_append, List.append_assoc]
    rfl

theorem toList_printArgument (v : InputValue) :
    v.printArgument.toList = described [] ' ' v.description ++ v.print.toList := by
  unfold InputValue.printArgument described
  cases v.description with
  | none => rfl
  | some s => simp [String.toList_append]

/-- The text of an entry on a line of its own. -/
def indented (description : Option String) (text : List Char) : List Char :=
  described Definition.indent.toList '\n' description ++ (Definition.indent.toList ++ text)

theorem indent_isGap : ∀ c ∈ Definition.indent.toList, isGap c = true :=
  List.all_eq_true.mp rfl

theorem toList_printField (v : InputValue) :
    v.printField.toList = indented v.description v.print.toList := by
  rw [InputValue.printField, String.toList_append, String.toList_append, toList_printDescription,
    List.append_assoc]
  rfl

theorem leads_inputPrint {v : InputValue} (hv : v.Permitted allowed n) (cs : List Char) :
    LeadsName (v.print.toList ++ cs) := by
  rw [toList_inputPrint]
  exact ⟨v.name, hv.name, lead_name hv.name (bounded_cons rfl _)⟩

theorem leads_indented {description : Option String} {text cs : List Char}
    (h : LeadsName (text ++ cs)) : LeadsEntry (indented description text ++ cs) := by
  rw [indented, List.append_assoc, List.append_assoc]
  apply leads_described indent_isGap
  rw [LeadsName, lead_blanks indent_isGap]
  exact h

include hfloats in
theorem legible_argument {v : InputValue} (hv : v.Permitted allowed n) :
    Legible Parser.isNameOrString (fun _ => inputValue) v.printArgument.toList v
      (Avoids entryMarks) := by
  rw [toList_printArgument, inputValue_eq]
  exact legible_described (by simp) rfl (legible_inputBody hfloats hv)

include hfloats in
theorem legible_inputField {v : InputValue} (hv : v.Permitted allowed n) :
    Legible Parser.isNameOrString (fun _ => inputValue) v.printField.toList v
      (Avoids entryMarks) := by
  rw [toList_printField, inputValue_eq]
  exact legible_described indent_isGap rfl ((legible_inputBody hfloats hv).gap indent_isGap)

/-- Reads a field behind its description. -/
def fieldBody (description : Option String) : Parser Field := do
  let key ← Parser.name
  let taken ← arguments
  Parser.mark ':'
  let t ← type
  let applied ← directives
  pure ⟨key, description, taken, t, applied⟩

theorem field_eq : field = Parser.string? >>= fieldBody := rfl

/-- The text of a field without its description. -/
def fieldText (f : Field) : List Char :=
  f.name.toList ++ ((parenthesized InputValue.printArgument f.arguments).toList ++ ':' :: ' ' ::
    (f.type.render.toList ++ (Directive.printAll f.directives).toList))

theorem toList_fieldPrint (f : Field) : f.print.toList = indented f.description (fieldText f) := by
  show (printDescription Definition.indent f.description ++ Definition.indent ++ f.name ++
    parenthesized InputValue.printArgument f.arguments ++ ": " ++ f.type.render ++
      Directive.printAll f.directives).toList = _
  simp only [String.toList_append, List.append_assoc, toList_printDescription]
  rfl

include hfloats in
theorem legible_fieldBody {f : Field} (hf : f.Permitted allowed n) :
    Legible Parser.isName (fun _ => fieldBody f.description) (fieldText f) f
      (Avoids entryMarks) := by
  obtain ⟨t, usedType, -, htype⟩ := legible_type hf.type.isProper
  obtain ⟨usedDirectives, hdirectives⟩ := reads_directives hfloats hf.directives
  obtain ⟨usedArguments, harguments⟩ := reads_parenthesized rfl (by decide)
    (fun a ha => legible_argument hfloats (hf.arguments a ha)) fun a ha cs _ => by
      rw [toList_printArgument, List.append_assoc]
      exact (leads_described (by simp) (leads_inputPrint (hf.arguments a ha) cs)).ne
  refine ⟨.name f.name, usedArguments ++ ([Token.punctuator ':'] ++ (t :: usedType ++
    (usedDirectives ++ []))), rfl, fun {n rest} hn hrest => ?_⟩
  have hdirectivesText : Avoids ["!"] ((Directive.printAll f.directives).toList ++ rest) :=
    avoids_directives _ (by decide) (hrest.mono (by decide))
  have hcolon (cs : List Char) : lead (':' :: cs) ≠ ['('] := by
    rw [lead_mark rfl]
    decide
  have hname (cs : List Char) := bounded_parenthesized InputValue.printArgument f.arguments
    (show Bounded (':' :: cs) from bounded_cons rfl cs)
  simp only [fieldText, List.append_assoc, List.cons_append]
  unfold fieldBody
  exact (Reads.name hf.name (hname _)).bind ((harguments (hcolon _)).bind
    ((Reads.mark rfl _).bind ((Reads.gap rfl (htype (Nat.lt_succ_self _) hdirectivesText)).bind
      ((hdirectives (hrest.mono (by decide))).bind (.pure _ rest)))))

include hfloats in
theorem legible_field {f : Field} (hf : f.Permitted allowed n) :
    Legible Parser.isNameOrString (fun _ => field) f.print.toList f (Avoids entryMarks) := by
  rw [toList_fieldPrint, field_eq]
  exact legible_described indent_isGap rfl ((legible_fieldBody hfloats hf).gap indent_isGap)

theorem leads_field {f : Field} (hf : f.Permitted allowed n) (cs : List Char) :
    LeadsEntry (f.print.toList ++ cs) := by
  rw [toList_fieldPrint]
  refine leads_indented ⟨f.name, hf.name, ?_⟩
  simp only [fieldText, List.append_assoc, List.cons_append]
  exact lead_name hf.name (bounded_parenthesized _ _ (bounded_cons rfl _))

/-- Reads a value of an enum behind its description. -/
def enumBody (description : Option String) : Parser EnumValue := do
  let key ← Parser.name
  let applied ← directives
  pure ⟨key, description, applied⟩

theorem enumValue_eq : enumValue = Parser.string? >>= enumBody := rfl

theorem toList_enumPrint (v : EnumValue) : v.print.toList =
    indented v.description (v.name.toList ++ (Directive.printAll v.directives).toList) := by
  rw [EnumValue.print]
  simp only [String.toList_append, List.append_assoc, toList_printDescription]
  rfl

include hfloats in
theorem legible_enumValue {v : EnumValue} (hv : v.Permitted allowed n) :
    Legible Parser.isNameOrString (fun _ => enumValue) v.print.toList v (Avoids entryMarks) := by
  obtain ⟨used, hdirectives⟩ := reads_directives hfloats hv.directives
  have hbody : Legible Parser.isName (fun _ => enumBody v.description)
      (v.name.toList ++ (Directive.printAll v.directives).toList) v (Avoids entryMarks) := by
    refine ⟨.name v.name, used ++ [], rfl, fun {n rest} hn hrest => ?_⟩
    rw [List.append_assoc]
    exact (Reads.name hv.name (bounded_directives _ hrest.1)).bind
      ((hdirectives (hrest.mono (by decide))).bind (.pure _ rest))
  rw [toList_enumPrint, enumValue_eq]
  exact legible_described indent_isGap rfl (hbody.gap indent_isGap)

theorem leads_enumValue {v : EnumValue} (hv : v.Permitted allowed n) {cs : List Char}
    (hcs : Bounded cs) : LeadsEntry (v.print.toList ++ cs) := by
  rw [toList_enumPrint]
  refine leads_indented ⟨v.name, hv.name, ?_⟩
  rw [List.append_assoc]
  exact lead_name hv.name (bounded_directives _ hcs)

end Grammar

end Sdl

end GraphSchema
