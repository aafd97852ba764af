import GraphSchema.Proofs.Sdl.Entries

/-!
# Printing and reading back

The text that is printed for a well-formed document is read as this document, and nothing in it is
skipped, if its brackets are not deeper than a lexer follows.
-/

namespace GraphSchema

namespace Sdl

/-- What goes on with a definition. -/
def definitionMarks : List String := ["!", "(", "=", "@", "\x7b", "|", "&", "implements"]

/-- The keywords that introduce the definition of a type. -/
def typeKeywords : List String := ["scalar", "type", "interface", "union", "enum", "input"]

theorem isName_typeKeyword : ∀ s ∈ typeKeywords, IsName s := by decide

theorem keyword_mem (d : Definition) : d.keyword ∈ typeKeywords := by
  unfold Definition.keyword typeKeywords
  cases d.body <;> simp

theorem name_ne_mark {s : String} (hs : IsName s) {c : Char}
    (hc : Token.isPunctuator c = true) : s.toList ≠ [c] := by
  have h := lead_name_ne hs hc bounded_nil
  rwa [List.append_nil, ← List.append_nil s.toList, lead_name hs bounded_nil] at h

namespace Grammar

/-- Names with a mark between them, which may also stand before the first one, behind a blank. -/
theorem reads_separated {c : Char} (hc : Token.isPunctuator c = true) {x : String}
    {xs : List String} (h : ∀ s ∈ x :: xs, IsName s) :
    ∃ used, ∀ {rest : List Char}, Avoids [String.singleton c] rest →
      Reads used (do let _ ← Parser.accept (.punctuator c); Parser.separated c Parser.name)
        (' ' :: ([' ', c, ' '].intercalate ((x :: xs).map String.toList) ++ rest)) (x :: xs)
        rest := by
  obtain ⟨t, used, -, hread⟩ := legible_separated hc h
  refine ⟨[] ++ (t :: used), fun {rest} hrest => ?_⟩
  -- The printer puts no mark before the first name, and a name is not taken for one.
  have hlead : lead (' ' :: ([' ', c, ' '].intercalate ((x :: xs).map String.toList) ++ rest)) ≠
      [c] := by
    rw [lead_gap rfl, lead_separated (h x (by simp)) xs hrest.1]
    exact name_ne_mark (h x (by simp)) hc
  exact (Reads.not_accept hlead).bind (.gap rfl (hread (Nat.lt_succ_self _) hrest))

theorem reads_implements {interfaces : List String} (h : ∀ s ∈ interfaces, IsName s) :
    ∃ used, ∀ {rest : List Char}, Avoids ["&", "implements"] rest →
      Reads used implements ((Definition.printInterfaces interfaces).toList ++ rest) interfaces
        rest := by
  cases interfaces with
  | nil =>
    refine ⟨[], fun hrest => ?_⟩
    exact (Reads.not_accept (hrest.2 "implements" (by decide))).bind (.pure [] _)
  | cons x xs =>
    obtain ⟨used, hread⟩ := reads_separated (show Token.isPunctuator '&' = true by rfl) h
    refine ⟨[Token.name "implements"] ++ used, fun {rest} hrest => ?_⟩
    have htext : (Definition.printInterfaces (x :: xs)).toList ++ rest =
        ' ' :: ("implements".toList ++
          ' ' :: ([' ', '&', ' '].intercalate ((x :: xs).map String.toList) ++ rest)) := by
      show (" implements " ++ " & ".intercalate (x :: xs)).toList ++ rest = _
      rw [String.toList_append, String.toList_intercalate, List.append_assoc]
      rfl
    rw [htext]
    unfold implements
    refine .gap rfl ((Reads.accept (starts_word (.name (by decide)) (bounded_cons rfl _))).bind ?_)
    exact hread (hrest.mono (by decide))

theorem reads_unionMembers {members : List String} (h : ∀ s ∈ members, IsName s) :
    ∃ used, ∀ {rest : List Char}, Avoids ["=", "|"] rest →
      Reads used unionMembers ((Definition.Body.union members).printTail.toList ++ rest) members
        rest := by
  cases members with
  | nil =>
    refine ⟨[], fun hrest => ?_⟩
    exact (Reads.not_accept (hrest.2 "=" (by decide))).bind (.pure [] _)
  | cons x xs =>
    obtain ⟨used, hread⟩ := reads_separated (show Token.isPunctuator '|' = true by rfl) h
    refine ⟨[Token.punctuator '='] ++ used, fun {rest} hrest => ?_⟩
    have htext : (Definition.Body.union (x :: xs)).printTail.toList ++ rest =
        ' ' :: '=' :: ' ' ::
          ([' ', '|', ' '].intercalate ((x :: xs).map String.toList) ++ rest) := by
      show (" = " ++ " | ".intercalate (x :: xs)).toList ++ rest = _
      rw [String.toList_append, String.toList_intercalate, List.append_assoc]
      rfl
    rw [htext]
    unfold unionMembers
    exact .gap rfl ((Reads.accept (starts_mark rfl _)).bind (hread (hrest.mono (by decide))))

section Texts

variable {words : List String} {rest : List Char}

theorem avoids_block {α : Type} (write : α → String) (xs : List α)
    (hwords : ∀ w ∈ words, ['\x7b'] ≠ w.toList) (hrest : Avoids words rest) :
    Avoids words ((Definition.printBlock (xs.map write)).toList ++ rest) := by
  cases xs with
  | nil => exact hrest
  | cons x xs =>
    show Avoids words ((" \x7b\n" ++ _ ++ "\x7d").toList ++ rest)
    rw [String.toList_append, String.toList_append, List.append_assoc, List.append_assoc]
    apply avoids_gap rfl
    intro w hw
    exact hwords w hw

theorem bounded_interfaces (interfaces : List String) (hrest : Bounded rest) :
    Bounded ((Definition.printInterfaces interfaces).toList ++ rest) := by
  cases interfaces with
  | nil => exact hrest
  | cons x xs =>
    show Bounded ((" implements " ++ _).toList ++ rest)
    rw [String.toList_append, List.append_assoc]
    exact bounded_cons rfl _

theorem avoids_members (members : List String) (hwords : ∀ w ∈ words, ['='] ≠ w.toList)
    (hrest : Avoids words rest) :
    Avoids words ((Definition.Body.union members).printTail.toList ++ rest) := by
  cases members with
  | nil => exact hrest
  | cons x xs =>
    show Avoids words ((" = " ++ _).toList ++ rest)
    rw [String.toList_append, List.append_assoc]
    exact avoids_gap rfl hwords

end Texts

theorem toList_definitionPrint (d : Definition) (cs : List Char) :
    (d.keyword ++ " " ++ d.name ++ d.body.printHead ++ Directive.printAll d.directives ++
      d.body.printTail).toList ++ cs = d.keyword.toList ++ ' ' :: (d.name.toList ++
        (d.body.printHead.toList ++ ((Directive.printAll d.directives).toList ++
          (d.body.printTail.toList ++ cs)))) := by
  simp only [String.toList_append, List.append_assoc]
  rfl

section Definitions

variable {name : String} {description : Option String} {applied : List Directive}
  {allowed : Allowance} (hfloats : allowed.IsReadable)

include hfloats

/-- A definition with interfaces and fields, behind its keyword. -/
theorem reads_fieldsDefinition (hname : IsName name)
    (happlied : ∀ d ∈ applied, d.Permitted allowed 0)
    {interfaces : List String} (hinterfaces : ∀ s ∈ interfaces, IsName s) {fields : List Field}
    (hfields : ∀ f ∈ fields, f.Permitted allowed 1)
    (make : List String → List Field → Definition.Body) :
    ∃ used, ∀ {rest : List Char}, Avoids definitionMarks rest →
      Reads used (do
          let key ← Parser.name
          let interfaces ← implements
          let applied ← directives
          let fields ← block field
          pure ⟨key, description, applied, make interfaces fields⟩ : Parser Definition)
        (name.toList ++ ((Definition.printInterfaces interfaces).toList ++
          ((Directive.printAll applied).toList ++
            ((Definition.printBlock (fields.map Field.print)).toList ++ rest))))
        ⟨name, description, applied, make interfaces fields⟩ rest := by
  obtain ⟨usedInterfaces, hreadInterfaces⟩ := reads_implements hinterfaces
  obtain ⟨usedDirectives, hreadDirectives⟩ := reads_directives hfloats happlied
  obtain ⟨usedFields, hreadFields⟩ :=
    reads_block rfl (fun f hf => legible_field hfloats (hfields f hf))
      (fun f hf cs _ => (leads_field (hfields f hf) cs).ne) (by decide)
  refine ⟨[Token.name name] ++ (usedInterfaces ++ (usedDirectives ++ (usedFields ++ []))),
    fun {rest} hrest => ?_⟩
  have hblock : Avoids ["@", "(", "&", "implements"]
      ((Definition.printBlock (fields.map Field.print)).toList ++ rest) :=
    avoids_block _ _ (by decide) (hrest.mono (by decide))
  have hdirectives : Avoids ["&", "implements"] ((Directive.printAll applied).toList ++
      ((Definition.printBlock (fields.map Field.print)).toList ++ rest)) :=
    avoids_directives _ (by decide) (hblock.mono (by decide))
  have hhead := bounded_interfaces interfaces hdirectives.1
  exact (Reads.name hname hhead).bind ((hreadInterfaces hdirectives).bind
    ((hreadDirectives (hblock.mono (by decide))).bind
      ((hreadFields (hrest.2 "\x7b" (by decide))).bind (.pure _ rest))))

/-- A definition with a body of entries and no interfaces, behind its keyword. -/
theorem reads_entriesDefinition {α : Type} {item : Parser α} {write : α → String} {xs : List α}
    (hname : IsName name) (happlied : ∀ d ∈ applied, d.Permitted allowed 0)
    (hitem : ∀ x ∈ xs,
      Legible Parser.isNameOrString (fun _ => item) (write x).toList x (Avoids entryMarks))
    (hlead : ∀ x ∈ xs, ∀ cs, Bounded cs → LeadsEntry ((write x).toList ++ cs))
    (make : List α → Definition.Body) :
    ∃ used, ∀ {rest : List Char}, Avoids definitionMarks rest →
      Reads used (do
          let key ← Parser.name
          let applied ← directives
          let xs ← block item
          pure ⟨key, description, applied, make xs⟩ : Parser Definition)
        (name.toList ++ ((Directive.printAll applied).toList ++
          ((Definition.printBlock (xs.map write)).toList ++ rest)))
        ⟨name, description, applied, make xs⟩ rest := by
  obtain ⟨usedDirectives, hreadDirectives⟩ := reads_directives hfloats happlied
  obtain ⟨usedEntries, hreadEntries⟩ := reads_block rfl hitem
    (fun x hx cs hcs => (hlead x hx cs hcs).ne) (by decide)
  refine ⟨[Token.name name] ++ (usedDirectives ++ (usedEntries ++ [])), fun {rest} hrest => ?_⟩
  have hblock : Avoids ["@", "("] ((Definition.printBlock (xs.map write)).toList ++ rest) :=
    avoids_block _ _ (by decide) (hrest.mono (by decide))
  exact (Reads.name hname (bounded_directives _ hblock.1)).bind ((hreadDirectives hblock).bind
    ((hreadEntries (hrest.2 "\x7b" (by decide))).bind (.pure _ rest)))

/-- A scalar, behind its keyword. -/
theorem reads_scalarDefinition (hname : IsName name)
    (happlied : ∀ d ∈ applied, d.Permitted allowed 0) :
    ∃ used, ∀ {rest : List Char}, Avoids definitionMarks rest →
      Reads used (do
          let key ← Parser.name
          let applied ← directives
          pure ⟨key, description, applied, .scalar⟩ : Parser Definition)
        (name.toList ++ ((Directive.printAll applied).toList ++ rest))
        ⟨name, description, applied, .scalar⟩ rest := by
  obtain ⟨usedDirectives, hreadDirectives⟩ := reads_directives hfloats happlied
  refine ⟨[Token.name name] ++ (usedDirectives ++ []), fun {rest} hrest => ?_⟩
  exact (Reads.name hname (bounded_directives _ hrest.1)).bind
    ((hreadDirectives (hrest.mono (by decide))).bind (.pure _ rest))

/-- A union, behind its keyword. -/
theorem reads_unionDefinition (hname : IsName name)
    (happlied : ∀ d ∈ applied, d.Permitted allowed 0) {members : List String}
    (hmembers : ∀ s ∈ members, IsName s) :
    ∃ used, ∀ {rest : List Char}, Avoids definitionMarks rest →
      Reads used (do
          let key ← Parser.name
          let applied ← directives
          let members ← unionMembers
          pure ⟨key, description, applied, .union members⟩ : Parser Definition)
        (name.toList ++ ((Directive.printAll applied).toList ++
          ((Definition.Body.union members).printTail.toList ++ rest)))
        ⟨name, description, applied, .union members⟩ rest := by
  obtain ⟨usedDirectives, hreadDirectives⟩ := reads_directives hfloats happlied
  obtain ⟨usedMembers, hreadMembers⟩ := reads_unionMembers hmembers
  refine ⟨[Token.name name] ++ (usedDirectives ++ (usedMembers ++ [])), fun {rest} hrest => ?_⟩
  have htail : Avoids ["@", "("] ((Definition.Body.union members).printTail.toList ++ rest) :=
    avoids_members members (by decide) (hrest.mono (by decide))
  exact (Reads.name hname (bounded_directives _ htail.1)).bind ((hreadDirectives htail).bind
    ((hreadMembers (hrest.mono (by decide))).bind (.pure _ rest)))

theorem legible_typeDefinition {d : Definition} (hd : d.Permitted allowed) :
    Legible (fun t => typeKeywords.any (t == .name ·)) (fun _ => typeDefinition d.description)
      (d.keyword ++ " " ++ d.name ++ d.body.printHead ++ Directive.printAll d.directives ++
        d.body.printTail).toList d (Avoids definitionMarks) := by
  obtain ⟨hname, happlied, hbody⟩ := hd
  obtain ⟨name, description, applied, body⟩ := d
  have hkeyword (cs : List Char) {s : String} (hs : s ∈ typeKeywords) :
      Reads [.name s] Parser.skip (s.toList ++ ' ' :: cs) () (' ' :: cs) :=
    .skip (starts_word (.name (isName_typeKeyword s hs)) (bounded_cons rfl _))
  cases body with
  | scalar =>
    obtain ⟨used, hread⟩ := reads_scalarDefinition hfloats hname happlied
    refine ⟨.name "scalar", used, rfl, fun {n rest} _ hrest => ?_⟩
    rw [toList_definitionPrint]
    exact .peek ((hkeyword _ (by decide)).bind (.gap rfl (hread hrest)))
  | object interfaces fields =>
    obtain ⟨used, hread⟩ := reads_fieldsDefinition hfloats hname happlied hbody.1 hbody.2 .object
    refine ⟨.name "type", used, rfl, fun {n rest} _ hrest => ?_⟩
    rw [toList_definitionPrint]
    exact .peek ((hkeyword _ (by decide)).bind (.gap rfl (hread hrest)))
  | interface interfaces fields =>
    obtain ⟨used, hread⟩ := reads_fieldsDefinition hfloats hname happlied hbody.1 hbody.2 .interface
    refine ⟨.name "interface", used, rfl, fun {n rest} _ hrest => ?_⟩
    rw [toList_definitionPrint]
    exact .peek ((hkeyword _ (by decide)).bind (.gap rfl (hread hrest)))
  | union members =>
    obtain ⟨used, hread⟩ := reads_unionDefinition hfloats hname happlied hbody
    refine ⟨.name "union", used, rfl, fun {n rest} _ hrest => ?_⟩
    rw [toList_definitionPrint]
    exact .peek ((hkeyword _ (by decide)).bind (.gap rfl (hread hrest)))
  | enum values =>
    obtain ⟨used, hread⟩ := reads_entriesDefinition hfloats hname happlied
      (fun v hv => legible_enumValue hfloats (hbody v hv))
      (fun v hv _ => leads_enumValue (hbody v hv)) .enum
    refine ⟨.name "enum", used, rfl, fun {n rest} _ hrest => ?_⟩
    rw [toList_definitionPrint]
    exact .peek ((hkeyword _ (by decide)).bind (.gap rfl (hread hrest)))
  | inputObject fields =>
    have hlead : ∀ v ∈ fields, ∀ cs, Bounded cs → LeadsEntry (v.printField.toList ++ cs) := by
      intro v hv cs _
      rw [toList_printField]
      exact leads_indented (leads_inputPrint (hbody v hv) cs)
    obtain ⟨used, hread⟩ := reads_entriesDefinition hfloats hname happlied
      (fun v hv => legible_inputField hfloats (hbody v hv)) hlead .inputObject
    refine ⟨.name "input", used, rfl, fun {n rest} _ hrest => ?_⟩
    rw [toList_definitionPrint]
    exact .peek ((hkeyword _ (by decide)).bind (.gap rfl (hread hrest)))

end Definitions

/-- Reads a definition behind its description. -/
def entryBody (description : Option String) : Parser Entry := do
  match ← Parser.peek with
  | some (.name "directive") => .skipped <$> directiveDefinition
  | _ => .definition <$> typeDefinition description

theorem reads_entryBody {description : Option String} {d : Definition} {t : Token}
    {used : List Token} {cs rest : List Char} (ht : typeKeywords.any (t == .name ·) = true)
    (h : Reads (t :: used) (typeDefinition description) cs d rest) :
    Reads (t :: used) (entryBody description) cs (.definition d) rest := by
  have hread := h.map Entry.definition
  simp only [typeKeywords, List.any_cons, List.any_nil, Bool.or_false, Bool.or_eq_true,
    beq_iff_eq] at ht
  rcases ht with rfl | rfl | rfl | rfl | rfl | rfl <;> exact .peek hread

theorem legible_entry {allowed : Allowance} (hfloats : allowed.IsReadable) {d : Definition}
    (hd : d.Permitted allowed) :
    Legible (fun _ => true) (fun _ => entry) d.print.toList (.definition d)
      (Avoids definitionMarks) := by
  obtain ⟨t, used, ht, hread⟩ := legible_typeDefinition hfloats hd
  have htext : d.print.toList = described [] '\n' d.description ++
      (d.keyword ++ " " ++ d.name ++ d.body.printHead ++ Directive.printAll d.directives ++
        d.body.printTail).toList := by
    simp only [Definition.print, String.toList_append, toList_printDescription, List.append_assoc]
    rfl
  rw [htext]
  cases hdescription : d.description with
  | none =>
    rw [hdescription] at hread
    refine ⟨t, used, rfl, fun {n rest} _ hrest => ?_⟩
    have hbody := reads_entryBody ht (hread (Nat.lt_succ_self _) hrest)
    simp only [typeKeywords, List.any_cons, List.any_nil, Bool.or_false, Bool.or_eq_true,
      beq_iff_eq] at ht
    rcases ht with rfl | rfl | rfl | rfl | rfl | rfl <;> exact .peek (.no_string rfl hbody)
  | some s =>
    rw [hdescription] at hread
    refine ⟨.string s, t :: used, rfl, fun {n rest} _ hrest => ?_⟩
    have hbody := reads_entryBody ht (hread (Nat.lt_succ_self _) hrest)
    simp only [described, Option.elim_some, List.nil_append, List.append_assoc]
    exact .peek ((Reads.string s (bounded_cons rfl _)).bind (.gap rfl hbody))

theorem lead_definition (d : Definition) (cs : List Char) :
    lead (d.print.toList ++ cs) = ['"'] ∨ lead (d.print.toList ++ cs) = d.keyword.toList := by
  have hkeyword := isName_typeKeyword _ (keyword_mem d)
  simp only [Definition.print, String.toList_append, toList_printDescription, List.append_assoc]
  cases d.description with
  | none => exact .inr (lead_name hkeyword (bounded_cons rfl _))
  | some s =>
    left
    simp only [described, Option.elim_some, String.toList_empty, List.nil_append,
      Quoted.quote_append]
    exact lead_quote _

theorem avoids_definition (d : Definition) (cs : List Char) :
    Avoids definitionMarks (['\n', '\n'] ++ d.print.toList ++ cs) := by
  apply avoids_gap rfl
  intro w hw
  show lead ('\n' :: (d.print.toList ++ cs)) ≠ w.toList
  rw [lead_gap rfl]
  rcases lead_definition d cs with h | h
  · rw [h]
    revert w
    decide
  · have hmarks : ∀ s ∈ typeKeywords, ∀ w ∈ definitionMarks, s.toList ≠ w.toList := by decide
    rw [h]
    exact hmarks _ (keyword_mem d) w hw

theorem toList_documentPrint (x : Definition) (xs : List Definition) :
    (Document.print ⟨x :: xs⟩).toList =
      ['\n', '\n'].intercalate ((x :: xs).map fun y => y.print.toList) ++ ['\n'] := by
  have hnonempty : ("\n\n".intercalate ((x :: xs).map Definition.print)).isEmpty = false := by
    have hprint : x.print.toList ≠ [] := by simp [Definition.print, String.toList_append]
    rw [Bool.eq_false_iff]
    intro h
    rw [String.isEmpty_iff] at h
    have hlist := congrArg String.toList h
    rw [toList_intercalate_map, List.map_cons, intercalate_cons] at hlist
    exact hprint (List.append_eq_nil_iff.mp hlist).1
  simp only [Document.print, hnonempty, Bool.false_eq_true, ↓reduceIte, String.toList_append,
    toList_intercalate_map]
  rfl

theorem legible_definitions {allowed : Allowance} (hfloats : allowed.IsReadable)
    {definitions : List Definition} (hne : definitions ≠ [])
    (h : ∀ x ∈ definitions, x.Permitted allowed) :
    ∃ used, Reads used document (Document.print ⟨definitions⟩).toList
      (definitions.map .definition) ['\n'] := by
  cases definitions with
  | nil => exact absurd rfl hne
  | cons x xs =>
    have htext := toList_documentPrint x xs
    obtain ⟨t, used, -, hread⟩ := legible_oneOrMore
      (show ∀ c ∈ ['\n', '\n'], isGap c = true by simp [isGap])
      (fun y hy => legible_entry hfloats (h y hy)) fun y _ cs _ => avoids_definition y cs
    have hend : Avoids definitionMarks ['\n'] := avoids_gap rfl (by decide)
    rw [htext]
    exact ⟨t :: used, hread (Nat.lt_succ_self _) ⟨hend, stops_nil rfl⟩⟩

theorem legible_document {d : Document} (hd : d.WellFormed) :
    ∃ used, Reads used document d.print.toList (d.definitions.map .definition) ['\n'] :=
  legible_definitions Allowance.isReadable_plain hd.nonempty fun x hx =>
    (hd.definitions x hx).permitted

end Grammar

namespace Parsed

theorem ofEntries_definitions (definitions : List Definition) :
    ofEntries (definitions.map .definition) = ⟨⟨definitions⟩, []⟩ := by
  unfold ofEntries
  rw [List.filterMap_map, List.filterMap_map]
  show (⟨⟨definitions.filterMap some⟩, definitions.filterMap fun _ => none⟩ : Parsed) = _
  rw [List.filterMap_some, List.filterMap_eq_nil_iff.mpr fun _ _ => rfl]

theorem ofText_of_reads {text : String} {definitions : List Definition} {used : List Token}
    (hread : Reads used Grammar.document text.toList (definitions.map .definition) ['\n'])
    (hpeak : bracketPeak text ≤ Lexed.bracketLimit) : ofText text = .ok ⟨⟨definitions⟩, []⟩ := by
  -- The text spells the tokens that are read, and the lexer gives those that it spells.
  have hspells := hread.spells (.gap rfl .nil)
  obtain ⟨htokens, hcomplete⟩ := Lexed.ofText_spells hspells hpeak
  rw [List.append_nil] at htokens
  have hrun := hread.runs (.gap rfl .nil) htokens (List.map_nil (f := fun l : Located => l.token))
  rw [List.append_nil] at hrun
  simp only [ofText, hrun, hcomplete, ↓reduceIte, ofEntries_definitions]

/-- Reading undoes printing: a well-formed document whose text has at most fifty brackets open at
once is read from its text as it is, and nothing is skipped. -/
theorem ofText_print {d : Document} (hd : d.WellFormed) (hpeak : bracketPeak d.print ≤ 50) :
    ofText d.print = .ok ⟨d, []⟩ := by
  obtain ⟨used, hread⟩ := Grammar.legible_document hd
  exact ofText_of_reads hread hpeak

/-- A document with an empty string next to quotes, an object without fields and a description. -/
def greetings : Document :=
  ⟨[⟨"Query", some "Says \"hi\".", [], .object [] [⟨"hello", none,
      [⟨"name", some "", .nonNull (.named "String"), some "\"\"", []⟩], .named "String", []⟩]⟩,
    ⟨"Empty", none, [⟨"tag", [⟨"with", "[$x, \x7b\x7d]"⟩]⟩], .object ["Node"] []⟩]⟩

theorem wellFormed_greetings : greetings.WellFormed := by
  have hvalue : IsValueText false "[$x, \x7b\x7d]" :=
    ⟨.list [.var "x", .object []], .list (by
      simp only [List.mem_cons, List.not_mem_nil, or_false, forall_eq_or_imp, forall_eq]
      exact ⟨.var rfl (by decide), .object (by simp) (by simp) (by simp)⟩), by decide⟩
  have htext : IsValueText true "\"\"" := ⟨.string "", .string "", by decide⟩
  have hargument : InputValue.WellFormed
      ⟨"name", some "", .nonNull (.named "String"), some "\"\"", []⟩ :=
    ⟨by decide, .nonNull rfl (.named (by decide)), by simpa using htext, by simp⟩
  have hfield : Field.WellFormed ⟨"hello", none,
      [⟨"name", some "", .nonNull (.named "String"), some "\"\"", []⟩], .named "String", []⟩ :=
    ⟨by decide, by simpa using hargument, .named (by decide), by simp⟩
  have hdirective : Directive.WellFormed ⟨"tag", [⟨"with", "[$x, \x7b\x7d]"⟩]⟩ :=
    ⟨by decide, by simp; decide, by simpa using hvalue⟩
  refine ⟨by simp [greetings], ?_⟩
  intro x hx
  simp only [greetings, List.mem_cons, List.not_mem_nil, or_false] at hx
  rcases hx with rfl | rfl
  · exact ⟨by decide, by simp, by simp, by simpa using hfield⟩
  · exact ⟨by decide, by simpa using hdirective, by simp; decide, by simp⟩

theorem ofText_print_greetings : greetings.WellFormed ∧ bracketPeak greetings.print ≤ 50 ∧
    ofText greetings.print = .ok ⟨greetings, []⟩ := by
  have hpeak : bracketPeak greetings.print ≤ 50 := by decide +kernel
  exact ⟨wellFormed_greetings, hpeak, ofText_print wellFormed_greetings hpeak⟩

end Parsed

end Sdl

end GraphSchema
