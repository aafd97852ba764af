import GraphSchema.Proofs.Sdl.RoundTrip
import GraphSchema.Proofs.Sdl.Telling
import GraphSchema.Proofs.Sdl.Yields

/-!
# What the grammar yields

Every rule of the grammar reads what its place permits: names are names, the texts of values are
those of permitted values, references are proper, and no more brackets are open than lexing follows.
-/

namespace GraphSchema

namespace Sdl

/-- What lexed text permits: floats of some kind, and no more brackets than lexing follows. -/
def Allowance.lexed (floats : Binary64 → Prop) : Allowance := ⟨floats, (· ≤ Lexed.bracketLimit)⟩

namespace Grammar

variable {floats : Binary64 → Prop} {n : Nat} {constant : Bool}

theorem yields_colon : Yields floats n (Parser.mark ':') (Closed (fun _ => True) n) :=
  .mark (by decide) (by decide)

/-- A value that a place permits, and that text can spell. -/
def SpelledAt (floats : Binary64 → Prop) (constant : Bool) (n : Nat) (v : Value) : Prop :=
  v.Permitted (.lexed floats) constant n ∧ v.Spelled

theorem yields_object {fuel : Nat} (hopened : n + 1 ≤ Lexed.bracketLimit)
    (h : Yields floats (n + 1) (valueWithin constant fuel)
      (Closed (SpelledAt floats constant (n + 1)) (n + 1))) :
    Yields floats (n + 1) (do
        let fields ← Parser.many Parser.isName do
          let k ← Parser.name
          Parser.mark ':'
          let v ← valueWithin constant fuel
          pure (k, v)
        Parser.mark '\x7d'
        pure (.ofFields fields))
      (Closed (SpelledAt floats constant n) n) := by
  have hfield : Yields floats (n + 1) (do
      let k ← Parser.name
      Parser.mark ':'
      let v ← valueWithin constant fuel
      pure (k, v))
      (Closed (fun f => IsName f.1 ∧ SpelledAt floats constant (n + 1) f.2) (n + 1)) :=
    .andThen .name fun _ hk => yields_colon.andThen fun _ _ => h.andThen fun _ hv =>
      .pure ⟨⟨hk, hv⟩, rfl⟩
  refine hfield.many.andThen fun fields hfields =>
    (Yields.close (.inr (.inr rfl))).andThen fun _ _ => ?_
  obtain ⟨hsorted, hmem⟩ := Text.byName_spec fields
  have hnames : ∀ f ∈ Text.byName fields, IsName f.1 := fun f hf => (hfields f (hmem f hf)).1
  have hvalues : ∀ f ∈ Text.byName fields, SpelledAt floats constant (n + 1) f.2 :=
    fun f hf => (hfields f (hmem f hf)).2
  exact .pure ⟨⟨.object hopened hnames hsorted fun f hf => (hvalues f hf).1,
    .object hnames fun f hf => (hvalues f hf).2⟩, rfl⟩

theorem yields_list {fuel : Nat} (hopened : n + 1 ≤ Lexed.bracketLimit)
    (h : Yields floats (n + 1) (valueWithin constant fuel)
      (Closed (SpelledAt floats constant (n + 1)) (n + 1))) :
    Yields floats (n + 1) (do
        let items ← Parser.many (· != .punctuator ']') (valueWithin constant fuel)
        Parser.mark ']'
        pure (.list items))
      (Closed (SpelledAt floats constant n) n) := by
  refine h.many.andThen fun items hitems =>
    (Yields.close (.inr (.inl rfl))).andThen fun _ _ => .pure ⟨⟨.list hopened ?_, .list ?_⟩, rfl⟩
  · exact fun v hv => (hitems v hv).1
  · exact fun v hv => (hitems v hv).2

/-- A name that is no value of its own is one of an enumeration. -/
theorem yields_word {s : String} (hs : IsName s) :
    Yields floats n (if s = "true" then pure (.boolean true)
        else if s = "false" then pure (.boolean false)
        else if s = "null" then pure .null
        else pure (.enum s) : Parser Value)
      (Closed (SpelledAt floats constant n) n) := by
  split_ifs with htrue hfalse hnull
  · exact .pure ⟨⟨.boolean true, .boolean true⟩, rfl⟩
  · exact .pure ⟨⟨.boolean false, .boolean false⟩, rfl⟩
  · exact .pure ⟨⟨.null, .null⟩, rfl⟩
  · have hfree : s ∉ Value.reserved := by simp [Value.reserved, htrue, hfalse, hnull]
    exact .pure ⟨⟨.enum hs, .enum hs hfree⟩, rfl⟩

theorem yields_valueWithin (fuel : Nat) : Yields floats n (valueWithin constant fuel)
    (Closed (SpelledAt floats constant n) n) := by
  induction fuel generalizing n with
  | zero => exact .failHere
  | succ fuel ih =>
    -- A literal opens no brackets.
    have hliteral {t : Token} {v : Value} (ht : ∀ m,
        t.bracketsAfter? Lexed.bracketLimit n = some m → m = n)
        (hv : SpelledAt floats constant n v) :
        YieldsAt floats n t (do Parser.skip; pure v) (Closed (SpelledAt floats constant n) n) :=
      .skip fun m hm => .pure ⟨ht m hm ▸ hv, ht m hm⟩
    refine .peek .failHere fun t ht => ?_
    split
    · next i heq =>
      obtain rfl := Option.some.inj heq
      exact hliteral (by simp [Token.bracketsAfter?]) ⟨.int ht, .int i⟩
    · next x heq =>
      obtain rfl := Option.some.inj heq
      exact hliteral (by simp [Token.bracketsAfter?]) ⟨.float ht, .float x⟩
    · next s heq =>
      obtain rfl := Option.some.inj heq
      exact hliteral (by simp [Token.bracketsAfter?]) ⟨.string s, .string s⟩
    · next s heq =>
      obtain rfl := Option.some.inj heq
      refine .skip fun m hm => ?_
      obtain rfl : n = m := Option.some.inj hm
      exact yields_word ht
    · next heq =>
      obtain rfl := Option.some.inj heq
      split
      · exact Yields.yieldsAt .failHere _
      · next hconstant =>
        refine .skip fun m hm => ?_
        obtain rfl : n = m := Option.some.inj hm
        exact Yields.name.map fun s m hs =>
          ⟨⟨.var (by simpa using hconstant) hs.1, .var hs.1⟩, hs.2⟩
    · next heq =>
      obtain rfl := Option.some.inj heq
      refine .skip fun m hm => ?_
      obtain ⟨rfl, hopened⟩ := bracketsAfter?_opening (by simp) hm
      exact yields_list hopened ih
    · next heq =>
      obtain rfl := Option.some.inj heq
      refine .skip fun m hm => ?_
      obtain ⟨rfl, hopened⟩ := bracketsAfter?_opening (by simp) hm
      exact yields_object hopened ih
    · exact Yields.yieldsAt .failHere t

theorem yields_spelled : Yields floats n (value constant)
    (Closed (SpelledAt floats constant n) n) :=
  fun _ _ _ hls hrun => yields_valueWithin _ hls hrun

theorem yields_value : Yields floats n (value constant)
    (Closed (Value.Permitted (.lexed floats) constant n) n) :=
  yields_spelled.mono fun _ _ hv => ⟨hv.1.1, hv.2⟩

theorem yields_typeWithin (fuel : Nat) : Yields floats n (typeWithin fuel)
    (Closed (TypeReference.Permitted (.lexed floats) n) n) := by
  induction fuel generalizing n with
  | zero => exact .failHere
  | succ fuel ih =>
    have hbare : Yields floats n (bareWithin (fuel + 1))
        (Closed (fun t => t.Permitted (.lexed floats) n ∧ t.isNonNull = false) n) := by
      refine .accept (fun m hm => ?_) ?_
      · obtain ⟨rfl, hopened⟩ := bracketsAfter?_opening (by simp) hm
        exact ih.andThen fun item hitem => (Yields.close (.inr (.inl rfl))).andThen fun _ _ =>
          .pure ⟨⟨.list hopened hitem, rfl⟩, rfl⟩
      · exact Yields.name.map fun s m hs => ⟨⟨.named hs.1, rfl⟩, hs.2⟩
    rw [typeWithin_succ]
    refine hbare.andThen fun t ht => .accept (fun m hm => ?_) (.pure ⟨ht.1, rfl⟩)
    obtain rfl : n = m := Option.some.inj hm
    exact .pure ⟨.nonNull ht.2 ht.1, rfl⟩

theorem yields_type :
    Yields floats n type (Closed (TypeReference.Permitted (.lexed floats) n) n) :=
  fun _ _ _ hls hrun => yields_typeWithin _ hls hrun

theorem yields_directiveArgument : Yields floats n directiveArgument
    (Closed (fun a => IsName a.name ∧ IsPermittedText (.lexed floats) false n a.value) n) :=
  .andThen .name fun _ hkey => yields_colon.andThen fun _ _ => yields_value.andThen fun v hv =>
    .pure ⟨⟨hkey, v, hv, rfl⟩, rfl⟩

theorem yields_directive :
    Yields floats n directive (Closed (Directive.Permitted (.lexed floats) n) n) := by
  refine (Yields.mark (by decide) (by decide)).andThen fun _ _ => Yields.name.andThen
    fun key hkey => ?_
  have harguments : Yields floats n (Parser.between '(' ')'
      (Parser.oneOrMore Parser.isName directiveArgument)) _ :=
    .between (by simp) (by simp) yields_directiveArgument.oneOrMore
  refine harguments.andThen fun _ hxs => .pure ⟨?_, rfl⟩
  exact ⟨hkey, hxs.1, fun a ha => (hxs.2 a ha).1, fun a ha => (hxs.2 a ha).2⟩

theorem yields_directives : Yields floats n directives
    (Closed (fun ds => ∀ d ∈ ds, d.Permitted (.lexed floats) n) n) :=
  yields_directive.many

theorem yields_default : Yields floats n defaultBody
    (Closed (fun d => ∀ text ∈ d, IsPermittedText (.lexed floats) true n text) n) := by
  refine .accept (fun m hm => ?_) (.pure ⟨by simp, rfl⟩)
  obtain rfl : n = m := Option.some.inj hm
  refine yields_value.andThen fun v hv => .pure ⟨?_, rfl⟩
  intro text htext
  obtain rfl := Option.some.inj htext
  exact ⟨v, hv, rfl⟩

theorem yields_inputValue :
    Yields floats n inputValue (Closed (InputValue.Permitted (.lexed floats) n) n) := by
  rw [inputValue_eq]
  refine Yields.string?.andThen fun description _ => Yields.name.andThen fun key hkey =>
    yields_colon.andThen fun _ _ => yields_type.andThen fun t ht =>
      yields_default.andThen fun defaultValue hdefault => yields_directives.andThen
        fun applied happlied => .pure ⟨?_, rfl⟩
  exact ⟨hkey, ht, hdefault, happlied⟩

theorem yields_arguments : Yields floats n arguments
    (Closed (fun xs => (xs ≠ [] → n + 1 ≤ Lexed.bracketLimit) ∧
      ∀ a ∈ xs, a.Permitted (.lexed floats) (n + 1)) n) :=
  .between (by simp) (by simp) yields_inputValue.oneOrMore

theorem yields_field : Yields floats n field (Closed (Field.Permitted (.lexed floats) n) n) := by
  refine Yields.string?.andThen fun description _ => Yields.name.andThen fun key hkey =>
    yields_arguments.andThen fun taken htaken => yields_colon.andThen fun _ _ =>
      yields_type.andThen fun t ht => yields_directives.andThen fun applied happlied =>
        .pure ⟨?_, rfl⟩
  exact ⟨hkey, htaken.1, htaken.2, ht, happlied⟩

theorem yields_enumValue :
    Yields floats n enumValue (Closed (EnumValue.Permitted (.lexed floats) n) n) := by
  refine Yields.string?.andThen fun _ _ => Yields.name.andThen fun _ hkey =>
    yields_directives.andThen fun _ happlied => .pure ⟨?_, rfl⟩
  exact ⟨hkey, happlied⟩

theorem yields_block {α : Type} {item : Parser α} {P : α → Prop}
    (h : Yields floats (n + 1) item (Closed P (n + 1))) :
    Yields floats n (block item) (Closed (fun xs => ∀ x ∈ xs, P x) n) :=
  (Yields.between (by simp) (by simp) h.oneOrMore).mono fun _ _ hxs => ⟨hxs.1.2, hxs.2⟩

/-- Names behind a token, which also may stand once before the first of them. -/
theorem yields_names {t : Token} {c : Char} (ht : ∀ m,
    t.bracketsAfter? Lexed.bracketLimit n = some m → m = n)
    (hopening : ¬(c = '(' ∨ c = '[' ∨ c = '\x7b'))
    (hclosing : ¬(c = ')' ∨ c = ']' ∨ c = '\x7d')) :
    Yields floats n (do
        if ← Parser.accept t then
          let _ ← Parser.accept (.punctuator c)
          Parser.separated c Parser.name
        else pure [])
      (Closed (fun xs => ∀ s ∈ xs, IsName s) n) := by
  have hnames : Yields floats n (Parser.separated c Parser.name)
      (Closed (fun xs => ∀ s ∈ xs, IsName s) n) := .separated hopening hclosing .name
  refine .accept (fun m hm => ?_) (.pure ⟨by simp, rfl⟩)
  obtain rfl := ht m hm
  refine .optional (fun k hk => ?_) hnames
  rw [Token.bracketsAfter?, if_neg hopening, if_neg hclosing] at hk
  exact (Option.some.inj hk).symm

theorem yields_implements :
    Yields floats n implements (Closed (fun xs => ∀ s ∈ xs, IsName s) n) :=
  yields_names (by simp [Token.bracketsAfter?]) (by decide) (by decide)

theorem yields_unionMembers :
    Yields floats n unionMembers (Closed (fun xs => ∀ s ∈ xs, IsName s) n) :=
  yields_names (by simp [Token.bracketsAfter?]) (by decide) (by decide)

/-- A definition with interfaces and fields, behind its keyword. -/
theorem yields_fieldsDefinition {description : Option String}
    {make : List String → List Field → Definition.Body}
    (hmake : ∀ interfaces fields, (∀ s ∈ interfaces, IsName s) ∧
      (∀ f ∈ fields, f.Permitted (.lexed floats) 1) →
        (make interfaces fields).Permitted (.lexed floats)) :
    Yields floats 0 (do
        let key ← Parser.name
        let interfaces ← implements
        let applied ← directives
        let fields ← block field
        pure ⟨key, description, applied, make interfaces fields⟩ : Parser Definition)
      (Closed (Definition.Permitted (.lexed floats)) 0) :=
  Yields.name.andThen fun _ hkey => yields_implements.andThen fun _ hinterfaces =>
    yields_directives.andThen fun _ happlied => (yields_block yields_field).andThen
      fun _ hfields => .pure ⟨⟨hkey, happlied, hmake _ _ ⟨hinterfaces, hfields⟩⟩, rfl⟩

/-- A definition with a body of entries and no interfaces, behind its keyword. -/
theorem yields_entriesDefinition {α : Type} {item : Parser α} {P : α → Prop}
    {description : Option String} {make : List α → Definition.Body}
    (hitem : Yields floats 1 item (Closed P 1))
    (hmake : ∀ xs, (∀ x ∈ xs, P x) → (make xs).Permitted (.lexed floats)) :
    Yields floats 0 (do
        let key ← Parser.name
        let applied ← directives
        let xs ← block item
        pure ⟨key, description, applied, make xs⟩ : Parser Definition)
      (Closed (Definition.Permitted (.lexed floats)) 0) :=
  Yields.name.andThen fun _ hkey => yields_directives.andThen fun _ happlied =>
    (yields_block hitem).andThen fun _ hxs => .pure ⟨⟨hkey, happlied, hmake _ hxs⟩, rfl⟩

theorem yields_typeDefinition (description : Option String) :
    Yields floats 0 (typeDefinition description)
      (Closed (Definition.Permitted (.lexed floats)) 0) := by
  have hkeyword {s : String} {p : Parser Definition}
      (h : Yields floats 0 p (Closed (Definition.Permitted (.lexed floats)) 0)) :
      YieldsAt floats 0 (.name s) (Parser.skip >>= fun _ => p)
        (Closed (Definition.Permitted (.lexed floats)) 0) := by
    refine .skip fun m hm => ?_
    obtain rfl : 0 = m := Option.some.inj hm
    exact h
  refine .peek .failHere fun t _ => ?_
  split
  · next heq =>
    obtain rfl := Option.some.inj heq
    exact hkeyword (Yields.name.andThen fun key hkey => yields_directives.andThen
      fun applied happlied => .pure ⟨⟨hkey, happlied, trivial⟩, rfl⟩)
  · next heq =>
    obtain rfl := Option.some.inj heq
    exact hkeyword (yields_fieldsDefinition fun _ _ hbody => hbody)
  · next heq =>
    obtain rfl := Option.some.inj heq
    exact hkeyword (yields_fieldsDefinition fun _ _ hbody => hbody)
  · next heq =>
    obtain rfl := Option.some.inj heq
    exact hkeyword (Yields.name.andThen fun key hkey => yields_directives.andThen
      fun applied happlied => yields_unionMembers.andThen fun members hmembers =>
        .pure ⟨⟨hkey, happlied, hmembers⟩, rfl⟩)
  · next heq =>
    obtain rfl := Option.some.inj heq
    exact hkeyword (yields_entriesDefinition yields_enumValue fun _ hbody => hbody)
  · next heq =>
    obtain rfl := Option.some.inj heq
    exact hkeyword (yields_entriesDefinition yields_inputValue fun _ hbody => hbody)
  · exact Yields.yieldsAt .failHere t

/-! What is skipped closes its brackets. -/

theorem yields_keyword (s : String) :
    Yields floats n (Parser.expect (.name s)) (Closed (fun _ => True) n) :=
  .mono .expect fun _ _ hm => ⟨trivial, (Option.some.inj hm).symm⟩

theorem yields_extension : Yields floats 0 extension (Closed (fun _ => True) 0) := by
  refine (yields_keyword _).andThen fun _ _ => Yields.position.andThen fun p _ =>
    (yields_typeDefinition none).andThen fun d _ => ?_
  split
  · exact .failAt p
  · exact .pure ⟨trivial, rfl⟩

theorem yields_schemaBlock : Yields floats n schemaBlock (Closed (fun _ => True) n) := by
  have hoperation : Yields floats (n + 1) (do
      let operation ← Parser.name
      Parser.mark ':'
      let _ ← Parser.name
      pure operation) (Closed (fun _ => True) (n + 1)) :=
    .andThen .name fun _ _ => yields_colon.andThen fun _ _ => Yields.name.andThen fun _ _ =>
      .pure ⟨trivial, rfl⟩
  refine Yields.position.andThen fun p _ => (yields_keyword _).andThen fun _ _ =>
    yields_directives.andThen fun _ _ => Yields.expect.bind fun _ m hm => ?_
  obtain ⟨rfl, -⟩ := bracketsAfter?_opening (by simp) hm
  refine hoperation.many.andThen fun operations _ =>
    (Yields.close (.inr (.inr rfl))).andThen fun _ _ => ?_
  split
  · exact .pure ⟨trivial, rfl⟩
  · exact .failAt p

theorem yields_directiveLocation :
    Yields floats n directiveLocation (Closed (fun _ => True) n) := by
  refine .peek .failHere fun t _ => ?_
  split
  · next s heq =>
    obtain rfl := Option.some.inj heq
    split
    · refine .skip fun m hm => ?_
      obtain rfl : n = m := Option.some.inj hm
      exact .pure ⟨trivial, rfl⟩
    · exact Yields.yieldsAt .failHere _
  · exact Yields.yieldsAt .failHere _

theorem yields_directiveDefinition :
    Yields floats n directiveDefinition (Closed (fun _ => True) n) := by
  have hlocations : Yields floats n (Parser.separated '|' directiveLocation)
      (Closed (fun _ => True) n) :=
    (Yields.separated (by decide) (by decide) yields_directiveLocation).mono
      fun _ _ h => ⟨trivial, h.2⟩
  refine Yields.position.andThen fun p _ => (yields_keyword _).andThen fun _ _ =>
    (Yields.mark (by decide) (by decide)).andThen fun _ _ => Yields.name.andThen fun key _ =>
      yields_arguments.andThen fun _ _ => ?_
  refine Yields.optional (by simp [Token.bracketsAfter?]) ((yields_keyword _).andThen fun _ _ => ?_)
  refine .peek (.pure ⟨trivial, rfl⟩) fun t _ => ?_
  simp only
  split
  · exact (hlocations.andThen fun _ _ => .pure ⟨trivial, rfl⟩).yieldsAt t
  · next heq =>
    obtain rfl := Option.some.inj heq
    refine .skip fun m hm => ?_
    obtain rfl : n = m := Option.some.inj hm
    exact hlocations.andThen fun _ _ => .pure ⟨trivial, rfl⟩
  · exact Yields.yieldsAt (.pure ⟨trivial, rfl⟩) t

theorem yields_entry : Yields floats 0 entry
    (Closed (fun e => ∀ d, e = .definition d → d.Permitted (.lexed floats)) 0) := by
  have hskipped {p : Parser Skipped} (h : Yields floats 0 p (Closed (fun _ => True) 0)) :
      Yields floats 0 (Entry.skipped <$> p)
        (Closed (fun e => ∀ d, e = .definition d → d.Permitted (.lexed floats)) 0) :=
    h.map fun _ _ hs => ⟨fun _ hd => absurd hd (by simp), hs.2⟩
  have hdefinition (description : Option String) :
      Yields floats 0 (Entry.definition <$> typeDefinition description)
        (Closed (fun e => ∀ d, e = .definition d → d.Permitted (.lexed floats)) 0) :=
    (yields_typeDefinition description).map fun _ _ hd =>
      ⟨fun _ h => Entry.definition.inj h ▸ hd.1, hd.2⟩
  have hdescribed : Yields floats 0 (Parser.string? >>= entryBody)
        (Closed (fun e => ∀ d, e = .definition d → d.Permitted (.lexed floats)) 0) := by
    refine Yields.string?.andThen fun description _ => .peek (hdefinition description) fun t _ => ?_
    split
    · exact (hskipped yields_directiveDefinition).yieldsAt t
    · exact (hdefinition description).yieldsAt t
  refine .peek hdescribed fun t _ => ?_
  split
  · exact (hskipped yields_schemaBlock).yieldsAt t
  · exact (hskipped yields_extension).yieldsAt t
  · exact hdescribed.yieldsAt t

theorem yields_document : Yields floats 0 document
    (Closed (fun es => ∀ e ∈ es, ∀ d, e = .definition d → d.Permitted (.lexed floats)) 0) :=
  yields_entry.oneOrMore

end Grammar

/-- The definitions of a source are permitted, where the floats are of a kind that those of its
text are of. -/
theorem Parsed.permitted_of_ofText {floats : Binary64 → Prop} {text : String} {parsed : Parsed}
    (hfloats : ∀ x ∈ (Lexed.ofText text).floats, floats x)
    (h : ofText text = .ok parsed) :
    ∀ d ∈ parsed.document.definitions, d.Permitted (.lexed floats) := by
  unfold ofText at h
  simp only at h
  split at h
  · exact absurd h (by simp)
  · exact absurd h (by simp)
  · next entries rest hdocument =>
    obtain ⟨m, ⟨hentries, -⟩, -⟩ :=
      Grammar.yields_document (Lexed.genuine_ofText text hfloats) hdocument
    split at h
    · obtain rfl := Except.ok.inj h
      intro d hd
      obtain ⟨e, he, hdefinition⟩ := List.mem_filterMap.mp hd
      cases e with
      | definition d' =>
        obtain rfl := Option.some.inj hdefinition
        exact hentries _ he d' rfl
      | skipped s => exact absurd hdefinition (by simp)
    · exact absurd h (by simp)

end Sdl

end GraphSchema
