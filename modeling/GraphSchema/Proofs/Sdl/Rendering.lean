import GraphSchema.Proofs.Run
import GraphSchema.Proofs.Sdl.Grammar
import GraphSchema.Proofs.Sdl.Passing
import GraphSchema.Proofs.Sdl.Taking
import GraphSchema.Sdl.Printer

/-!
# The text of a value in the place of the value

Where a value was read, its text is read as a value with the same text, unless the value holds a
float that is written as no token: the negative infinity, or one with an exponent from ninety to
ninety-nine.
-/

namespace GraphSchema

namespace Sdl

namespace Value

mutual

/-- The floats that a value holds. -/
def floats : Value → List Binary64
  | float x => [x]
  | list items => floatsOfItems items
  | object fields => floatsOfFields fields
  | _ => []

/-- The floats that the items of a list hold. -/
def floatsOfItems : List Value → List Binary64
  | [] => []
  | v :: r => floats v ++ floatsOfItems r

/-- The floats that the fields of an object hold. -/
def floatsOfFields : List (String × Value) → List Binary64
  | [] => []
  | (_, v) :: r => floats v ++ floatsOfFields r

end

/-- All floats of a value have texts that are read back. -/
def IsReadable (v : Value) : Prop := ∀ x ∈ v.floats, x.IsReadable

instance (v : Value) : Decidable v.IsReadable := inferInstanceAs (Decidable (∀ x ∈ v.floats, _))

theorem isReadable_float {x : Binary64} : (float x).IsReadable ↔ x.IsReadable := by
  simp [IsReadable, floats]

theorem isReadable_list {items : List Value} :
    (list items).IsReadable ↔ ∀ v ∈ items, v.IsReadable := by
  have hfloats : floatsOfItems items = items.flatMap floats := by
    induction items with
    | nil => rfl
    | cons v items ih => rw [floatsOfItems, ih, List.flatMap_cons]
  simp only [IsReadable, floats, hfloats, List.mem_flatMap]
  exact ⟨fun h v hv x hx => h x ⟨v, hv, hx⟩, fun h x ⟨v, hv, hx⟩ => h v hv x hx⟩

theorem isReadable_object {fields : List (String × Value)} :
    (object fields).IsReadable ↔ ∀ f ∈ fields, f.2.IsReadable := by
  have hfloats : floatsOfFields fields = fields.flatMap fun f => f.2.floats := by
    induction fields with
    | nil => rfl
    | cons f fields ih => rw [floatsOfFields, ih, List.flatMap_cons]
  simp only [IsReadable, floats, hfloats, List.mem_flatMap]
  exact ⟨fun h f hf x hx => h x ⟨f, hf, hx⟩, fun h x ⟨f, hf, hx⟩ => h f hf x hx⟩

end Value

namespace Lexed

variable {floats : Binary64 → Prop} {constant : Bool} {n : Nat} {v : Value} {rest : List Char}

theorem opens {c : Char} (hc : c = '(' ∨ c = '[' ∨ c = '\x7b') (hopened : n + 1 ≤ bracketLimit) :
    (Token.punctuator c).bracketsAfter? bracketLimit n = some (n + 1) := by
  rw [Token.bracketsAfter?, if_pos hc, if_pos (Nat.lt_of_succ_le hopened)]

/-- A field is passed if its value is. -/
theorem passes_field {f : String × Value} (hname : IsName f.1)
    (hvalue : PassesItem (fun v => v.render.toList) Value.tokens n f.2) :
    PassesItem (fun f : String × Value => (f.1 ++ ": " ++ f.2.render).toList) Value.fieldTokens n
      f := by
  intro rest hrest
  simp only [String.toList_append, List.append_assoc]
  exact (Passes.word (.name hname) (bounded_cons rfl _)).trans
    ((Passes.mark rfl rfl _).trans ((Passes.gap rfl n _).trans (hvalue hrest)))

/-- The text of a value is lexed to its tokens, if its floats are readable. -/
theorem passes_value (hv : v.Permitted (.lexed floats) constant n) (hreadable : v.IsReadable)
    (hrest : Bounded rest) : Passes n (v.render.toList ++ rest) v.tokens n rest := by
  induction hv generalizing rest with
  | var _ hname =>
    rw [Value.render, String.toList_append, List.append_assoc]
    exact (Passes.mark rfl rfl _).trans (.word (.name hname) hrest)
  | int hi => exact .word (.int hi) hrest
  | @float _ x _ =>
    have hx := Value.isReadable_float.mp hreadable
    cases hfinite : x.isInfinite with
    | false =>
      rw [Value.tokens, Binary64.isTop, hfinite, Bool.false_and, if_neg Bool.false_ne_true]
      exact .word (.float hx hfinite) hrest
    | true =>
      -- The positive infinity is written as a name, and lexed to one.
      rw [Value.render, Binary64.render_infinite hx hfinite]
      rw [Binary64.IsReadable, if_pos hfinite] at hx
      rw [Value.tokens, Binary64.isTop, hfinite, hx]
      exact .word (.name (by decide)) hrest
  | string s => exact .word (.string s) hrest
  | boolean b => cases b <;> exact .word (.name (by decide)) hrest
  | null => exact .word (.name (by decide)) hrest
  | enum hname => exact .word (.name hname) hrest
  | @list n items hopened _ ih =>
    have hclosing : Bounded (']' :: rest) := bounded_cons rfl rest
    have hitems := passes_separated
      (fun u hu _ hrest => ih u hu (Value.isReadable_list.mp hreadable u hu) hrest) hclosing
    rw [Value.toList_render_list, Value.tokens, Value.tokensOfItems_eq, List.cons_append,
      List.append_assoc]
    exact (Passes.mark rfl (opens (by simp) hopened) _).trans (hitems.trans (.mark rfl rfl rest))
  | @object n fields hopened hnames _ _ ih =>
    have hclosing : Bounded ('\x7d' :: rest) := bounded_cons rfl rest
    have hfields := passes_separated
      (fun f hf => passes_field (hnames f hf) fun _ hrest =>
        ih f hf (Value.isReadable_object.mp hreadable f hf) hrest) hclosing
    rw [Value.toList_render_object, Value.tokens, Value.tokensOfFields_eq, List.cons_append,
      List.append_assoc]
    exact (Passes.mark rfl (opens (by simp) hopened) _).trans (hfields.trans (.mark rfl rfl rest))

/-- An unreadable float is written like a numeral, but as none that has a value, so it starts no
token. -/
theorem isReadable_of_isLexed_float {x : Binary64} (hrest : Bounded rest)
    (hlexed : IsLexed n (x.render.toList ++ rest)) : x.IsReadable := by
  by_contra hx
  have hnumeral : IsNumeral x.render.toList := by
    refine isNumeral_float fun hinfinite => ?_
    rw [Binary64.IsReadable, if_pos hinfinite] at hx
    simpa using hx
  have hscan := Token.scan_numeral hnumeral hrest
  rw [Binary64.value?_unreadable hx, Option.map_none] at hscan
  obtain ⟨c, r, htext, hc⟩ := hnumeral.head
  rw [htext] at hscan hlexed
  exact not_isLexed hc hscan n hlexed

/-- The text of a value is lexed only if its floats are readable. -/
theorem isReadable_of_isLexed (hv : v.Permitted (.lexed floats) constant n) (hrest : Bounded rest)
    (hlexed : IsLexed n (v.render.toList ++ rest)) : v.IsReadable := by
  induction hv generalizing rest with
  | float => exact Value.isReadable_float.mpr (isReadable_of_isLexed_float hrest hlexed)
  | @list n items hopened hitems ih =>
    rw [Value.toList_render_list, List.cons_append, List.append_assoc] at hlexed
    have hinner := (Passes.mark rfl (opens (by simp) hopened) _).isLexed hlexed
    exact Value.isReadable_list.mpr (forall_of_isLexed_separated
      (fun u hu hreadable _ hrest => passes_value (hitems u hu) hreadable hrest)
      (fun u hu rest hrest hlexed => ih u hu hrest hlexed) (bounded_cons rfl rest) hinner)
  | @object n fields hopened hnames _ hvalues ih =>
    rw [Value.toList_render_object, List.cons_append, List.append_assoc] at hlexed
    have hinner := (Passes.mark rfl (opens (by simp) hopened) _).isLexed hlexed
    refine Value.isReadable_object.mpr (forall_of_isLexed_separated
      (fun f hf hreadable => passes_field (hnames f hf) fun _ hrest =>
        passes_value (hvalues f hf) hreadable hrest)
      (fun f hf rest hrest hlexed => ih f hf hrest ?_) (bounded_cons rfl rest) hinner)
    simp only [String.toList_append, List.append_assoc] at hlexed
    have hbehind := (Passes.word (.name (hnames f hf)) (bounded_cons rfl _)).isLexed hlexed
    exact (Passes.gap rfl _ _).isLexed ((Passes.mark rfl rfl _).isLexed hbehind)
  | _ => simp [Value.IsReadable, Value.floats]

end Lexed

namespace Value

variable {constant : Bool} {n : Nat} {start : Position} {text behind blanks : List Char}
  {v w : Value}

/-- The rule for values reads `v` of the text `text`, which starts at a place with `n` brackets
open. All of the text is lexed, and just the tokens of what is behind are left. -/
def StandsAt (constant : Bool) (n : Nat) (start : Position) (text behind : List Char)
    (v : Value) : Prop :=
  ∃ fuel fuel' next, (Lexed.lexFrom fuel n start (text ++ behind)).complete = true ∧
    (Lexed.lexFrom fuel' n next behind).complete = true ∧
    Grammar.value constant (Lexed.lexFrom fuel n start (text ++ behind)).tokens =
      .ok (v, (Lexed.lexFrom fuel' n next behind).tokens)

/-- What is read as a value may stand there, and text can spell it. -/
theorem StandsAt.spelledAt (hv : v.StandsAt constant n start text behind) :
    Grammar.SpelledAt (fun _ => True) constant n v := by
  obtain ⟨fuel, fuel', next, -, -, hread⟩ := hv
  have hgenuine : Genuine (fun _ => True) n (Lexed.lexFrom fuel n start (text ++ behind)).tokens :=
    Lexed.genuine_lexFrom _ _ _ _ fun _ _ _ _ => trivial
  obtain ⟨m, hspelled, -⟩ := Grammar.yields_spelled hgenuine hread
  exact hspelled.1

theorem StandsAt.isLexed (hv : v.StandsAt constant n start text behind) :
    Lexed.IsLexed n (text ++ behind) := by
  obtain ⟨fuel, fuel', next, hcomplete, -, -⟩ := hv
  exact ⟨fuel, start, hcomplete⟩

theorem StandsAt.isLexed_behind (hv : v.StandsAt constant n start text behind) :
    Lexed.IsLexed n behind := by
  obtain ⟨fuel, fuel', next, -, hcomplete, -⟩ := hv
  exact ⟨fuel', next, hcomplete⟩

/-- The text of a value with readable floats, in a place where the value may stand, is read as the
value with the name `inf` for the infinity, and as nothing else. -/
theorem standsAt_render_iff (hv : Grammar.SpelledAt (fun _ => True) constant n v)
    (hreadable : v.IsReadable) (hblanks : ∀ c ∈ blanks, isGap c = true)
    (hbounded : Bounded (blanks ++ behind)) (hbehind : Lexed.IsLexed n behind) :
    w.StandsAt constant n start (v.render.toList ++ blanks) behind ↔ w = v.namingInfinity := by
  have hpasses := (Lexed.passes_value hv.1 hreadable hbounded).trans (.gaps hblanks n behind)
  rw [List.append_nil, ← List.append_assoc] at hpasses
  -- Whatever the fuel and the place, lexing gives the tokens of the value and those behind it.
  have hread {front back : List Located} (hfront : front.map (·.token) = v.tokens) :
      Grammar.value constant (front ++ back) = .ok (v.namingInfinity, back) := by
    have hlength : v.tokens.length ≤ (front ++ back).length + 1 := by
      rw [← hfront, List.length_map, List.length_append]
      omega
    exact Grammar.takes_valueWithin hv.1 hv.2 hlength hfront
  constructor
  · rintro ⟨fuel, fuel', next, hcomplete, -, hw⟩
    obtain ⟨k, rfl⟩ := Nat.exists_eq_add_of_le' (hpasses.fuel fuel start hcomplete)
    obtain ⟨q, front, hfront, hlex⟩ := hpasses.lexes k start
    rw [hlex, hread hfront] at hw
    exact (Prod.mk.inj (Except.ok.inj hw)).1.symm
  · rintro rfl
    obtain ⟨k, next, hcomplete⟩ := hbehind
    obtain ⟨q, front, hfront, hlex⟩ := hpasses.lexes k start
    have hrest := (Lexed.complete_congr k n next q behind).symm.trans hcomplete
    exact ⟨k + v.tokens.length, k, q, by rw [hlex]; exact hrest, hrest,
      by rw [hlex]; exact hread hfront⟩

/-- Where a value was read, its text, set off from what is behind, is read exactly if the floats of
the value are readable, and then as a value with the same text. -/
theorem render_standsAt (hv : v.StandsAt constant n start text behind)
    (hblanks : ∀ c ∈ blanks, isGap c = true) (hbounded : Bounded (blanks ++ behind)) :
    ((∃ w : Value, w.StandsAt constant n start (v.render.toList ++ blanks) behind) ↔
        v.IsReadable) ∧
      ∀ w : Value, w.StandsAt constant n start (v.render.toList ++ blanks) behind →
        w.render = v.render := by
  have hspelled := hv.spelledAt
  have hneeds : ∀ w : Value, w.StandsAt constant n start (v.render.toList ++ blanks) behind →
      v.IsReadable := by
    intro w hw
    have hlexed := hw.isLexed
    rw [List.append_assoc] at hlexed
    exact Lexed.isReadable_of_isLexed hspelled.1 hbounded hlexed
  have hiff {w : Value} (hreadable : v.IsReadable) :
      w.StandsAt constant n start (v.render.toList ++ blanks) behind ↔ w = v.namingInfinity :=
    standsAt_render_iff hspelled hreadable hblanks hbounded hv.isLexed_behind
  refine ⟨⟨fun ⟨w, hw⟩ => hneeds w hw, fun hreadable => ⟨_, (hiff hreadable).mpr rfl⟩⟩, ?_⟩
  intro w hw
  rw [(hiff (hneeds w hw)).mp hw]
  exact hspelled.2.render_namingInfinity

/-- The check that a text is read as a value of some kind, from the start of the text. -/
def readsAs (constant : Bool) (n : Nat) (text behind : List Char) (kind : Value → Bool) : Bool :=
  let lexed := Lexed.lexFrom 50 n .start (text ++ behind)
  let rest := Lexed.lexFrom 50 n ⟨1, text.length + 1⟩ behind
  lexed.complete && rest.complete && (Grammar.value constant lexed.tokens).toOption.any fun r =>
    r.2 == rest.tokens && kind r.1

theorem standsAt_of_readsAs {kind : Value → Bool} (h : readsAs constant n text behind kind = true) :
    ∃ v : Value, v.StandsAt constant n .start text behind ∧ kind v = true := by
  simp only [readsAs, Bool.and_eq_true] at h
  obtain ⟨⟨hlexed, hrest⟩, hread⟩ := h
  obtain ⟨⟨v, left⟩, hread, hv⟩ := exists_ok_of_any hread
  obtain ⟨hleft, hkind⟩ := Bool.and_eq_true_iff.mp hv
  obtain rfl := eq_of_beq hleft
  exact ⟨v, ⟨50, 50, _, hlexed, hrest, hread⟩, hkind⟩

/-- A value of a directive, with fields out of order and named twice, a block string, and floats
that are written otherwise than they are read. -/
def forecastText : String :=
  "\x7b unit: C, days: [$n, 2.50e1, 1E400] note: \"\"\"dry \"\"\" unit: K \x7d"

theorem render_standsAt_forecast : ∃ v w : Value,
    v.StandsAt false 1 .start forecastText.toList ")".toList ∧ v.IsReadable ∧
    v.render = "\x7bdays: [$n, 25.0, inf], note: \"dry \", unit: K\x7d" ∧
    w.StandsAt false 1 .start (v.render.toList ++ [' ']) ")".toList ∧
    w.render = v.render := by
  have hcheck : readsAs false 1 forecastText.toList ")".toList (fun v => decide v.IsReadable &&
      v.render == "\x7bdays: [$n, 25.0, inf], note: \"dry \", unit: K\x7d") = true := by
    decide +kernel
  obtain ⟨v, hv, hkind⟩ := standsAt_of_readsAs hcheck
  obtain ⟨hreadable, htext⟩ := Bool.and_eq_true_iff.mp hkind
  have hreadable := of_decide_eq_true hreadable
  have hblanks : ∀ c ∈ [' '], isGap c = true := by simp [isGap]
  have hrender := render_standsAt hv hblanks (bounded_cons rfl _)
  obtain ⟨w, hw⟩ := hrender.1.mpr hreadable
  exact ⟨v, w, hv, hreadable, eq_of_beq htext, hw, hrender.2 w hw⟩

/-- The text of a definition with a default value. -/
def asDefault (text : String) : String := "input I \x7b x: Float = " ++ text ++ " \x7d"

/-- A definition is read, but none is with what is rendered for its default value. -/
def IsRefused (text rendered : String) : Prop :=
  (∃ p, Parsed.ofText (asDefault text) = .ok p ∧
    p.document.definitions.map Definition.print =
      ["input I \x7b\n  x: Float = " ++ rendered ++ "\n\x7d"]) ∧
    ∀ p, Parsed.ofText (asDefault rendered) ≠ .ok p

/-- The negative infinity is written as a sign and a name, and a large number with an exponent that
starts with a nine. -/
theorem not_render_standsAt : IsRefused "-1e400" "-inf" ∧ IsRefused "1e+95" "1e95" := by
  have hrefused {text rendered : String}
      (hread : ((Parsed.ofText (asDefault text)).toOption.any fun p =>
        p.document.definitions.map Definition.print ==
          ["input I \x7b\n  x: Float = " ++ rendered ++ "\n\x7d"]) = true)
      (hrefused : (Parsed.ofText (asDefault rendered)).isOk = false) :
      IsRefused text rendered := by
    refine ⟨?_, fun p hp => ?_⟩
    · obtain ⟨p, hp, hprint⟩ := exists_ok_of_any hread
      exact ⟨p, hp, eq_of_beq hprint⟩
    · rw [hp] at hrefused
      exact absurd hrefused (by simp [Except.isOk, Except.toBool])
  exact ⟨hrefused (by decide +kernel) (by decide +kernel),
    hrefused (by decide +kernel) (by decide +kernel)⟩

end Value

end Sdl

end GraphSchema
