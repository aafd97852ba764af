import GraphSchema.Proofs.Sdl.Reading

/-!
# Lexing past words

What lexing gives of a text is what it gives of its words and then of the rest. Where the rest is
not lexed to its end, neither is the text.
-/

namespace GraphSchema.Sdl.Lexed

theorem skipBlanks_congr (comment : Bool) (p q : Position) (cs : List Char) :
    (skipBlanks comment p cs).2 = (skipBlanks comment q cs).2 := by
  induction cs generalizing comment p q with
  | nil => cases comment <;> rfl
  | cons c cs ih =>
    cases comment with
    | true =>
      simp only [skipBlanks]
      split
      · exact ih _ _ _
      · exact ih _ _ _
    | false =>
      simp only [skipBlanks]
      split
      · exact ih _ _ _
      split
      · exact ih _ _ _
      split
      · exact ih _ _ _
      split
      · exact ih _ _ _
      split
      · exact ih _ _ _
      · rfl

/-- Whether a text is lexed to its end does not hang on its place. -/
theorem complete_congr (k opened : Nat) (p q : Position) (cs : List Char) :
    (lexFrom k opened p cs).complete = (lexFrom k opened q cs).complete := by
  induction k generalizing opened p q cs with
  | zero => rfl
  | succ k ih =>
    have hblanks := skipBlanks_congr false p q cs
    simp only [lexFrom]
    rw [hblanks]
    split
    · rfl
    · split
      · rfl
      · exact ih _ _ _ _

/-- Whether a text is lexed to its end, with some brackets open before it. -/
def IsLexed (opened : Nat) (cs : List Char) : Prop :=
  ∃ k p, (lexFrom k opened p cs).complete = true

/-- Lexing passes from the text `cs` to the text `rest`: it gives the tokens `ts`, and `next`
brackets are open then. -/
structure Passes (opened : Nat) (cs : List Char) (ts : List Token) (next : Nat)
    (rest : List Char) : Prop where
  lexes : ∀ k p, ∃ q front, front.map (·.token) = ts ∧ lexFrom (k + ts.length) opened p cs =
    { lexFrom k next q rest with tokens := front ++ (lexFrom k next q rest).tokens }
  fuel : ∀ k p, (lexFrom k opened p cs).complete = true → ts.length ≤ k

namespace Passes

variable {opened next last : Nat} {cs mid rest : List Char} {ts us : List Token}

theorem refl (opened : Nat) (cs : List Char) : Passes opened cs [] opened cs where
  lexes _ p := ⟨p, [], rfl, rfl⟩
  fuel _ _ _ := Nat.zero_le _

theorem complete (h : Passes opened cs ts next rest) {k : Nat} {p q : Position}
    (hcomplete : (lexFrom (k + ts.length) opened p cs).complete = true) :
    (lexFrom k next q rest).complete = true := by
  obtain ⟨q', front, -, hlex⟩ := h.lexes k p
  rw [hlex] at hcomplete
  exact (complete_congr k next q q' rest).trans hcomplete

theorem isLexed (h : Passes opened cs ts next rest) (hlexed : IsLexed opened cs) :
    IsLexed next rest := by
  obtain ⟨k, p, hcomplete⟩ := hlexed
  obtain ⟨j, rfl⟩ := Nat.exists_eq_add_of_le' (h.fuel k p hcomplete)
  exact ⟨j, p, h.complete hcomplete⟩

theorem trans (h : Passes opened cs ts next mid) (hmid : Passes next mid us last rest) :
    Passes opened cs (ts ++ us) last rest where
  lexes k p := by
    obtain ⟨q, front, hfront, hlex⟩ := h.lexes (k + us.length) p
    obtain ⟨q', more, hmore, hlex'⟩ := hmid.lexes k q
    refine ⟨q', front ++ more, by rw [List.map_append, hfront, hmore], ?_⟩
    rw [List.length_append, Nat.add_comm ts.length, ← Nat.add_assoc, hlex, hlex',
      List.append_assoc]
  fuel k p hcomplete := by
    obtain ⟨j, rfl⟩ := Nat.exists_eq_add_of_le' (h.fuel k p hcomplete)
    have hle := hmid.fuel j p (h.complete hcomplete)
    rw [List.length_append]
    omega

theorem gap {c : Char} (hc : isGap c = true) (opened : Nat) (cs : List Char) :
    Passes opened (c :: cs) [] opened cs where
  lexes k p := by
    cases k with
    | zero => exact ⟨p, [], rfl, rfl⟩
    | succ k =>
      obtain ⟨q, hq⟩ := skipBlanks_gap hc p cs
      exact ⟨q, [], rfl, by simp only [List.length_nil, Nat.add_zero, lexFrom, hq, List.nil_append]⟩
  fuel _ _ _ := Nat.zero_le _

theorem gaps {blanks : List Char} (hblanks : ∀ c ∈ blanks, isGap c = true) (opened : Nat)
    (cs : List Char) : Passes opened (blanks ++ cs) [] opened cs := by
  induction blanks with
  | nil => exact refl opened cs
  | cons c blanks ih =>
    exact (gap (hblanks c (by simp)) opened _).trans (ih fun x hx => hblanks x (by simp [hx]))

theorem token {c : Char} {t : Token} (hc : isSkipped c = false)
    (hscan : Token.scan (c :: cs) = some (t, rest))
    (hnext : t.bracketsAfter? bracketLimit opened = some next) :
    Passes opened (c :: cs) [t] next rest where
  lexes k p := ⟨_, [⟨p, t⟩], rfl, lexFrom_token hc hscan hnext k p⟩
  fuel k p hcomplete := by
    cases k with
    | zero => exact absurd hcomplete (by simp [lexFrom])
    | succ k => exact Nat.le_add_left 1 k

theorem mark {c : Char} (hc : Token.isPunctuator c = true)
    (hnext : (Token.punctuator c).bracketsAfter? bracketLimit opened = some next)
    (cs : List Char) : Passes opened (c :: cs) [.punctuator c] next cs :=
  token (isSkipped_mark hc) (Token.scan_mark hc cs) hnext

theorem word {w : List Char} {t : Token} (hw : Word w t) (hcs : Bounded cs) :
    Passes opened (w ++ cs) [t] opened cs := by
  have hscan := Token.scan_word hw hcs
  obtain ⟨c, r, rfl, hc⟩ := hw.head
  exact token hc hscan (bracketsAfter?_word hw _ opened)

end Passes

section Separated

variable {α : Type} {write : α → List Char} {tokens : α → List Token} {xs : List α}
  {opened : Nat} {rest : List Char}

/-- Lexing passes an item, whatever stands behind it. -/
def PassesItem (write : α → List Char) (tokens : α → List Token) (opened : Nat) (x : α) : Prop :=
  ∀ ⦃rest⦄, Bounded rest → Passes opened (write x ++ rest) (tokens x) opened rest

theorem passes_further (hxs : ∀ x ∈ xs, PassesItem write tokens opened x) (hrest : Bounded rest) :
    Passes opened (further write xs rest) (xs.flatMap tokens) opened rest := by
  induction xs with
  | nil => exact .refl opened rest
  | cons x xs ih =>
    obtain ⟨hx, hxs⟩ := List.forall_mem_cons.mp hxs
    rw [further_cons, List.flatMap_cons]
    exact (Passes.gap rfl opened _).trans ((Passes.gap rfl opened _).trans
      ((hx (bounded_further write xs hrest)).trans (ih hxs)))

/-- Items with commas between them are passed one by one. -/
theorem passes_separated (hxs : ∀ x ∈ xs, PassesItem write tokens opened x) (hrest : Bounded rest) :
    Passes opened ([',', ' '].intercalate (xs.map write) ++ rest) (xs.flatMap tokens) opened
      rest := by
  cases xs with
  | nil => exact .refl opened rest
  | cons x xs =>
    obtain ⟨hx, hxs⟩ := List.forall_mem_cons.mp hxs
    rw [separated_cons, List.flatMap_cons]
    exact (hx (bounded_further write xs hrest)).trans (passes_further hxs hrest)

variable {P : α → Prop}

/-- If items are passed whenever they have a property, and a text with an item in front is lexed
only if it has, then the text of items is lexed only if all have. -/
theorem forall_of_isLexed_further (hxs : ∀ x ∈ xs, P x → PassesItem write tokens opened x)
    (hlexed : ∀ x ∈ xs, ∀ {rest}, Bounded rest → IsLexed opened (write x ++ rest) → P x)
    (hrest : Bounded rest) (h : IsLexed opened (further write xs rest)) : ∀ x ∈ xs, P x := by
  induction xs with
  | nil => simp
  | cons x xs ih =>
    obtain ⟨hx, hxs⟩ := List.forall_mem_cons.mp hxs
    obtain ⟨hlexedx, hlexed⟩ := List.forall_mem_cons.mp hlexed
    rw [further_cons] at h
    have hitem := (Passes.gap rfl opened _).isLexed ((Passes.gap rfl opened _).isLexed h)
    have hbounded := bounded_further write xs hrest
    have hP := hlexedx hbounded hitem
    exact List.forall_mem_cons.mpr ⟨hP, ih hxs hlexed ((hx hP hbounded).isLexed hitem)⟩

theorem forall_of_isLexed_separated (hxs : ∀ x ∈ xs, P x → PassesItem write tokens opened x)
    (hlexed : ∀ x ∈ xs, ∀ {rest}, Bounded rest → IsLexed opened (write x ++ rest) → P x)
    (hrest : Bounded rest)
    (h : IsLexed opened ([',', ' '].intercalate (xs.map write) ++ rest)) : ∀ x ∈ xs, P x := by
  cases xs with
  | nil => simp
  | cons x xs =>
    obtain ⟨hx, hxs⟩ := List.forall_mem_cons.mp hxs
    obtain ⟨hlexedx, hlexed⟩ := List.forall_mem_cons.mp hlexed
    rw [separated_cons] at h
    have hbounded := bounded_further write xs hrest
    have hP := hlexedx hbounded h
    have hbehind := (hx hP hbounded).isLexed h
    exact List.forall_mem_cons.mpr ⟨hP, forall_of_isLexed_further hxs hlexed hrest hbehind⟩

end Separated

/-- A text that starts with no token is not lexed to its end. -/
theorem not_isLexed {c : Char} {cs : List Char} (hc : isSkipped c = false)
    (hscan : Token.scan (c :: cs) = none) (opened : Nat) : ¬ IsLexed opened (c :: cs) := by
  rintro ⟨k, p, hcomplete⟩
  cases k with
  | zero => exact absurd hcomplete (by simp [lexFrom])
  | succ k =>
    rw [lexFrom, skipBlanks_solid hc] at hcomplete
    simp [hscan] at hcomplete

end GraphSchema.Sdl.Lexed
