import GraphSchema.Proofs.Sdl.Words
import GraphSchema.Sdl.Lexer

/-!
# Spelling

A text spells tokens if it is made of gaps, punctuators and bounded words. Lexing such a text
gives these tokens, unless more brackets are open at once than lexing follows.
-/

namespace GraphSchema.Sdl

/-- The blanks that stand between the tokens of printed text. -/
def isGap (c : Char) : Bool := c = ' ' || c = ',' || c = '\n'

inductive Spells : List Char → List Token → Prop
  | nil : Spells [] []
  | gap {c : Char} {cs : List Char} {ts : List Token} (hc : isGap c = true)
      (h : Spells cs ts) : Spells (c :: cs) ts
  | mark {c : Char} {cs : List Char} {ts : List Token} (hc : Token.isPunctuator c = true)
      (h : Spells cs ts) : Spells (c :: cs) (.punctuator c :: ts)
  | word {w cs : List Char} {t : Token} {ts : List Token} (hw : Word w t) (hcs : Bounded cs)
      (h : Spells cs ts) : Spells (w ++ cs) (t :: ts)

/-- The most brackets that are open at once behind a place, with some open there. The flag tells
whether the place is in a quoted string, whose characters are no brackets. -/
def peakFrom : Bool → Nat → List Char → Nat
  | _, opened, [] => opened
  | true, opened, '\\' :: _ :: r => peakFrom true opened r
  | true, opened, c :: r => peakFrom (c != '"') opened r
  | false, opened, c :: r =>
      if c = '"' then peakFrom true opened r
      else if c = '(' ∨ c = '[' ∨ c = '\x7b' then peakFrom false (opened + 1) r
      else if c = ')' ∨ c = ']' ∨ c = '\x7d' then max opened (peakFrom false (opened - 1) r)
      else peakFrom false opened r

/-- The most brackets that are open at once in a text. -/
def bracketPeak (text : String) : Nat := peakFrom false 0 text.toList

theorem le_peakFrom (quoted : Bool) (opened : Nat) (cs : List Char) :
    opened ≤ peakFrom quoted opened cs := by
  fun_induction peakFrom quoted opened cs with
  | case1 => exact Nat.le_refl _
  | case2 _ _ _ ih => exact ih
  | case3 _ _ _ _ ih => exact ih
  | case4 _ _ ih => exact ih
  | case5 _ _ _ _ _ ih => omega
  | case6 _ _ _ _ _ _ ih => omega
  | case7 _ _ _ _ _ _ ih => exact ih

theorem peakFrom_quoted {c : Char} (hquote : c ≠ '"') (hback : c ≠ '\\') (opened : Nat)
    (cs : List Char) : peakFrom true opened (c :: cs) = peakFrom true opened cs := by
  have hopen : (c != '"') = true := by simpa using hquote
  rw [peakFrom, hopen]
  exact fun _ _ hc => absurd hc hback

theorem peakFrom_string (opened : Nat) (s cs : List Char) :
    peakFrom true opened (s.flatMap Quoted.escape ++ '"' :: cs) = peakFrom false opened cs := by
  have hdigit : ∀ d, d < 16 → Text.hexDigitUpper d ≠ '"' ∧ Text.hexDigitUpper d ≠ '\\' := by
    decide
  induction s with
  | nil => rfl
  | cons c s ih =>
    rw [List.flatMap_cons, List.append_assoc, ← ih]
    generalize s.flatMap Quoted.escape ++ '"' :: cs = behind
    obtain ⟨e, -, -, h⟩ | ⟨-, h⟩ | ⟨hquote, hback, -, h⟩ := Quoted.escape_cases c
    · rw [h]
      rfl
    · have hdrop (n : Nat) (r : List Char) :
          peakFrom true opened (Text.hexDigitUpper (n % 16) :: r) = peakFrom true opened r := by
        obtain ⟨hquote, hback⟩ := hdigit (n % 16) (Nat.mod_lt _ (by decide))
        exact peakFrom_quoted hquote hback opened r
      rw [h, Text.hexQuad]
      simp only [List.cons_append, List.nil_append, peakFrom, hdrop]
    · rw [h, List.singleton_append]
      exact peakFrom_quoted hquote hback opened behind

theorem peakFrom_inert {w : List Char} (hw : ∀ c ∈ w, IsInert c) (opened : Nat)
    (cs : List Char) : peakFrom false opened (w ++ cs) = peakFrom false opened cs := by
  induction w with
  | nil => rfl
  | cons c w ih =>
    have hc := hw c (by simp)
    have ih := ih fun x hx => hw x (by simp [hx])
    rw [List.cons_append, peakFrom, if_neg hc.2, if_neg, if_neg, ih]
    · rintro (h | h | h) <;> exact hc.ne (by decide) h
    · rintro (h | h | h) <;> exact hc.ne (by decide) h

theorem peakFrom_word {w : List Char} {t : Token} (hw : Word w t) (opened : Nat)
    (cs : List Char) : peakFrom false opened (w ++ cs) = peakFrom false opened cs := by
  cases hw with
  | name hs => exact peakFrom_inert hs.inert opened cs
  | int hn => exact peakFrom_inert (isNumeral_int _).inert opened cs
  | float hx hfinite => exact peakFrom_inert (isNumeral_finite hfinite).inert opened cs
  | string s =>
    rw [Quoted.quote_append, peakFrom, if_pos rfl]
    exact peakFrom_string opened s.toList cs

/-- Whether lexing passes a character between tokens. -/
def isSkipped (c : Char) : Bool := [' ', ',', '\t', '\n', '\r', '\uFEFF', '#'].contains c

theorem IsInert.not_isSkipped {c : Char} (hmark : c ≠ '\uFEFF') (hc : IsInert c) :
    isSkipped c = false := by
  simp [isSkipped, hmark, hc.ne (show Numeral.isDelimiter ' ' = true by decide),
    hc.ne (show Numeral.isDelimiter ',' = true by decide),
    hc.ne (show Numeral.isDelimiter '\t' = true by decide),
    hc.ne (show Numeral.isDelimiter '\n' = true by decide),
    hc.ne (show Numeral.isDelimiter '\r' = true by decide),
    hc.ne (show Numeral.isDelimiter '#' = true by decide)]

theorem IsNumeral.head {w : List Char} (hw : IsNumeral w) :
    ∃ c r, w = c :: r ∧ isSkipped c = false := by
  have hinert := hw.inert
  obtain ⟨c, r, rfl, hc, -⟩ := hw
  refine ⟨c, r, rfl, (hinert c (by simp)).not_isSkipped ?_⟩
  rintro rfl
  exact absurd hc (by decide)

theorem Word.head {w : List Char} {t : Token} (hw : Word w t) :
    ∃ c r, w = c :: r ∧ isSkipped c = false := by
  cases hw with
  | name hs =>
    have hinert := hs.inert
    obtain ⟨c, r, h, hc, _⟩ := hs
    refine ⟨c, r, h, (hinert c (by simp [h])).not_isSkipped ?_⟩
    rintro rfl
    exact absurd hc (by decide)
  | int hn => exact (isNumeral_int _).head
  | float hx hfinite => exact (isNumeral_finite hfinite).head
  | string s =>
    have h := Quoted.quote_append s []
    rw [List.append_nil] at h
    exact ⟨'"', _, h, by decide⟩

theorem isSkipped_mark {c : Char} (hc : Token.isPunctuator c = true) : isSkipped c = false := by
  simp only [Token.isPunctuator, List.contains_eq_mem, List.mem_cons, List.not_mem_nil, or_false,
    decide_eq_true_eq] at hc
  rcases hc with h | h | h | h | h | h | h | h | h | h | h | h | h <;> subst c <;> decide

namespace Lexed

theorem skipBlanks_gap {c : Char} (hc : isGap c = true) (p : Position) (cs : List Char) :
    ∃ q, skipBlanks false p (c :: cs) = skipBlanks false q cs := by
  simp only [isGap, Bool.or_eq_true, decide_eq_true_eq] at hc
  rcases hc with (rfl | rfl) | rfl
  · exact ⟨p.right 1, rfl⟩
  · exact ⟨p.right 1, rfl⟩
  · exact ⟨p.nextLine, rfl⟩

theorem skipBlanks_solid {c : Char} (hc : isSkipped c = false) (p : Position)
    (cs : List Char) : skipBlanks false p (c :: cs) = (p, c :: cs) := by
  have hne : c ≠ ' ' ∧ c ≠ ',' ∧ c ≠ '\t' ∧ c ≠ '\n' ∧ c ≠ '\r' ∧ c ≠ '\uFEFF' ∧ c ≠ '#' := by
    simpa [isSkipped] using hc
  obtain ⟨h₁, h₂, h₃, h₄, h₅, h₆, h₇⟩ := hne
  simp [skipBlanks, h₁, h₂, h₃, h₄, h₅, h₆, h₇]

/-- A text is lexed to tokens and to its end, with some brackets open before it. -/
def Lexes (n opened : Nat) (cs : List Char) (ts : List Token) : Prop :=
  ∀ p, (lexFrom n opened p cs).tokens.map (·.token) = ts ∧ (lexFrom n opened p cs).complete = true

theorem Lexes.gap {c : Char} {cs : List Char} {ts : List Token} {n opened : Nat}
    (hc : isGap c = true) (h : Lexes (n + 1) opened cs ts) : Lexes (n + 1) opened (c :: cs) ts := by
  intro p
  obtain ⟨q, hq⟩ := skipBlanks_gap hc p cs
  have hlex : lexFrom (n + 1) opened p (c :: cs) = lexFrom (n + 1) opened q cs := by
    simp only [lexFrom, hq]
  rw [hlex]
  exact h q

theorem lexFrom_token {c : Char} {cs rest : List Char} {t : Token} {opened next : Nat}
    (hc : isSkipped c = false) (hscan : Token.scan (c :: cs) = some (t, rest))
    (hnext : t.bracketsAfter? bracketLimit opened = some next) (n : Nat) (p : Position) :
    lexFrom (n + 1) opened p (c :: cs) =
      let l := lexFrom n next (p.after ((c :: cs).take ((c :: cs).length - rest.length))) rest
      { l with tokens := ⟨p, t⟩ :: l.tokens } := by
  rw [lexFrom, skipBlanks_solid hc]
  simp only [List.isEmpty_cons, Bool.false_eq_true, ↓reduceIte, hscan, Option.bind_eq_bind,
    Option.bind_some, hnext]
  rfl

/-- One token is lexed, and lexing goes on behind it. -/
theorem Lexes.token {c : Char} {cs rest : List Char} {t : Token} {ts : List Token}
    {n opened next : Nat} (hc : isSkipped c = false) (hscan : Token.scan (c :: cs) = some (t, rest))
    (hnext : t.bracketsAfter? bracketLimit opened = some next) (h : Lexes n next rest ts) :
    Lexes (n + 1) opened (c :: cs) (t :: ts) := by
  intro p
  rw [lexFrom_token hc hscan hnext n p]
  obtain ⟨htokens, hcomplete⟩ := h (p.after ((c :: cs).take ((c :: cs).length - rest.length)))
  exact ⟨by rw [List.map_cons, htokens], hcomplete⟩

theorem bracketsAfter?_word {w : List Char} {t : Token} (hw : Word w t) (limit opened : Nat) :
    t.bracketsAfter? limit opened = some opened := by
  cases hw <;> rfl

/-- Within the limit a punctuator may stand, and what is open behind it stays within. -/
theorem bracketsAfter?_mark {c : Char} (hc : Token.isPunctuator c = true) {limit opened : Nat}
    {cs : List Char} (hpeak : peakFrom false opened (c :: cs) ≤ limit) :
    ∃ next, (Token.punctuator c).bracketsAfter? limit opened = some next ∧
      peakFrom false next cs ≤ limit := by
  have hquote : c ≠ '"' := by
    rintro rfl
    exact absurd hc (by decide)
  rw [peakFrom, if_neg hquote] at hpeak
  split at hpeak
  · next hopen =>
    have hle := le_peakFrom false (opened + 1) cs
    exact ⟨opened + 1, by rw [Token.bracketsAfter?, if_pos hopen, if_pos (by omega)], hpeak⟩
  · next hopen =>
    split at hpeak
    · next hclose =>
      exact ⟨opened - 1, by rw [Token.bracketsAfter?, if_neg hopen, if_pos hclose], by omega⟩
    · next hclose =>
      exact ⟨opened, by rw [Token.bracketsAfter?, if_neg hopen, if_neg hclose], hpeak⟩

theorem peakFrom_gap {c : Char} (hc : isGap c = true) (opened : Nat) (cs : List Char) :
    peakFrom false opened (c :: cs) = peakFrom false opened cs := by
  simp only [isGap, Bool.or_eq_true, decide_eq_true_eq] at hc
  rcases hc with (rfl | rfl) | rfl <;> rfl

/-- A spelled text is lexed to its tokens. -/
theorem lexes_spells {cs : List Char} {ts : List Token} (h : Spells cs ts) {n opened : Nat}
    (hn : ts.length ≤ n) (hpeak : peakFrom false opened cs ≤ bracketLimit) :
    Lexes (n + 1) opened cs ts := by
  induction h generalizing n opened with
  | nil => exact fun p => ⟨rfl, rfl⟩
  | gap hc h ih =>
    rw [peakFrom_gap hc] at hpeak
    exact .gap hc (ih hn hpeak)
  | @mark c cs ts hc h ih =>
    obtain ⟨m, rfl⟩ : ∃ m, n = m + 1 := ⟨n - 1, by rw [List.length_cons] at hn; omega⟩
    obtain ⟨next, hnext, hpeak⟩ := bracketsAfter?_mark hc hpeak
    exact .token (isSkipped_mark hc) (Token.scan_mark hc cs) hnext
      (ih (Nat.le_of_succ_le_succ hn) hpeak)
  | @word w cs t ts hw hcs h ih =>
    obtain ⟨m, rfl⟩ : ∃ m, n = m + 1 := ⟨n - 1, by rw [List.length_cons] at hn; omega⟩
    rw [peakFrom_word hw] at hpeak
    have hscan := Token.scan_word hw hcs
    obtain ⟨c, r, rfl, hc⟩ := hw.head
    rw [List.cons_append] at hscan ⊢
    exact .token hc hscan (bracketsAfter?_word hw _ opened) (ih (Nat.le_of_succ_le_succ hn) hpeak)

theorem length_spells {cs : List Char} {ts : List Token} (h : Spells cs ts) :
    ts.length ≤ cs.length := by
  induction h with
  | nil => exact Nat.le_refl _
  | gap hc h ih => exact Nat.le_succ_of_le ih
  | mark hc h ih => exact Nat.succ_le_succ ih
  | word hw hcs h ih =>
    obtain ⟨c, r, rfl, -⟩ := hw.head
    simp only [List.length_append, List.length_cons]
    omega

theorem ofText_spells {text : String} {ts : List Token} (h : Spells text.toList ts)
    (hpeak : bracketPeak text ≤ bracketLimit) :
    (ofText text).tokens.map (·.token) = ts ∧ (ofText text).complete = true :=
  lexes_spells h (length_spells h) hpeak _

end Lexed

end GraphSchema.Sdl
