import GraphSchema.Json.Parser
import GraphSchema.Json.Printer
import GraphSchema.Proofs.Text.Scanning

/-!
# JSON strings and numbers

A string and a natural number are read back from their written form.
-/

namespace GraphSchema.Json

/-- A character is written as a letter behind a backslash, as its code, or as it is. -/
theorem escape_cases (c : Char) :
    (∃ e, e ≠ 'u' ∧ unescape? e = some c ∧ escape c = ['\\', e]) ∨
      (c.toNat < 32 ∧ escape c = '\\' :: 'u' :: Text.hexQuad Text.hexDigit c.toNat) ∨
      (c ≠ '"' ∧ c ≠ '\\' ∧ ¬c.toNat < 32 ∧ escape c = [c]) := by
  by_cases hletter : c ∈ ['"', '\\', '\x08', '\x0c', '\n', '\r', '\t']
  · simp only [List.mem_cons, List.not_mem_nil, or_false] at hletter
    refine .inl ?_
    rcases hletter with rfl | rfl | rfl | rfl | rfl | rfl | rfl
    · exact ⟨'"', by decide, rfl, rfl⟩
    · exact ⟨'\\', by decide, rfl, rfl⟩
    · exact ⟨'b', by decide, rfl, rfl⟩
    · exact ⟨'f', by decide, rfl, rfl⟩
    · exact ⟨'n', by decide, rfl, rfl⟩
    · exact ⟨'r', by decide, rfl, rfl⟩
    · exact ⟨'t', by decide, rfl, rfl⟩
  · simp only [List.mem_cons, List.not_mem_nil, or_false, not_or] at hletter
    obtain ⟨hquote, hback, hbackspace, hpage, hfeed, hreturn, htab⟩ := hletter
    unfold escape
    rw [if_neg hquote, if_neg hback, if_neg hbackspace, if_neg hpage, if_neg hfeed,
      if_neg hreturn, if_neg htab]
    by_cases hlow : c.toNat < 32
    · exact .inr (.inl ⟨hlow, if_pos hlow⟩)
    · exact .inr (.inr ⟨hquote, hback, hlow, if_neg hlow⟩)

theorem scanCodes_letter {e x : Char} (he : e ≠ 'u') (hx : unescape? e = some x)
    (cs : List Char) :
    scanCodes ('\\' :: e :: cs) = (scanCodes cs).bind fun r => some (x.toNat :: r.1, r.2) := by
  rw [scanCodes, hx]
  · rfl
  · intro a b c d r h
    exact absurd h he

theorem scanCodes_code {c : Char} (hc : c.toNat < 32) (cs : List Char) :
    scanCodes ('\\' :: 'u' :: Text.hexQuad Text.hexDigit c.toNat ++ cs) =
      (scanCodes cs).bind fun r => some (c.toNat :: r.1, r.2) := by
  have hnumber := Text.hexNumber?_hexQuad Text.hexValue?_hexDigit
    (show c.toNat < 65536 by omega)
  rw [Text.hexQuad] at hnumber ⊢
  simp only [List.cons_append, List.nil_append, scanCodes, hnumber]
  rfl

theorem scanCodes_plain {c : Char} (hquote : c ≠ '"') (hback : c ≠ '\\') (hlow : ¬c.toNat < 32)
    (cs : List Char) :
    scanCodes (c :: cs) = (scanCodes cs).bind fun r => some (c.toNat :: r.1, r.2) := by
  have hallowed : ¬(c.toNat < 32 ∨ c = '\\') := by
    rintro (h | h)
    · exact hlow h
    · exact hback h
  rw [scanCodes, if_neg hallowed]
  · rfl
  · exact hquote
  · intro _ _ _ _ _ h
    exact absurd h hback
  · intro _ _ h
    exact absurd h hback

theorem scanCodes_escape (c : Char) (cs : List Char) :
    scanCodes (escape c ++ cs) = (scanCodes cs).bind fun r => some (c.toNat :: r.1, r.2) := by
  obtain ⟨e, he, hx, h⟩ | ⟨hlow, h⟩ | ⟨hquote, hback, hlow, h⟩ := escape_cases c
  · rw [h]
    exact scanCodes_letter he hx cs
  · rw [h]
    exact scanCodes_code hlow cs
  · rw [h]
    exact scanCodes_plain hquote hback hlow cs

theorem scanCodes_quoted (s cs : List Char) :
    scanCodes (s.flatMap escape ++ '"' :: cs) = some (s.map Char.toNat, cs) := by
  induction s with
  | nil => rw [List.flatMap_nil, List.nil_append, scanCodes, List.map_nil]
  | cons c s ih =>
    rw [List.flatMap_cons, List.append_assoc, scanCodes_escape, ih]
    rfl

/-- No character has the code of half a surrogate pair. -/
theorem not_half (c : Char) : isHighHalf c.toNat = false ∧ isLowHalf c.toNat = false := by
  have hvalid := c.valid
  unfold UInt32.isValidChar Nat.isValidChar at hvalid
  have hcode : c.toNat < 0xD800 ∨ 0xDFFF < c.toNat := by
    rcases hvalid with h | ⟨h, -⟩
    · exact .inl h
    · exact .inr h
  constructor
  · simp only [isHighHalf, Bool.and_eq_false_iff, decide_eq_false_iff_not]
    omega
  · simp only [isLowHalf, Bool.and_eq_false_iff, decide_eq_false_iff_not]
    omega

theorem textOfCodes?_codes (s : List Char) : textOfCodes? (s.map Char.toNat) = some s := by
  induction s with
  | nil => rfl
  | cons c s ih =>
    obtain ⟨hhigh, hlow⟩ := not_half c
    -- A code is read with the next one, as it could be the first half of a pair.
    cases s with
    | nil =>
      rw [List.map_cons, List.map_nil, textOfCodes?, hhigh, hlow, Char.ofNat_toNat]
      rfl
    | cons d s =>
      rw [List.map_cons, List.map_cons, textOfCodes?, hhigh, hlow, Char.ofNat_toNat]
      rw [List.map_cons] at ih
      simp [ih]

theorem scanString_quoted (s : String) (cs : List Char) :
    scanString (s.toList.flatMap escape ++ '"' :: cs) = some (some s, cs) := by
  rw [scanString, scanCodes_quoted]
  show some ((textOfCodes? (s.toList.map Char.toNat)).map String.ofList, cs) = _
  rw [textOfCodes?_codes, Option.map_some, String.ofList_toList]

theorem quote_append (s : String) (cs : List Char) :
    quote s ++ cs = '"' :: (s.toList.flatMap escape ++ '"' :: cs) := by
  simp [quote]

/-- What may stand behind a number without going on with it. -/
def EndsNumber (cs : List Char) : Prop :=
  ∀ c ∈ cs.head?, c.isDigit = false ∧ c ≠ '.' ∧ c ≠ 'e' ∧ c ≠ 'E'

theorem scanDigits_digits (n : Nat) {cs : List Char} (hcs : EndsNumber cs) :
    scanDigits (Nat.toDigits 10 n ++ cs) = (Nat.toDigits 10 n, cs) :=
  Text.span_append (fun _ => Text.isDigit_of_mem) fun c hc => (hcs c hc).1

theorem scanWhole_digits (n : Nat) {cs : List Char} (hcs : EndsNumber cs) :
    scanWhole (Nat.toDigits 10 n ++ cs) = some (Nat.toDigits 10 n, cs) := by
  by_cases hn : n = 0
  · subst n
    rfl
  · have hhead := Text.head?_toDigits hn
    have hdigits := scanDigits_digits n hcs
    have hne : (Nat.toDigits 10 n).isEmpty = false := by
      rw [List.isEmpty_eq_false_iff]
      exact Nat.toDigits_ne_nil
    rw [scanWhole]
    · rw [hdigits]
      simp [hne]
    · intro r h
      cases hlist : Nat.toDigits 10 n with
      | nil => exact Nat.toDigits_ne_nil hlist
      | cons c l =>
        rw [hlist] at h hhead
        exact hhead (by rw [(List.cons.inj h).1]; rfl)

theorem scanFraction_none {cs : List Char} (hcs : EndsNumber cs) :
    scanFraction cs = some ([], cs) := by
  cases cs with
  | nil => rfl
  | cons c r =>
    have hpoint : c ≠ '.' := (hcs c rfl).2.1
    rw [scanFraction]
    intro l h
    exact hpoint (List.cons.inj h).1

theorem scanExponent_none {cs : List Char} (hcs : EndsNumber cs) :
    scanExponent cs = some ([], cs) := by
  cases cs with
  | nil => rfl
  | cons c r =>
    obtain ⟨-, -, he, hE⟩ := hcs c rfl
    unfold scanExponent
    apply if_neg
    rintro (h | h)
    · exact he h
    · exact hE h

theorem scanNumber_digits (n : Nat) {cs : List Char} (hcs : EndsNumber cs) :
    scanNumber (Nat.toDigits 10 n ++ cs) = some (.natural n, cs) := by
  have hvalue : digitsValue (Nat.toDigits 10 n) = n := Text.foldl_digits n
  unfold scanNumber
  split
  next sign r hsign =>
    split at hsign
    · next l h =>
      cases hdigits : Nat.toDigits 10 n with
      | nil => exact absurd hdigits Nat.toDigits_ne_nil
      | cons c r =>
        have hdigit : c.isDigit = true := Text.isDigit_of_mem (n := n) (by simp [hdigits])
        rw [hdigits] at h
        rw [(List.cons.inj h).1] at hdigit
        exact absurd hdigit (by decide)
    · obtain ⟨rfl, rfl⟩ := Prod.mk.inj hsign
      simp only [scanWhole_digits n hcs, Option.bind_eq_bind, Option.bind_some,
        scanFraction_none hcs, scanExponent_none hcs, hvalue]
      rfl

end GraphSchema.Json
