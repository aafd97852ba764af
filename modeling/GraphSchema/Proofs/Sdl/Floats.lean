import GraphSchema.Proofs.Sdl.Numerals
import Mathlib.Data.List.TakeWhile

/-!
# The texts of floats

What is printed for a binary64 number is read as that number, unless it is the negative infinity
or its exponent has two digits and starts with a nine, with which no exponent may start.
-/

namespace GraphSchema

namespace Binary64

open Sdl.Numeral

/-- The parts of the text for significant digits and the power of ten of the first. -/
def written (digits : List Char) (e : Int) : Written :=
  if positionalExponents.1 ≤ e ∧ e < positionalExponents.2 then
    if e < 0 then ⟨['0'], List.replicate (-e - 1).toNat '0' ++ digits, none⟩
    else if digits.length ≤ e.toNat + 1 then
      ⟨digits ++ List.replicate (e.toNat + 1 - digits.length) '0', ['0'], none⟩
    else ⟨digits.take (e.toNat + 1), digits.drop (e.toNat + 1), none⟩
  else ⟨digits.take 1, digits.drop 1, some e⟩

theorem layout_eq {digits : List Char} (hne : digits ≠ []) (e : Int) :
    layout digits e = (written digits e).text := by
  unfold layout written
  split
  · split
    · simp [Written.text, hne]
    · simp only
      split
      · simp [Written.text]
      · next hlong =>
        have hdrop : digits.drop (e.toNat + 1) ≠ [] := by
          rw [Ne, List.drop_eq_nil_iff]
          exact hlong
        simp [Written.text, hdrop]
  · cases digits with
    | nil => exact absurd rfl hne
    | cons c r =>
      cases r with
      | nil => simp [Written.text]
      | cons d r => simp [Written.text]

theorem value_decimal_written {digits : List Char} (hne : digits ≠ []) (e : Int) :
    (written digits e).decimal.value = digitsValue digits * (10 : ℚ) ^ (e + 1 - digits.length) := by
  unfold written
  split
  · split
    · next hneg =>
      simp only [Written.decimal, Decimal.value, Option.getD_none, List.length_append,
        List.length_replicate, digitsValue_append, digitsValue_zeros]
      rw [show digitsValue ['0'] = 0 by decide, zero_mul, zero_mul, zero_add, zero_add]
      congr 2
      omega
    · split
      · next hpos hshort =>
        simp only [Written.decimal, Decimal.value, Option.getD_none, digitsValue_append,
          digitsValue_zeros, List.length_replicate, List.length_singleton]
        rw [show digitsValue ['0'] = 0 by decide, add_zero, add_zero]
        push_cast
        rw [mul_assoc, mul_assoc, ← zpow_natCast, ← zpow_one_add₀ (by norm_num),
          ← zpow_add₀ (by norm_num)]
        congr 2
        omega
      · next hpos hlong =>
        simp only [Written.decimal, Decimal.value, Option.getD_none, List.take_append_drop,
          List.length_drop]
        congr 2
        omega
  · simp only [Written.decimal, Decimal.value, Option.getD_some, List.take_append_drop,
      List.length_drop]
    have hlength : 0 < digits.length := List.length_pos_iff.mpr hne
    congr 2
    omega

theorem exponent?_digits : ∀ n < 400, 16 ≤ n → n < 90 ∨ 99 < n →
    (Nat.toDigits 10 n).head?.any (fun c => '1' ≤ c && c ≤ '8') = true := by
  decide +kernel

/-- An exponent is read back unless a nine stands in front. -/
theorem exponent?_toString {e : Int} (hlt : e < 400) (hrange : e < 0 ∨ 16 ≤ e)
    (hnine : e < 90 ∨ 99 < e) : exponent? (toString e).toList = some e := by
  have hvalue : (digitsValue (Nat.toDigits 10 e.natAbs) : Int) = e.natAbs := by
    rw [digitsValue, Text.foldl_digits]
  rw [toList_int]
  by_cases hneg : e < 0
  · rw [decide_eq_true hneg]
    show (if isDigits (Nat.toDigits 10 e.natAbs) = true then _ else _) = _
    rw [if_pos (isDigits_digits _), hvalue]
    congr 1
    omega
  · obtain ⟨c, hc, hrange⟩ := (Option.any_eq_true _ _).mp
      (exponent?_digits e.natAbs (by omega) (by omega) (by omega))
    rw [Bool.and_eq_true, decide_eq_true_eq, decide_eq_true_eq] at hrange
    have hall : ∀ x ∈ Nat.toDigits 10 e.natAbs, x.isDigit = true := fun _ => Text.isDigit_of_mem
    rw [decide_eq_false hneg]
    show exponent? (Nat.toDigits 10 e.natAbs) = _
    cases hdigits : Nat.toDigits 10 e.natAbs with
    | nil => exact absurd hdigits Nat.toDigits_ne_nil
    | cons d r =>
      rw [hdigits] at hc hall hvalue
      obtain rfl : d = c := by simpa using hc
      have hsign : (d == '+') = false ∧ (d == '-') = false := by
        have hdigit := hall d (by simp)
        constructor <;> (rw [beq_eq_false_iff_ne]; rintro rfl; exact absurd hdigit (by decide))
      have hrest : r.all Char.isDigit = true :=
        List.all_eq_true.mpr fun x hx => hall x (by simp [hx])
      simp only [exponent?, hsign.1, hsign.2, Bool.false_eq_true, ↓reduceIte]
      rw [if_pos ⟨hrange.1, hrange.2, hrest⟩, hvalue]
      congr 1
      omega

theorem formed_written {digits : List Char} (hdigits : isDigits digits = true)
    (hzeros : digits.head? ≠ some '0') (e : Int) : (written digits e).Formed := by
  obtain ⟨hne, hall⟩ := isDigits_iff.mp hdigits
  have hprefix {n : Nat} (hn : 0 < n) : isDigits (digits.take n) = true ∧
      (digits.take n).head? = digits.head? := by
    refine ⟨isDigits_iff.mpr ⟨?_, fun x hx => hall x (List.mem_of_mem_take hx)⟩, ?_⟩
    · simp [hne]
      omega
    · rw [List.head?_take, if_neg (by omega)]
  have hsuffix (n : Nat) : ∀ c ∈ digits.drop n, c.isDigit = true :=
    fun c hc => hall c (List.mem_of_mem_drop hc)
  unfold written
  split
  · split
    · refine ⟨rfl, .inl rfl, ?_, .inl (by simp [hne])⟩
      intro c hc
      rcases List.mem_append.mp hc with hc | hc
      · rw [List.eq_of_mem_replicate hc]
        decide
      · exact hall c hc
    · split
      · refine ⟨isDigits_iff.mpr ⟨by simp [hne], ?_⟩, .inr (by simpa [hne] using hzeros), by simp,
          .inl (by simp)⟩
        intro c hc
        rcases List.mem_append.mp hc with hc | hc
        · exact hall c hc
        · rw [List.eq_of_mem_replicate hc]
          decide
      · next hlong =>
        obtain ⟨htake, hhead⟩ := hprefix (Nat.succ_pos e.toNat)
        refine ⟨htake, .inr (by rwa [hhead]), hsuffix _, .inl ?_⟩
        rw [Ne, List.drop_eq_nil_iff]
        exact hlong
  · obtain ⟨htake, hhead⟩ := hprefix Nat.one_pos
    exact ⟨htake, .inr (by rwa [hhead]), hsuffix _, .inr (by simp)⟩

/-- Where there is an exponent, it is the one that is written. -/
theorem exponent_written {digits : List Char} {e e' : Int}
    (he : (written digits e).exponent = some e') : e' = e ∧ (e < -4 ∨ 16 ≤ e) := by
  have hbounds : positionalExponents = (-4, 16) := rfl
  unfold written at he
  rw [hbounds] at he
  split at he
  · split at he
    · exact absurd he (by simp)
    · split at he <;> exact absurd he (by simp)
  · exact ⟨(Option.some.inj he).symm, by simp only at *; omega⟩

theorem valid_written {digits : List Char} (hdigits : isDigits digits = true)
    (hzeros : digits.head? ≠ some '0') {e : Int} (hlt : e < 400) (hnine : e < 90 ∨ 99 < e) :
    (written digits e).Valid := by
  refine ⟨formed_written hdigits hzeros e, fun e' he' => ?_⟩
  obtain ⟨rfl, hrange⟩ := exponent_written he'
  exact exponent?_toString hlt (by omega) hnine

/-- A number without the zeros at the end of its digits. -/
theorem significant {n : Nat} (hn : n ≠ 0) : ∃ digits zeros,
    ((Nat.toDigits 10 n).reverse.dropWhile (· == '0')).reverse = digits ∧
      isDigits digits = true ∧ digits.head? ≠ some '0' ∧
      (Nat.toDigits 10 n).length = digits.length + zeros ∧
      n = digitsValue digits * 10 ^ zeros := by
  have hhead := Text.head?_toDigits hn
  have hvalue : digitsValue (Nat.toDigits 10 n) = n := Text.foldl_digits n
  have hall : ∀ c ∈ Nat.toDigits 10 n, c.isDigit = true := fun _ => Text.isDigit_of_mem
  generalize Nat.toDigits 10 n = all at hhead hvalue hall
  have hsplit := List.takeWhile_append_dropWhile (p := fun c => c == '0') (l := all.reverse)
  have hzeros : ∀ c ∈ all.reverse.takeWhile (· == '0'), c = '0' := fun c hc => by
    simpa using List.mem_takeWhile_imp hc
  generalize all.reverse.takeWhile (· == '0') = zeros at hsplit hzeros
  generalize all.reverse.dropWhile (· == '0') = behind at hsplit
  obtain rfl : all = behind.reverse ++ List.replicate zeros.length '0' := by
    rw [← List.reverse_reverse all, ← hsplit, List.reverse_append,
      List.eq_replicate_of_mem hzeros]
    simp
  have hne : behind.reverse ≠ [] := by
    intro h
    rw [h, List.nil_append] at hhead hvalue
    rw [digitsValue_zeros] at hvalue
    exact hn hvalue.symm
  refine ⟨behind.reverse, zeros.length, rfl, isDigits_iff.mpr ⟨hne, ?_⟩, ?_, by simp, ?_⟩
  · exact fun c hc => hall c (List.mem_append_left _ hc)
  · rwa [List.head?_append_of_ne_nil _ hne] at hhead
  · rw [← hvalue, digitsValue_append, digitsValue_zeros, List.length_replicate, Nat.add_zero]

/-- The text of a decimal is written with some of its digits. -/
theorem exists_written {x : Decimal} (hx : x.digits ≠ 0) : ∃ digits,
    isDigits digits = true ∧ digits.head? ≠ some '0' ∧
      decimalText x = (written digits x.leadingExponent).text ∧
      (written digits x.leadingExponent).decimal.value = x.value := by
  obtain ⟨digits, zeros, hdrop, hdigits, hhead, hlength, hvalue⟩ := significant hx
  have hne := (isDigits_iff.mp hdigits).1
  refine ⟨digits, hdigits, hhead, ?_, ?_⟩
  · rw [← layout_eq hne, decimalText, hdrop]
    rfl
  · rw [value_decimal_written hne, Decimal.value, hvalue, Decimal.leadingExponent, hlength]
    push_cast
    rw [mul_assoc, ← zpow_natCast, ← zpow_add₀ (by norm_num)]
    congr 2
    omega

/-- A number whose text can be read again: it is not the negative infinity, and the exponent that
its text may have does not start with a nine. -/
def IsReadable (x : Binary64) : Prop :=
  if x.isInfinite then x.negative = false
  else x.code = 0 ∨ x.shortest.leadingExponent < 90 ∨ 99 < x.shortest.leadingExponent

instance (x : Binary64) : Decidable x.IsReadable :=
  inferInstanceAs (Decidable (if x.isInfinite then _ = _ else _ ∨ _ ∨ _))

theorem toList_render (x : Binary64) : x.render.toList =
    signed x.negative (if x.code = 0 then ['0', '.', '0']
      else if x.isInfinite then ['i', 'n', 'f']
      else decimalText x.shortest) := by
  rw [render, String.toList_ofList]
  rfl

theorem toList_render_infinite {x : Binary64} (hinfinite : x.isInfinite = true) :
    x.render.toList = signed x.negative ['i', 'n', 'f'] := by
  have hcode : x.code ≠ 0 := by
    intro h
    simp [isInfinite, h] at hinfinite
  rw [toList_render, if_neg hcode, if_pos hinfinite]

theorem render_infinite {x : Binary64} (hx : x.IsReadable) (hinfinite : x.isInfinite = true) :
    x.render = "inf" := by
  rw [IsReadable, if_pos hinfinite] at hx
  apply String.toList_injective
  rw [toList_render_infinite hinfinite, hx]
  rfl

theorem ofDecimal_eq {x : Binary64} {d : Decimal} (h : codeOfDecimal d = x.code) :
    ofDecimal x.negative d = x := by
  obtain ⟨negative, code, hcode⟩ := x
  obtain rfl : codeOfDecimal d = code := h
  rw [ofDecimal, mk.injEq]
  exact ⟨rfl, Nat.min_eq_left hcode⟩

/-- The text of a finite number is a sign and a number that stands for its magnitude. -/
theorem render_formed {x : Binary64} (hfinite : x.isInfinite = false) :
    ∃ w : Written, w.Formed ∧ x.render.toList = signed x.negative w.text ∧
      codeOfDecimal w.decimal = x.code ∧ (x.IsReadable → w.Valid) := by
  rw [toList_render, hfinite, if_neg Bool.false_ne_true]
  by_cases hcode : x.code = 0
  · have hzero : Written.Formed ⟨['0'], ['0'], none⟩ := ⟨rfl, .inl rfl, by simp, .inl (by simp)⟩
    refine ⟨_, hzero, ?_, hcode.symm, fun _ => ⟨hzero, by simp⟩⟩
    rw [if_pos hcode]
    rfl
  · obtain ⟨digits, hdigits, hhead, htext, hvalue⟩ :=
      exists_written (shortest_digits_ne_zero hfinite hcode)
    refine ⟨_, formed_written hdigits hhead _, by rw [if_neg hcode, htext], ?_, fun hx => ?_⟩
    · rw [codeOfDecimal_congr hvalue, codeOfDecimal_shortest x hfinite]
    · rw [IsReadable, hfinite, if_neg Bool.false_ne_true] at hx
      exact valid_written hdigits hhead (leadingExponent_shortest_lt hfinite hcode)
        (hx.resolve_left hcode)

theorem exponent?_nine : ∀ n : Nat, n < 100 → 90 ≤ n →
    exponent? (toString (n : Int)).toList = none := by
  decide +kernel

/-- The text of any other number is none that a number is read from. -/
theorem value?_unreadable {x : Binary64} (hx : ¬ x.IsReadable) :
    value? x.render.toList = none := by
  cases hinfinite : x.isInfinite with
  | true =>
    rw [IsReadable, if_pos hinfinite, Bool.not_eq_false] at hx
    rw [toList_render_infinite hinfinite, hx]
    rfl
  | false =>
    rw [IsReadable, if_neg (by simp [hinfinite]), not_or, not_or] at hx
    obtain ⟨hcode, hlow, hhigh⟩ := hx
    obtain ⟨digits, hdigits, hhead, htext, -⟩ :=
      exists_written (shortest_digits_ne_zero hinfinite hcode)
    have hexponent : (written digits x.shortest.leadingExponent).exponent =
        some x.shortest.leadingExponent := by
      have hbounds : positionalExponents = (-4, 16) := rfl
      rw [written, hbounds, if_neg (by simp only; omega)]
    have hnone := exponent?_nine x.shortest.leadingExponent.toNat (by omega) (by omega)
    rw [Int.toNat_of_nonneg (by omega)] at hnone
    rw [toList_render, if_neg hcode, if_neg (by simp [hinfinite]), htext]
    exact (formed_written hdigits hhead _).value?_eq_none hexponent hnone _

theorem head?_ne_sign_text {w : Written} (hw : w.Formed) : w.text.head? ≠ some '-' := by
  rw [Written.text_eq]
  exact head?_ne_sign hw.whole _

/-- The texts of an infinity and of a finite number are different. -/
theorem signed_inf_ne {w : Written} (hw : w.Formed) (negative other : Bool) :
    signed negative ['i', 'n', 'f'] ≠ signed other w.text := by
  intro h
  obtain ⟨-, htext⟩ := signed_inj (by decide) (head?_ne_sign_text hw) h
  obtain ⟨hne, hdigits⟩ := isDigits_iff.mp hw.whole
  rw [Written.text_eq] at htext
  cases hwhole : w.whole with
  | nil => exact hne hwhole
  | cons c r =>
    rw [hwhole, List.cons_append] at htext
    have hdigit := hdigits c (by simp [hwhole])
    rw [← (List.cons.inj htext).1] at hdigit
    exact absurd hdigit (by decide)

/-- No two numbers have the same text. -/
theorem render_injective : Function.Injective render := by
  intro x y h
  have htexts := congrArg String.toList h
  have hparts : x.negative = y.negative ∧ x.code = y.code := by
    cases hx : x.isInfinite with
    | true =>
      rw [toList_render_infinite hx] at htexts
      cases hy : y.isInfinite with
      | true =>
        rw [toList_render_infinite hy] at htexts
        obtain ⟨hnegative, -⟩ := signed_inj (by decide) (by decide) htexts
        rw [isInfinite, beq_iff_eq] at hx hy
        exact ⟨hnegative, hx.trans hy.symm⟩
      | false =>
        obtain ⟨w, hw, hwtext, -, -⟩ := render_formed hy
        exact absurd (htexts.trans hwtext) (signed_inf_ne hw _ _)
    | false =>
      obtain ⟨w, hw, hwtext, hwcode, -⟩ := render_formed hx
      cases hy : y.isInfinite with
      | true =>
        rw [toList_render_infinite hy] at htexts
        exact absurd (htexts.symm.trans hwtext) (signed_inf_ne hw _ _)
      | false =>
        obtain ⟨v, hv, hvtext, hvcode, -⟩ := render_formed hy
        rw [hwtext, hvtext] at htexts
        obtain ⟨hnegative, htext⟩ :=
          signed_inj (head?_ne_sign_text hw) (head?_ne_sign_text hv) htexts
        rw [hw.text_inj hv htext] at hwcode
        exact ⟨hnegative, hwcode.symm.trans hvcode⟩
  obtain ⟨negative, code, hcode⟩ := x
  obtain ⟨negative', code', hcode'⟩ := y
  rw [mk.injEq]
  exact hparts

/-- The text of a readable number is read as that number. -/
theorem value?_render {x : Binary64} (hx : x.IsReadable) (hfinite : x.isInfinite = false) :
    value? x.render.toList = some (.float x) := by
  obtain ⟨w, -, htext, hcode, hvalid⟩ := render_formed hfinite
  rw [htext, Written.value?_text (hvalid hx), ofDecimal_eq hcode]

end Binary64

end GraphSchema
