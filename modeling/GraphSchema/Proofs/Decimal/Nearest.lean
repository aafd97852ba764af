import GraphSchema.Decimal.Binary64
import Mathlib.Algebra.Order.Floor.Semifield
import Mathlib.Data.Int.Log
import Mathlib.Data.Rat.Floor
import Mathlib.Tactic.FieldSimp
import Mathlib.Tactic.Linarith
import Mathlib.Tactic.NormNum
import Mathlib.Tactic.Positivity
import Mathlib.Algebra.Order.Field.Power

/-!
# Nearest codes

The code of a fraction is a function of its value, and so is that of a decimal: neither common
factors nor zeros at the end of the digits matter. The value of a finite number has its own code.
-/

namespace GraphSchema

theorem scaleDown_pos (num : Nat) {base den : Nat} (hbase : 0 < base) (hden : 0 < den) (k : Int) :
    0 < (scaleDown base num den k).2 := by
  unfold scaleDown
  split
  · exact Nat.mul_pos hden (Nat.pow_pos hbase)
  · exact hden

theorem scaleDown_div (num den : Nat) {base : Nat} (hbase : 0 < base) (k : Int) :
    ((scaleDown base num den k).1 : ℚ) / (scaleDown base num den k).2 =
      (num : ℚ) / den / (base : ℚ) ^ k := by
  have hne : (base : ℚ) ≠ 0 := by exact_mod_cast hbase.ne'
  unfold scaleDown
  split
  · next hk =>
    obtain ⟨n, rfl⟩ := Int.eq_ofNat_of_zero_le hk
    simp [div_div]
  · next hk =>
    obtain ⟨n, rfl⟩ : ∃ n : Nat, k = -n := ⟨(-k).toNat, by omega⟩
    simp
    ring

/-- The natural number nearest to a rational one that is not negative, a half going to the even
one. -/
def nearestEven (r : ℚ) : Nat :=
  let q := ⌊r⌋₊
  if r - q < 1 / 2 then q else if 1 / 2 < r - q then q + 1 else q + q % 2

theorem roundHalfEven_eq (num : Nat) {den : Nat} (hden : 0 < den) :
    roundHalfEven num den = nearestEven (num / den) := by
  have hpos : (0 : ℚ) < den := by exact_mod_cast hden
  have hfloor : ⌊(num : ℚ) / den⌋₊ = num / den := Nat.floor_div_eq_div num den
  have hrest : (num : ℚ) / den - (num / den : Nat) = (num % den : Nat) / den := by
    have h : (num : ℚ) = den * (num / den : Nat) + (num % den : Nat) := by
      exact_mod_cast (Nat.div_add_mod num den).symm
    field_simp
    linarith
  have hless : (num : ℚ) / den - (num / den : Nat) < 1 / 2 ↔ 2 * (num % den) < den := by
    rw [hrest, div_lt_div_iff₀ hpos (by norm_num), one_mul, mul_comm]
    exact_mod_cast Iff.rfl
  have hmore : 1 / 2 < (num : ℚ) / den - (num / den : Nat) ↔ den < 2 * (num % den) := by
    rw [hrest, div_lt_div_iff₀ (by norm_num) hpos, one_mul, mul_comm]
    exact_mod_cast Iff.rfl
  simp only [roundHalfEven, nearestEven, hfloor, hless, hmore]

theorem nearestEven_natCast (n : Nat) : nearestEven n = n := by
  simp [nearestEven]

theorem nearestEven_of_lt {r : ℚ} (h : r < 1 / 2) : nearestEven r = 0 := by
  have hfloor : ⌊r⌋₊ = 0 := Nat.floor_eq_zero.mpr (h.trans (by norm_num))
  simp [nearestEven, hfloor]
  intro hge
  norm_num at h
  linarith

theorem le_nearestEven {r : ℚ} {n : Nat} (h : (n : ℚ) ≤ r) : n ≤ nearestEven r := by
  have hfloor : n ≤ ⌊r⌋₊ := Nat.le_floor h
  unfold nearestEven
  simp only
  split_ifs <;> omega

theorem log_eq_iff {r : ℚ} (hr : 0 < r) {k : Int} :
    Int.log 2 r = k ↔ (2 : ℚ) ^ k ≤ r ∧ r < (2 : ℚ) ^ (k + 1) := by
  have hle := Int.zpow_le_iff_le_log (b := 2) (by norm_num) hr (x := k)
  have hlt := Int.lt_zpow_iff_log_lt (b := 2) (by norm_num) hr (x := k + 1)
  push_cast at hle hlt
  rw [hle, hlt]
  omega

theorem binaryOrder_eq {num den : Nat} (hnum : 0 < num) (hden : 0 < den) :
    binaryOrder num den = Int.log 2 ((num : ℚ) / den) := by
  have hn : (0 : ℚ) < num := by exact_mod_cast hnum
  have hd : (0 : ℚ) < den := by exact_mod_cast hden
  have hbound (n : Nat) (h : 0 < n) : (2 : ℚ) ^ n.log2 ≤ n ∧ (n : ℚ) < 2 ^ (n.log2 + 1) :=
    ⟨by exact_mod_cast Nat.log2_self_le h.ne', by exact_mod_cast Nat.lt_log2_self⟩
  obtain ⟨hnumLow, hnumHigh⟩ := hbound num hnum
  obtain ⟨hdenLow, hdenHigh⟩ := hbound den hden
  generalize hk : (num.log2 : Int) - den.log2 = k
  have hpos : (0 : ℚ) < 2 ^ k := by positivity
  have hkpow : (2 : ℚ) ^ k = 2 ^ num.log2 / 2 ^ den.log2 := by
    rw [← hk, zpow_sub₀ (by norm_num), zpow_natCast, zpow_natCast]
  have hlow : (2 : ℚ) ^ (k - 1) ≤ (num : ℚ) / den := by
    rw [zpow_sub_one₀ (by norm_num), hkpow, le_div_iff₀ hd]
    calc (2 : ℚ) ^ num.log2 / 2 ^ den.log2 * 2⁻¹ * den
        ≤ 2 ^ num.log2 / 2 ^ den.log2 * 2⁻¹ * 2 ^ (den.log2 + 1) := by gcongr
      _ = 2 ^ num.log2 := by rw [pow_succ]; field_simp
      _ ≤ num := hnumLow
  have hhigh : (num : ℚ) / den < 2 ^ (k + 1) := by
    rw [zpow_add_one₀ (by norm_num), hkpow, div_lt_iff₀ hd]
    calc (num : ℚ) < 2 ^ (num.log2 + 1) := hnumHigh
      _ = 2 ^ num.log2 / 2 ^ den.log2 * 2 * 2 ^ den.log2 := by rw [pow_succ]; field_simp
      _ ≤ 2 ^ num.log2 / 2 ^ den.log2 * 2 * den := by gcongr
  have hratio := scaleDown_div num den Nat.two_pos k
  have hscaled := scaleDown_pos num Nat.two_pos hden k
  have hatLeast : (scaleDown 2 num den k).2 ≤ (scaleDown 2 num den k).1 ↔
      (2 : ℚ) ^ k ≤ (num : ℚ) / den := by
    rw [← one_le_div (b := ((2 : ℚ) ^ k)) hpos]
    push_cast at hratio
    rw [← hratio, one_le_div (by exact_mod_cast hscaled)]
    exact_mod_cast Iff.rfl
  have hdiv : (0 : ℚ) < (num : ℚ) / den := by positivity
  symm
  rw [log_eq_iff hdiv]
  simp only [binaryOrder, hk, hatLeast]
  split
  · next h => exact ⟨h, hhigh⟩
  · next h => exact ⟨hlow, by simpa using h⟩

namespace Binary64

/-- The code of the number nearest to a rational one that is not negative. -/
def codeOfRatio (r : ℚ) : Nat :=
  if r = 0 then 0 else
    let q := max (Int.log 2 r - 52) (-1074)
    min infinityCode ((q + 1074).toNat * 2 ^ 52 + nearestEven (r / (2 : ℚ) ^ q))

theorem nearestCode_eq (num : Nat) {den : Nat} (hden : 0 < den) :
    nearestCode num den = codeOfRatio (num / den) := by
  have hd : (den : ℚ) ≠ 0 := by exact_mod_cast hden.ne'
  unfold nearestCode codeOfRatio
  by_cases hnum : num = 0
  · simp [hnum]
  · have hne : (num : ℚ) / den ≠ 0 := by simp [hnum, hd]
    rw [if_neg hnum, if_neg hne, binaryOrder_eq (Nat.pos_of_ne_zero hnum) hden]
    simp only [Nat.pow_eq]
    rw [roundHalfEven_eq _ (scaleDown_pos _ (by norm_num) hden _), scaleDown_div _ _ (by norm_num)]
    simp

theorem codeOfRatio_huge {r : ℚ} (h : (2 : ℚ) ^ (1024 : Int) ≤ r) :
    codeOfRatio r = infinityCode := by
  have hr : 0 < r := lt_of_lt_of_le (by positivity) h
  have hlog : 1024 ≤ Int.log 2 r :=
    (Int.zpow_le_iff_le_log (b := 2) (by norm_num) hr).mp (by exact_mod_cast h)
  have hq : max (Int.log 2 r - 52) (-1074) = Int.log 2 r - 52 := by omega
  have hself := Int.zpow_log_le_self (b := 2) (by norm_num) hr
  have hround : 2 ^ 52 ≤ nearestEven (r / (2 : ℚ) ^ (Int.log 2 r - 52)) := by
    apply le_nearestEven
    rw [zpow_sub₀ (by norm_num), le_div_iff₀ (by positivity)]
    push_cast at hself ⊢
    calc (2 : ℚ) ^ 52 * (2 ^ Int.log 2 r / 2 ^ (52 : Int)) = 2 ^ Int.log 2 r := by
          rw [show ((2 : ℚ) ^ (52 : Int)) = 2 ^ (52 : Nat) from zpow_natCast 2 52]
          field_simp
      _ ≤ r := hself
  unfold codeOfRatio
  simp only [if_neg hr.ne', hq]
  have hbig : infinityCode ≤ (Int.log 2 r - 52 + 1074).toNat * 2 ^ 52 +
      nearestEven (r / (2 : ℚ) ^ (Int.log 2 r - 52)) := by
    have hstep : 2046 ≤ (Int.log 2 r - 52 + 1074).toNat := by omega
    have hmul := Nat.mul_le_mul_right (2 ^ 52) hstep
    have hcode : infinityCode = 2046 * 2 ^ 52 + 2 ^ 52 := by norm_num [infinityCode]
    rw [hcode]
    exact Nat.add_le_add hmul hround
  exact Nat.min_eq_left hbig

theorem codeOfRatio_tiny {r : ℚ} (hr : 0 ≤ r) (h : r < (2 : ℚ) ^ (-1100 : Int)) :
    codeOfRatio r = 0 := by
  unfold codeOfRatio
  split
  · rfl
  · next hne =>
    have hpos : 0 < r := lt_of_le_of_ne hr (Ne.symm hne)
    have hlog : Int.log 2 r < -1100 :=
      (Int.lt_zpow_iff_log_lt (b := 2) (by norm_num) hpos).mp (by exact_mod_cast h)
    have hq : max (Int.log 2 r - 52) (-1074) = -1074 := by omega
    have hround : nearestEven (r / (2 : ℚ) ^ (-1074 : Int)) = 0 := by
      apply nearestEven_of_lt
      rw [div_lt_iff₀ (by positivity)]
      calc r < (2 : ℚ) ^ (-1100 : Int) := h
        _ ≤ (2 : ℚ) ^ (-1075 : Int) := zpow_le_zpow_right₀ (by norm_num) (by norm_num)
        _ = 1 / 2 * (2 : ℚ) ^ (-1074 : Int) := by
          rw [show (-1075 : Int) = -1 + -1074 by norm_num, zpow_add₀ (by norm_num)]
          norm_num
    simp only [hq, hround]
    simp

end Binary64

/-- The number that a decimal spells. -/
def Decimal.value (x : Decimal) : ℚ := x.digits * (10 : ℚ) ^ x.exponent

namespace Binary64

theorem two_pow_le_ten_pow : (2 : ℚ) ^ (1024 : Int) ≤ 10 ^ (400 : Int) := calc
  (2 : ℚ) ^ (1024 : Int) ≤ 2 ^ (3 * 400 : Int) := zpow_le_zpow_right₀ (by norm_num) (by norm_num)
  _ = (2 ^ (3 : Int)) ^ (400 : Int) := zpow_mul ..
  _ ≤ 10 ^ (400 : Int) := zpow_le_zpow_left₀ (by norm_num) (by positivity) (by norm_num)

theorem codeOfDecimal_eq (x : Decimal) : codeOfDecimal x = codeOfRatio x.value := by
  unfold codeOfDecimal Decimal.value
  split
  · next h => simp [h, codeOfRatio]
  · next h =>
    have hdigits : (1 : ℚ) ≤ x.digits := by exact_mod_cast Nat.pos_of_ne_zero h
    split
    · next hlarge =>
      refine (codeOfRatio_huge ?_).symm
      calc (2 : ℚ) ^ (1024 : Int) ≤ 10 ^ (400 : Int) := two_pow_le_ten_pow
        _ ≤ 10 ^ x.exponent := zpow_le_zpow_right₀ (by norm_num) hlarge.le
        _ ≤ x.digits * 10 ^ x.exponent := le_mul_of_one_le_left (by positivity) hdigits
    · split
      · next hsmall =>
        obtain ⟨n, hn⟩ : ∃ n : Nat, x.exponent = -n := ⟨(-x.exponent).toNat, by omega⟩
        have hlog : (x.digits : ℚ) < 2 ^ ((x.digits.log2 : Int) + 1) := by
          have hself : x.digits < 2 ^ (x.digits.log2 + 1) := Nat.lt_log2_self
          exact_mod_cast hself
        have hten : (10 : ℚ) ^ x.exponent ≤ 2 ^ (3 * x.exponent) := by
          rw [hn, zpow_mul, zpow_neg, zpow_neg]
          apply inv_anti₀ (by positivity)
          norm_cast
          exact Nat.pow_le_pow_left (by norm_num) n
        refine (codeOfRatio_tiny (by positivity) ?_).symm
        calc (x.digits : ℚ) * 10 ^ x.exponent
            < 2 ^ ((x.digits.log2 : Int) + 1) * 2 ^ (3 * x.exponent) :=
              mul_lt_mul hlog hten (by positivity) (by positivity)
          _ = 2 ^ ((x.digits.log2 : Int) + 1 + 3 * x.exponent) := (zpow_add₀ (by norm_num) _ _).symm
          _ ≤ 2 ^ (-1100 : Int) := zpow_le_zpow_right₀ (by norm_num) (by omega)
      · have hscale := scaleDown_div x.digits 1 (show 0 < 10 by norm_num) (-x.exponent)
        have hpos := scaleDown_pos x.digits (show 0 < 10 by norm_num) Nat.one_pos
          (-x.exponent)
        simp only
        rw [nearestCode_eq _ hpos, hscale]
        simp

/-- Decimals of one value are read as one number. -/
theorem codeOfDecimal_congr {x y : Decimal} (h : x.value = y.value) :
    codeOfDecimal x = codeOfDecimal y := by
  rw [codeOfDecimal_eq, codeOfDecimal_eq, h]

/-- The magnitude of a finite number. -/
def value (x : Binary64) : ℚ := x.magnitude.1 * (2 : ℚ) ^ x.magnitude.2

theorem toFraction_div (x : Binary64) :
    0 < x.toFraction.2 ∧ (x.toFraction.1 : ℚ) / x.toFraction.2 = x.value := by
  refine ⟨scaleDown_pos _ (by norm_num) (by norm_num) _, ?_⟩
  unfold toFraction value
  rw [scaleDown_div _ _ (by norm_num)]
  simp

/-- A number whose significand is in range for its exponent has the code of the two. -/
theorem codeOfRatio_scaled {m : Nat} {q : Int} (hm : 0 < m) (hlt : m < 2 ^ 53)
    (hq : -1074 ≤ q) (hnorm : 2 ^ 52 ≤ m ∨ q = -1074) :
    codeOfRatio (m * (2 : ℚ) ^ q) = min infinityCode ((q + 1074).toNat * 2 ^ 52 + m) := by
  have hmpos : (0 : ℚ) < m := by exact_mod_cast hm
  have hpos : (0 : ℚ) < m * (2 : ℚ) ^ q := by positivity
  have hless : Int.log 2 ((m : ℚ) * (2 : ℚ) ^ q) < 53 + q := by
    apply (Int.lt_zpow_iff_log_lt (b := 2) (by norm_num) hpos).mp
    push_cast
    rw [zpow_add₀ (by norm_num)]
    have h : (m : ℚ) < (2 : ℚ) ^ (53 : Int) := by exact_mod_cast hlt
    gcongr
  have hscale : max (Int.log 2 ((m : ℚ) * (2 : ℚ) ^ q) - 52) (-1074) = q := by
    rcases hnorm with hlarge | rfl
    · have hmore : 52 + q ≤ Int.log 2 ((m : ℚ) * (2 : ℚ) ^ q) := by
        apply (Int.zpow_le_iff_le_log (b := 2) (by norm_num) hpos).mp
        push_cast
        rw [zpow_add₀ (by norm_num)]
        have h : (2 : ℚ) ^ (52 : Int) ≤ m := by exact_mod_cast hlarge
        gcongr
      omega
    · omega
  have hround : nearestEven ((m : ℚ) * (2 : ℚ) ^ q / (2 : ℚ) ^ q) = m := by
    rw [mul_div_assoc, div_self (by positivity), mul_one, nearestEven_natCast]
  unfold codeOfRatio
  simp only [if_neg hpos.ne', hscale, hround]

/-- The value of a finite number is nearest to itself. -/
theorem codeOfRatio_value (x : Binary64) (hx : x.isInfinite = false) :
    codeOfRatio x.value = x.code := by
  have hfinite : x.code < infinityCode := by
    have hne : x.code ≠ infinityCode := by simpa [isInfinite] using hx
    exact lt_of_le_of_ne x.code_le hne
  have hsplit := Nat.div_add_mod x.code (2 ^ 52)
  have hmod : x.code % 2 ^ 52 < 2 ^ 52 := Nat.mod_lt _ (by norm_num)
  unfold value magnitude
  simp only [Nat.pow_eq]
  split
  · next he =>
    rw [he] at hsplit
    by_cases hf : x.code % 2 ^ 52 = 0
    · simp only [hf]
      simp [codeOfRatio]
      omega
    · rw [codeOfRatio_scaled (Nat.pos_of_ne_zero hf) (by omega) (by omega) (.inr rfl)]
      simp only [show ((-1074 : Int) + 1074).toNat = 0 by norm_num]
      omega
  · next he =>
    rw [codeOfRatio_scaled (by omega) (by omega) (by omega) (.inl (by omega))]
    have hexp : ((x.code / 2 ^ 52 : Nat) - 1075 + 1074 : Int).toNat = x.code / 2 ^ 52 - 1 := by
      omega
    rw [hexp, Nat.min_eq_right (by omega)]
    omega

end Binary64

end GraphSchema
