import GraphSchema.Decimal.Shortest
import GraphSchema.Proofs.Decimal.Nearest
import GraphSchema.Proofs.Text.Scanning

/-!
# Shortest decimals are read back

Every decimal that the search returns has been tried, and the one behind the search is exact, so
the shortest decimal of a finite number is read as that number.
-/

namespace GraphSchema

/-- The power of ten of the first digit. -/
def Decimal.leadingExponent (x : Decimal) : Int :=
  x.exponent + (Nat.toDigits 10 x.digits).length - 1

theorem Decimal.le_value {x : Decimal} (h : x.digits ≠ 0) :
    (10 : ℚ) ^ x.leadingExponent ≤ x.value := by
  obtain ⟨n, hn⟩ : ∃ n, (Nat.toDigits 10 x.digits).length = n + 1 :=
    Nat.exists_eq_succ_of_ne_zero Nat.length_toDigits_pos.ne'
  have hpower : 10 ^ n ≤ x.digits := by
    rcases Nat.eq_zero_or_pos n with rfl | hpos
    · exact Nat.one_le_iff_ne_zero.mpr h
    · by_contra hlt
      have hle := (Nat.length_toDigits_le_iff (by decide) hpos).mpr (Nat.lt_of_not_le hlt)
      omega
  have hexponent : x.leadingExponent = n + x.exponent := by
    unfold leadingExponent
    omega
  rw [hexponent, zpow_add₀ (by norm_num), zpow_natCast, value]
  gcongr
  exact_mod_cast hpower

namespace Binary64

theorem codeOfDecimal_neighbour {code num den : Nat} {exponent : Int} {x : Decimal}
    (h : neighbour? code num den exponent = some x) : codeOfDecimal x = code := by
  unfold neighbour? at h
  simp only at h
  split at h
  · next hbelow habove =>
    obtain rfl := Option.some.inj h
    split
    · exact eq_of_beq habove
    · exact eq_of_beq hbelow
  · next hbelow _ =>
    obtain rfl := Option.some.inj h
    exact eq_of_beq hbelow
  · next _ habove =>
    obtain rfl := Option.some.inj h
    exact eq_of_beq habove
  · exact absurd h (by simp)

theorem toFraction_eq (x : Binary64) : ∃ k, x.toFraction.2 = 2 ^ k := by
  unfold toFraction scaleDown
  split
  · exact ⟨(-x.magnitude.2).toNat, by simp⟩
  · exact ⟨0, rfl⟩

/-- The shortest decimal of a finite number is read as that number. -/
theorem codeOfDecimal_shortest (x : Binary64) (hx : x.isInfinite = false) :
    codeOfDecimal x.shortest = x.code := by
  obtain ⟨hpos, hvalue⟩ := x.toFraction_div
  obtain ⟨k, hk⟩ := x.toFraction_eq
  unfold shortest
  simp only
  generalize decimalOrder x.toFraction.1 x.toFraction.2 + 1 = top
  cases hfound : (List.range 17).findSome? fun n =>
      neighbour? x.code x.toFraction.1 x.toFraction.2 (top - (n + 1 : Nat)) with
  | some d =>
    obtain ⟨n, -, hn⟩ := List.exists_of_findSome?_eq_some hfound
    exact codeOfDecimal_neighbour hn
  | none =>
    -- The denominator is a power of two, so the fraction is a decimal of as many places.
    rw [Option.getD_none, codeOfDecimal_eq, ← codeOfRatio_value x hx, ← hvalue, hk]
    congr 1
    unfold Decimal.value
    simp only [Nat.log2_two_pow]
    rw [zpow_neg, zpow_natCast]
    push_cast [Nat.pow_eq]
    rw [show (10 : ℚ) = 2 * 5 by norm_num, mul_pow]
    field_simp

theorem shortest_digits_ne_zero {x : Binary64} (hx : x.isInfinite = false) (hcode : x.code ≠ 0) :
    x.shortest.digits ≠ 0 := by
  intro h
  have hread := codeOfDecimal_shortest x hx
  rw [codeOfDecimal, if_pos h] at hread
  exact hcode hread.symm

/-- No finite number has four hundred digits before the point. -/
theorem leadingExponent_shortest_lt {x : Binary64} (hx : x.isInfinite = false)
    (hcode : x.code ≠ 0) : x.shortest.leadingExponent < 400 := by
  by_contra hge
  have hdigits := shortest_digits_ne_zero hx hcode
  have hlarge : (2 : ℚ) ^ (1024 : Int) ≤ x.shortest.value := calc
    (2 : ℚ) ^ (1024 : Int) ≤ 10 ^ (400 : Int) := two_pow_le_ten_pow
    _ ≤ 10 ^ x.shortest.leadingExponent := zpow_le_zpow_right₀ (by norm_num) (by omega)
    _ ≤ x.shortest.value := Decimal.le_value hdigits
  have hcode := codeOfDecimal_shortest x hx
  rw [codeOfDecimal_eq, codeOfRatio_huge hlarge] at hcode
  exact absurd hx (by simp [isInfinite, ← hcode])

end Binary64

end GraphSchema
