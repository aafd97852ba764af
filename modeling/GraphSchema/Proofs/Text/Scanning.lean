import GraphSchema.Json.Parser
import GraphSchema.Sdl.Numeral
import GraphSchema.Text.Hex
import Mathlib.Data.List.TakeDrop

/-!
# Runs of characters and digits

A run of characters of one kind is read up to the first that is not of it, and what is written
in base ten or sixteen is read back as the same number.
-/

namespace GraphSchema.Text

section

variable {α : Type} {p : α → Bool} {w v cs ds : List α}

theorem span_append (hw : ∀ c ∈ w, p c = true)
    (hcs : ∀ c ∈ cs.head?, p c = false) : (w ++ cs).span p = (w, cs) := by
  rw [List.span_eq_takeWhile_dropWhile, List.takeWhile_append_of_pos hw,
    List.dropWhile_append_of_pos hw]
  cases cs with
  | nil => simp
  | cons c r =>
    have hc := hcs c rfl
    simp [hc]

/-- A run of characters of one kind ends where something else is behind it, and so is told by the
whole text. -/
theorem append_inj_of_run (hw : ∀ c ∈ w, p c = true) (hv : ∀ c ∈ v, p c = true)
    (hcs : ∀ c ∈ cs.head?, p c = false) (hds : ∀ c ∈ ds.head?, p c = false)
    (h : w ++ cs = v ++ ds) : w = v ∧ cs = ds := by
  have hspan := span_append hw hcs
  rw [h, span_append hv hds] at hspan
  obtain ⟨hvw, hdscs⟩ := Prod.mk.inj hspan
  exact ⟨hvw.symm, hdscs.symm⟩

end

/-- A decimal text starts with a zero only if it is that zero. -/
theorem head?_toDigits {n : Nat} (hn : n ≠ 0) : (Nat.toDigits 10 n).head? ≠ some '0' := by
  induction n using Nat.strongRecOn with
  | _ n ih =>
    by_cases hlt : n < 10
    · rw [Nat.toDigits_of_lt_base hlt]
      simpa using hn
    · have hle : 10 ≤ n := by omega
      have hrec := ih (n / 10) (by omega) (by omega)
      rw [Nat.toDigits_of_base_le (by decide) hle, List.head?_append]
      cases h : Nat.toDigits 10 (n / 10) with
      | nil => exact absurd h Nat.toDigits_ne_nil
      | cons c r => simpa [h] using hrec

theorem isDigit_of_mem {n : Nat} {c : Char} (h : c ∈ Nat.toDigits 10 n) : c.isDigit = true :=
  Nat.isDigit_of_mem_toDigits (by decide) (by decide) h

theorem foldl_digits (n : Nat) :
    (Nat.toDigits 10 n).foldl (fun n c => n * 10 + (c.toNat - 48)) 0 = n := by
  have h := @Nat.ofDigitChars_ten_toDigits n
  rw [Nat.ofDigitChars_eq_foldl] at h
  have hfun : (fun (n : Nat) (c : Char) => n * 10 + (c.toNat - 48)) =
      fun sofar c => 10 * sofar + (c.toNat - '0'.toNat) := by
    funext n c
    rw [Nat.mul_comm]
    rfl
  rw [hfun]
  exact h

theorem hexValue?_hexDigit : ∀ d, d < 16 → hexValue? (hexDigit d) = some d := by decide

theorem hexValue?_hexDigitUpper : ∀ d, d < 16 → hexValue? (hexDigitUpper d) = some d := by decide

/-- Four digits spell every number of sixteen bits. -/
theorem hexNumber?_hexQuad {digit : Nat → Char}
    (hdigit : ∀ d, d < 16 → hexValue? (digit d) = some d) {n : Nat} (hn : n < 65536) :
    hexNumber? (hexQuad digit n) = some n := by
  have h (m : Nat) : hexValue? (digit (m % 16)) = some (m % 16) :=
    hdigit _ (Nat.mod_lt _ (by decide))
  simp only [hexNumber?, hexQuad, List.foldl_cons, List.foldl_nil, h]
  show some _ = some n
  congr 1
  omega

end GraphSchema.Text
