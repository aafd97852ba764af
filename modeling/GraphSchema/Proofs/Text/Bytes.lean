import Mathlib.Data.List.Basic

/-!
# Bytes of texts

The bytes of a text tell the text. A text without zero characters has no zero byte, so that one may
stand behind it as a mark.
-/

namespace GraphSchema.Text

theorem toList_byteArray (bs : ByteArray) : bs.toList = bs.data.toList := by
  have hloop : ∀ i r, ByteArray.toList.loop bs i r = r.reverse ++ bs.data.toList.drop i := by
    intro i r
    induction i, r using ByteArray.toList.loop.induct bs with
    | case1 i r hi ih =>
      have hlength : i < bs.data.toList.length := by simpa using hi
      have hget : bs.get! i = bs.data.toList[i] := getElem!_pos bs.data i hi
      rw [ByteArray.toList.loop, if_pos hi, ih, List.drop_eq_getElem_cons hlength, hget,
        List.reverse_cons, List.append_assoc, List.singleton_append]
    | case2 i r hi =>
      rw [ByteArray.toList.loop, if_neg hi, List.drop_eq_nil_of_le, List.append_nil]
      simpa using hi
  exact hloop 0 []

theorem toList_toUTF8 (s : String) : s.toUTF8.toList = s.toList.flatMap String.utf8EncodeChar := by
  rw [toList_byteArray, String.toUTF8_eq_toByteArray, ← String.utf8Encode_toList, List.utf8Encode,
    List.toList_data_toByteArray]

theorem toUTF8_inj {s u : String} (h : s.toUTF8.toList = u.toUTF8.toList) : s = u := by
  rw [toList_byteArray, toList_byteArray, Array.toList_inj, ← ByteArray.ext_iff] at h
  exact String.toByteArray_inj.mp h

theorem zero_notMem_utf8EncodeChar {c : Char} (hc : c ≠ '\x00') :
    (0 : UInt8) ∉ String.utf8EncodeChar c := by
  have hpos : c.val.toNat ≠ 0 := by
    intro hzero
    exact hc (Char.ext (UInt32.toNat_inj.mp hzero))
  have hbyte : ∀ n : Nat, (0 : UInt8) = UInt8.ofNat n → n % 256 = 0 := by
    intro n hn
    exact (UInt8.toNat_ofNat' ▸ congrArg UInt8.toNat hn).symm
  -- The marks in front of the bits of a longer character are not zero.
  intro hmem
  unfold String.utf8EncodeChar at hmem
  dsimp only at hmem
  split at hmem
  · have := hbyte _ (List.mem_singleton.mp hmem)
    omega
  · split at hmem
    · simp only [List.mem_cons, List.not_mem_nil, or_false] at hmem
      rcases hmem with h | h <;> have := hbyte _ h <;> omega
    · split at hmem
      · simp only [List.mem_cons, List.not_mem_nil, or_false] at hmem
        rcases hmem with h | h | h <;> have := hbyte _ h <;> omega
      · simp only [List.mem_cons, List.not_mem_nil, or_false] at hmem
        rcases hmem with h | h | h | h <;> have := hbyte _ h <;> omega

/-- Only the zero character has a zero byte. -/
theorem zero_notMem_toUTF8 {s : String} (h : '\x00' ∉ s.toList) :
    (0 : UInt8) ∉ s.toUTF8.toList := by
  rw [toList_toUTF8]
  intro hmem
  obtain ⟨c, hc, hzero⟩ := List.mem_flatMap.mp hmem
  exact zero_notMem_utf8EncodeChar (fun heq => h (heq ▸ hc)) hzero

end GraphSchema.Text
