/-!
# Blank characters

The characters with the Unicode property `White_Space`. There are 25 of them,
and they are wider than the six that core's `Char.isWhitespace` knows.
-/

namespace GraphSchema.Text

/-- Whether a character has the Unicode property `White_Space`. -/
def isBlank (c : Char) : Bool :=
  let n := c.toNat
  (9 ≤ n && n ≤ 13) || n == 0x20 || n == 0x85 || n == 0xA0 || n == 0x1680 ||
    (0x2000 ≤ n && n ≤ 0x200A) || n == 0x2028 || n == 0x2029 || n == 0x202F ||
    n == 0x205F || n == 0x3000

/-- Every character of core's class is blank. -/
theorem isBlank_of_isWhitespace {c : Char} (h : c.isWhitespace = true) : isBlank c = true := by
  simp only [Char.isWhitespace, Bool.or_eq_true, decide_eq_true_eq] at h
  rcases h with ((rfl | rfl) | rfl) | rfl <;> decide

/-- Whether a text holds blank characters only. -/
def isBlankText (s : List Char) : Bool := s.all isBlank

end GraphSchema.Text
