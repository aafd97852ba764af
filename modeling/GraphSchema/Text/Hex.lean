/-!
# Hexadecimal digits

Reading and writing base-sixteen digits, one character each.
-/

namespace GraphSchema.Text

/-- The value of a hexadecimal digit, in either case. -/
def hexValue? (c : Char) : Option Nat :=
  if '0' ≤ c ∧ c ≤ '9' then some (c.toNat - 48)
  else if 'a' ≤ c ∧ c ≤ 'f' then some (c.toNat - 87)
  else if 'A' ≤ c ∧ c ≤ 'F' then some (c.toNat - 55)
  else none

/-- The number that a run of hexadecimal digits spells, first digit highest. -/
def hexNumber? (digits : List Char) : Option Nat :=
  digits.foldl (fun acc c => do return (← acc) * 16 + (← hexValue? c)) (some 0)

/-- The lower-case digit of a value below sixteen. -/
def hexDigit (n : Nat) : Char := if n < 10 then Char.ofNat (48 + n) else Char.ofNat (87 + n)

/-- The upper-case digit of a value below sixteen. -/
def hexDigitUpper (n : Nat) : Char := if n < 10 then Char.ofNat (48 + n) else Char.ofNat (55 + n)

/-- The lowest four hexadecimal digits of a number, with `digit` writing each. -/
def hexQuad (digit : Nat → Char) (n : Nat) : List Char :=
  [digit (n / 4096 % 16), digit (n / 256 % 16), digit (n / 16 % 16), digit (n % 16)]

end GraphSchema.Text
