import GraphSchema.Decimal.Binary64
import GraphSchema.Json.Parser

/-!
# Bounds on JSON values

A reader that keeps a value as it is, before it knows what the value is for, can
be held to bounds. Arrays and objects stand in each other to some depth only,
strings and keys are texts, and numbers are in range.

A number is kept as its leading digits, scaled by a power of ten. The digits and
the power are rounded apart, so what is in range is decided by their product and
may differ by a little from what the whole number would say.
-/

namespace GraphSchema.Json

/-- Digits appended to a number as long as it stays below 2 ^ 64, and the digits left over. -/
def absorb (n : Nat) : List Char → Nat × List Char
  | [] => (n, [])
  | c :: r =>
      let m := n * 10 + (c.toNat - 48)
      if m < UInt64.size then absorb m r else (n, c :: r)

/-- The leading digits of the number that a literal spells, and their power of ten. Of a digit
that is left out only its place counts. -/
def leadingDigits (literal : String) : Decimal :=
  let (mantissa, mark) := literal.toList.span fun c => c != 'e' && c != 'E'
  let (before, behind) := mantissa.span (· != '.')
  let (n, dropped) := absorb 0 (before.filter Char.isDigit)
  let fraction := behind.filter Char.isDigit
  let (n, unused) := absorb n fraction
  let written := digitsValue (mark.filter Char.isDigit)
  let exponent : Int := if mark.contains '-' then -(written : Int) else written
  ⟨n, exponent + dropped.length - (fraction.length - unused.length)⟩

/-- The greatest power of ten among the binary64 numbers. -/
def greatestPower : Int := 308

/-- Whether leading digits times their power of ten are less than infinity. -/
def isInRange (x : Decimal) : Bool :=
  let digits := Binary64.ofDecimal false ⟨x.digits, 0⟩
  let power := Binary64.ofDecimal false ⟨1, x.exponent⟩
  x.digits = 0 || x.exponent < 0 ||
    (x.exponent ≤ greatestPower &&
      Binary64.codeOfProduct digits power < Binary64.infinityCode)

mutual

/-- Whether a value has texts and numbers in range alone. -/
def isReadable : Json → Bool
  | .natural n => isInRange (leadingDigits (toString n))
  | .number literal => isInRange (leadingDigits literal)
  | .unreadable => false
  | .array items => itemsAreReadable items
  | .object members => membersAreReadable members
  | _ => true

/-- Whether the items of an array have texts and numbers in range alone. -/
def itemsAreReadable : List Json → Bool
  | [] => true
  | v :: r => isReadable v && itemsAreReadable r

/-- Whether the members of an object have texts and numbers in range alone. -/
def membersAreReadable : List (String × Json) → Bool
  | [] => true
  | (_, v) :: r => isReadable v && membersAreReadable r

end

/-- Whether a value is no deeper than a bound, and readable. -/
def isWithin (depthBound : Nat) (j : Json) : Bool := j.depth ≤ depthBound && j.isReadable

end GraphSchema.Json
