/-!
# Binary64 numbers and decimals

A binary64 number is its sign and its code: the exponent and fraction fields
read as one natural number. Codes are in the order of the magnitudes they stand
for, the last one is infinity, and a NaN has none.

A decimal is read as the nearest binary64 number, a half going to the even
code. All arithmetic is exact, on natural numbers.
-/

namespace GraphSchema

/-- A number `digits * 10 ^ exponent`. -/
structure Decimal where
  digits : Nat
  exponent : Int
deriving DecidableEq, Repr

/-- The code of infinity: the largest exponent field over an empty fraction. -/
abbrev Binary64.infinityCode : Nat := 2047 * Nat.pow 2 52

/-- A binary64 number other than a NaN. -/
structure Binary64 where
  /-- Whether the sign bit is set. -/
  negative : Bool
  /-- The exponent and fraction fields as one number. -/
  code : Nat
  /-- No code lies beyond infinity. -/
  code_le : code ≤ Binary64.infinityCode
deriving DecidableEq, Repr

/-- The quotient as the nearest natural number, a half going to the even one. -/
def roundHalfEven (num den : Nat) : Nat :=
  let q := num / den
  let r := num % den
  if 2 * r < den then q else if den < 2 * r then q + 1 else q + q % 2

/-- The fraction `num / den` divided by `base ^ k`, as a fraction again. -/
def scaleDown (base num den : Nat) (k : Int) : Nat × Nat :=
  if 0 ≤ k then (num, den * Nat.pow base k.toNat) else (num * Nat.pow base (-k).toNat, den)

/-- The largest `k` with `2 ^ k ≤ num / den`, for positive numbers. -/
def binaryOrder (num den : Nat) : Int :=
  let k : Int := (num.log2 : Int) - den.log2
  let (n, d) := scaleDown 2 num den k
  if d ≤ n then k else k - 1

/-- The largest `k` with `10 ^ k ≤ num / den`, for positive numbers. The
logarithm of two is near enough to 0.30103 to be off by one at most. -/
def decimalOrder (num den : Nat) : Int :=
  let k := (binaryOrder num den * 30103).fdiv 100000
  let atLeast (k : Int) : Bool := let (n, d) := scaleDown 10 num den k; d ≤ n
  if atLeast (k + 1) then k + 1 else if atLeast k then k else k - 1

namespace Binary64

/-- The code of the binary64 number nearest to a fraction. The significand
keeps 53 bits, fewer where the exponent field has reached its least value, and a
carry out of the significand moves to the next exponent by itself. -/
def nearestCode (num den : Nat) : Nat :=
  if num = 0 then 0 else
    let q := max (binaryOrder num den - 52) (-1074)
    let (n, d) := scaleDown 2 num den q
    min infinityCode ((q + 1074).toNat * Nat.pow 2 52 + roundHalfEven n d)

/-- The code of the binary64 number nearest to a decimal. Decimals far out of
range are settled by their exponents, so that no huge power is computed. -/
def codeOfDecimal (x : Decimal) : Nat :=
  if x.digits = 0 then 0
  else if 400 < x.exponent then infinityCode
  else if (x.digits.log2 : Int) + 3 * x.exponent < -1100 then 0
  else
    let (n, d) := scaleDown 10 x.digits 1 (-x.exponent)
    nearestCode n d

/-- The binary64 number nearest to a decimal with a sign. -/
def ofDecimal (negative : Bool) (x : Decimal) : Binary64 :=
  ⟨negative, min (codeOfDecimal x) infinityCode, Nat.min_le_right ..⟩

/-- Whether the number is an infinity. -/
def isInfinite (x : Binary64) : Bool := x.code == infinityCode

/-- The magnitude of a finite number as a significand and a power of two. -/
def magnitude (x : Binary64) : Nat × Int :=
  let e : Nat := x.code / Nat.pow 2 52
  let f : Nat := x.code % Nat.pow 2 52
  if e = 0 then (f, -1074) else (Nat.pow 2 52 + f, (e : Int) - 1075)

/-- The magnitude of a finite number as a fraction. -/
def toFraction (x : Binary64) : Nat × Nat := scaleDown 2 x.magnitude.1 1 (-x.magnitude.2)

/-- The code of the binary64 number nearest to the product of two finite magnitudes. -/
def codeOfProduct (x y : Binary64) : Nat :=
  let (a, b) := x.toFraction
  let (c, d) := y.toFraction
  nearestCode (a * c) (b * d)

end Binary64

end GraphSchema
