import GraphSchema.Decimal.Binary64

/-!
# Shortest decimals

The decimal with the fewest digits that is read back as a given binary64
number; of two such decimals the nearer one, and of two equally near ones the
larger. On a grid of `n` digits only the two neighbours of the number can be
read back as it unless a coarser grid already holds an answer, so the search
looks at two candidates for each of 1, 2, … 17 digits.

The text of a number is positional from `0.0001` up to `10 ^ 16`, with at least
one digit after the point, and has an exponent elsewhere.
-/

namespace GraphSchema.Binary64

/-- The better of the two neighbours of `num / den` on the grid of multiples of
`10 ^ exponent`, if one is read back as the number `code`. -/
def neighbour? (code num den : Nat) (exponent : Int) : Option Decimal :=
  let (n, d) := scaleDown 10 num den exponent
  let below : Decimal := ⟨n / d, exponent⟩
  let above : Decimal := ⟨n / d + 1, exponent⟩
  let nearerAbove := d ≤ 2 * (n % d)
  match codeOfDecimal below == code, codeOfDecimal above == code with
  | true, true => some (if nearerAbove then above else below)
  | true, false => some below
  | false, true => some above
  | false, false => none

/-- The shortest decimal that is read back as a positive finite number. Seventeen
digits always suffice; the exact decimal stands behind them. -/
def shortest (x : Binary64) : Decimal :=
  let (num, den) := x.toFraction
  let top := decimalOrder num den + 1
  let found := (List.range 17).findSome? fun (n : Nat) =>
    neighbour? x.code num den (top - (n + 1 : Nat))
  found.getD ⟨num * Nat.pow 5 den.log2, -(den.log2 : Int)⟩

/-- The exponents of the first digit for which a number is written positionally. -/
def positionalExponents : Int × Int := (-4, 16)

/-- The text of a magnitude: significant digits, and the power of ten of the first. -/
def layout (digits : List Char) (exponent : Int) : List Char :=
  if positionalExponents.1 ≤ exponent ∧ exponent < positionalExponents.2 then
    if exponent < 0 then
      ['0', '.'] ++ List.replicate (-exponent - 1).toNat '0' ++ digits
    else
      let whole := exponent.toNat + 1
      if digits.length ≤ whole then
        digits ++ List.replicate (whole - digits.length) '0' ++ ['.', '0']
      else digits.take whole ++ ['.'] ++ digits.drop whole
  else
    let point := if digits.length ≤ 1 then [] else ['.']
    digits.take 1 ++ point ++ digits.drop 1 ++ ['e'] ++ (toString exponent).toList

/-- The text of a decimal's magnitude, without the zeros at its end. -/
def decimalText (x : Decimal) : List Char :=
  let digits := Nat.toDigits 10 x.digits
  let significant := (digits.reverse.dropWhile (· == '0')).reverse
  layout significant (x.exponent + digits.length - 1)

/-- The text of a number: shortest digits that are read back as it. -/
def render (x : Binary64) : String :=
  let magnitude :=
    if x.code = 0 then ['0', '.', '0']
    else if x.isInfinite then ['i', 'n', 'f']
    else decimalText x.shortest
  String.ofList (if x.negative then '-' :: magnitude else magnitude)

end GraphSchema.Binary64
