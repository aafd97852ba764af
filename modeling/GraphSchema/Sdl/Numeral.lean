import GraphSchema.Decimal.Binary64

/-!
# Numerals

The numbers of schema text. A numeral runs up to the next blank, comma, comment
or punctuator. Its last `e` starts the exponent and its last `.` the fraction.
An exponent is a sign or one of the digits 1 to 8, followed by digits; one that
is a sign alone has no value.
-/

namespace GraphSchema.Sdl.Numeral

/-- The value of a numeral: a whole number of 64 bits, or a binary64 number. -/
inductive Value where
  | int (value : Int)
  | float (value : Binary64)
deriving DecidableEq, Repr

/-- Whether a character ends a numeral. -/
def isDelimiter (c : Char) : Bool :=
  [' ', '\n', '\r', '\t', ',', '#', '!', '$', ':', '=', '@', '|', '&', '(', ')', '[', ']', '\x7b',
    '\x7d'].contains c

/-- The numeral at the front of a text, and the text after it. -/
def scan (cs : List Char) : List Char × List Char := cs.span fun c => !isDelimiter c

/-- Whether a character introduces an exponent. -/
def isExponentMark (c : Char) : Bool := c == 'e' || c == 'E'

/-- The text before and after the last character of a kind. -/
def splitLast? (mark : Char → Bool) (cs : List Char) : Option (List Char × List Char) :=
  let (after, before) := cs.reverse.span fun c => !mark c
  match before with
  | [] => none
  | _ :: before => some (before.reverse, after.reverse)

/-- Whether a text is made of digits, at least one. -/
def isDigits (cs : List Char) : Bool := !cs.isEmpty && cs.all Char.isDigit

/-- The number that digits spell. -/
def digitsValue (cs : List Char) : Nat := cs.foldl (fun n c => n * 10 + (c.toNat - 48)) 0

/-- The sign and the digits of a whole number without superfluous zeros. -/
def whole? (cs : List Char) : Option (Bool × List Char) :=
  let (negative, digits) := match cs with
    | '-' :: r => (true, r)
    | r => (false, r)
  if isDigits digits && (digits.length == 1 || digits.head? != some '0') then
    some (negative, digits)
  else none

/-- The value of an exponent. -/
def exponent? (cs : List Char) : Option Int :=
  match cs with
  | [] => none
  | c :: r =>
      if c == '+' then if isDigits r then some (digitsValue r) else none
      else if c == '-' then if isDigits r then some (-(digitsValue r : Int)) else none
      else if '1' ≤ c ∧ c ≤ '8' ∧ r.all Char.isDigit then some (digitsValue (c :: r))
      else none

/-- The value of a numeral with a fraction, an exponent or both. -/
def float? (whole fraction : List Char) (exponent : Int) : Option Value := do
  let (negative, digits) ← whole? whole
  if fraction.all Char.isDigit then
    let x : Decimal := ⟨digitsValue (digits ++ fraction), exponent - fraction.length⟩
    some (.float (Binary64.ofDecimal negative x))
  else none

/-- The value of a numeral without fraction and exponent. -/
def int? (cs : List Char) : Option Value := do
  let (negative, digits) ← whole? cs
  let n : Int := if negative then -(digitsValue digits : Int) else digitsValue digits
  if Int64.minValue.toInt ≤ n ∧ n ≤ Int64.maxValue.toInt then some (.int n) else none

/-- The value of a numeral. Its first character is the sign or a digit, so the
marks of fraction and exponent are looked for behind it. -/
def value? (cs : List Char) : Option Value :=
  let first := cs.take 1
  match splitLast? isExponentMark (cs.drop 1), splitLast? (· == '.') (cs.drop 1) with
  | none, none => int? cs
  | none, some (whole, fraction) =>
      if fraction.isEmpty then none else float? (first ++ whole) fraction 0
  | some (mantissa, exponent), none => do float? (first ++ mantissa) [] (← exponent? exponent)
  | some (mantissa, exponent), some _ => do
      let (whole, fraction) ← splitLast? (· == '.') mantissa
      if exponent.contains '.' || fraction.isEmpty then none
      else float? (first ++ whole) fraction (← exponent? exponent)

end GraphSchema.Sdl.Numeral
