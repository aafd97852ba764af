import GraphSchema.Decimal.Binary64
import GraphSchema.Text.Hex
import GraphSchema.Toml.Value

/-!
# TOML literals

Booleans, numbers and dates. A literal runs as far as its characters go and is
then read as a whole. Underscores may stand between digits; a whole number has
64 bits; a date has to be one of the calendar.

Of a date and time that can be spelled in several ways, one spelling is kept: a
capital T between the two, a capital Z or `+00:00` for universal time, and of the
fraction of a second nine digits at most and no zeros at the end.
-/

namespace GraphSchema.Toml

/-- Whether a character may be part of a literal. -/
def isLiteralChar (c : Char) : Bool := c.isAlphanum || ['_', '+', '-', '.', ':'].contains c

/-- The digits of a text in which single underscores may stand between digits. -/
def ungroup? (isDigit : Char → Bool) : List Char → Option (List Char)
  | [] => none
  | [c] => if isDigit c then some [c] else none
  | c :: '_' :: r => if isDigit c then (ungroup? isDigit r).map (c :: ·) else none
  | c :: r => if isDigit c then (ungroup? isDigit r).map (c :: ·) else none

/-- The number that digits spell in a base. -/
def numberOf? (base : Nat) (digits : List Char) : Option Nat :=
  digits.foldl (fun acc c => do return (← acc) * base + (← Text.hexValue? c)) (some 0)

/-- The whole number that grouped digits spell in a base. -/
def radix? (base : Nat) (digits : List Char) : Option Nat := do
  let isDigit (c : Char) : Bool := (Text.hexValue? c).any (· < base)
  numberOf? base (← ungroup? isDigit digits)

/-- The sign of a text, and the text behind it. -/
def splitSign : List Char → Bool × List Char
  | '-' :: r => (true, r)
  | '+' :: r => (false, r)
  | r => (false, r)

/-- The digits of a decimal whole number without superfluous zeros. -/
def wholeDigits? (cs : List Char) : Option (List Char) := do
  let digits ← ungroup? Char.isDigit cs
  if digits.length = 1 ∨ digits.head? ≠ some '0' then some digits else none

/-- The value of a whole number. -/
def integer? (cs : List Char) : Option Int := do
  let n : Int ← match cs with
    | '0' :: 'x' :: r => Int.ofNat <$> radix? 16 r
    | '0' :: 'o' :: r => Int.ofNat <$> radix? 8 r
    | '0' :: 'b' :: r => Int.ofNat <$> radix? 2 r
    | _ => do
        let (negative, r) := splitSign cs
        let n ← numberOf? 10 (← wholeDigits? r)
        pure (if negative then -(n : Int) else n)
  if Int64.minValue.toInt ≤ n ∧ n ≤ Int64.maxValue.toInt then some n else none

/-- The value of the exponent of a number, its sign included. -/
def exponent? (cs : List Char) : Option Int := do
  let (negative, r) := splitSign cs
  let n ← numberOf? 10 (← ungroup? Char.isDigit r)
  return if negative then -(n : Int) else n

/-- The magnitude of a number with a fraction, an exponent or both. -/
def decimal? (cs : List Char) : Option Decimal := do
  let (mantissa, mark) := cs.span fun c => c != 'e' && c != 'E'
  let exponent ← match mark with
    | [] => some 0
    | _ :: r => exponent? r
  let (whole, point) := mantissa.span (· != '.')
  let digits ← wholeDigits? whole
  let fraction ← match point with
    | [] => some []
    | _ :: r => ungroup? Char.isDigit r
  if mark.isEmpty ∧ point.isEmpty then none
  else return ⟨← numberOf? 10 (digits ++ fraction), exponent - fraction.length⟩

/-- Whether a text is a number that is not whole. A positive one may not be beyond all numbers. -/
def isFloat (cs : List Char) : Bool :=
  let (negative, r) := splitSign cs
  r == "inf".toList || r == "nan".toList ||
    (decimal? r).any fun x => negative || Binary64.codeOfDecimal x != Binary64.infinityCode

/-- The number that a text of digits spells, if it has a given length. -/
def digitsOfLength? (n : Nat) (cs : List Char) : Option Nat :=
  if cs.length = n ∧ cs.all Char.isDigit then numberOf? 10 cs else none

/-- Whether a year has 366 days. -/
def isLeapYear (year : Nat) : Bool := year % 4 == 0 && (year % 100 != 0 || year % 400 == 0)

/-- The days of a month. -/
def daysOf (year month : Nat) : Nat :=
  if month = 2 then (if isLeapYear year then 29 else 28)
  else if month = 4 ∨ month = 6 ∨ month = 9 ∨ month = 11 then 30
  else 31

/-- Whether a text is a date, `yyyy-mm-dd`. -/
def isDate (cs : List Char) : Bool :=
  match cs with
  | [y1, y2, y3, y4, '-', m1, m2, '-', d1, d2] =>
      match digitsOfLength? 4 [y1, y2, y3, y4], digitsOfLength? 2 [m1, m2],
          digitsOfLength? 2 [d1, d2] with
      | some year, some month, some day =>
          1 ≤ month && month ≤ 12 && 1 ≤ day && day ≤ daysOf year month
      | _, _, _ => false
  | _ => false

/-- The spelling of the fraction of a second, its point included. -/
def fractionSpelling (digits : List Char) : List Char :=
  let kept := ((digits.take 9).reverse.dropWhile (· == '0')).reverse
  if kept.isEmpty then [] else '.' :: kept

/-- The spelling of a time of day, `hh:mm:ss` with perhaps a fraction of the second, and the text
behind it. -/
def scanTime? (cs : List Char) : Option (List Char × List Char) :=
  match cs with
  | h1 :: h2 :: ':' :: m1 :: m2 :: ':' :: s1 :: s2 :: r => do
      let hour ← digitsOfLength? 2 [h1, h2]
      let minute ← digitsOfLength? 2 [m1, m2]
      let second ← digitsOfLength? 2 [s1, s2]
      if 23 < hour ∨ 59 < minute ∨ 60 < second then none
      else
        match r with
        | '.' :: r =>
            let (digits, r) := r.span Char.isDigit
            if digits.isEmpty then none else some (cs.take 8 ++ fractionSpelling digits, r)
        | r => some (cs.take 8, r)
  | _ => none

/-- The spelling of an offset from universal time, which may be left out. -/
def offset? (cs : List Char) : Option (List Char) :=
  match cs with
  | [] => some []
  | ['Z'] => some ['Z']
  | ['z'] => some ['Z']
  | [sign, h1, h2, ':', m1, m2] => do
      let hours ← digitsOfLength? 2 [h1, h2]
      let minutes ← digitsOfLength? 2 [m1, m2]
      if 23 < hours ∨ 59 < minutes ∨ (sign ≠ '+' ∧ sign ≠ '-') then none
      else if hours = 0 ∧ minutes = 0 then some ('+' :: cs.drop 1)
      else some cs
  | _ => none

/-- The spelling of a time of day with perhaps an offset. -/
def offsetTime? (cs : List Char) : Option (List Char) := do
  let (time, r) ← scanTime? cs
  return time ++ (← offset? r)

/-- The spelling of a time of day. -/
def time? (cs : List Char) : Option (List Char) := do
  let (time, r) ← scanTime? cs
  if r.isEmpty then some time else none

/-- The spelling of a date and a time of that day. -/
def dateTime? (date time : List Char) : Option (List Char) :=
  if isDate date then do return date ++ 'T' :: (← offsetTime? time) else none

/-- The spelling of a date, a time, or a date and a time with a letter between them. -/
def moment? (cs : List Char) : Option (List Char) :=
  if isDate cs then some cs
  else if cs[10]? = some 'T' ∨ cs[10]? = some 't' then dateTime? (cs.take 10) (cs.drop 11)
  else time? cs

/-- The value of a literal that stands alone. -/
def literal? (cs : List Char) : Option Value :=
  if cs = "true".toList then some (.boolean true)
  else if cs = "false".toList then some (.boolean false)
  else
    match integer? cs with
    | some n => some (.integer n)
    | none =>
        if isFloat cs then some (.float (String.ofList cs))
        else do return .date (String.ofList (← moment? cs))

/-- Reads a literal. A date may have a time behind a space. -/
def scanLiteralValue (cs : List Char) : Option (Value × List Char) := do
  let (first, r) := cs.span isLiteralChar
  let v ← literal? first
  match r with
  | ' ' :: c :: _ =>
      if isDate first && c.isDigit then
        let (second, rest) := (r.drop 1).span isLiteralChar
        return (.date (String.ofList (← dateTime? first second)), rest)
      else return (v, r)
  | _ => return (v, r)

end GraphSchema.Toml
