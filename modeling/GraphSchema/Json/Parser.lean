import GraphSchema.Json.Basic
import GraphSchema.Text.Hex

/-!
# Reading JSON

Scanners over the remaining text. Each gives back what it read and the text
after it, or nothing where the text does not go on as JSON. A character below
U+0020 has to be escaped.

A string is first read as codes. They are a text if every escaped half of a
surrogate pair stands beside its other half.
-/

namespace GraphSchema.Json

/-- The blanks that may stand between the tokens of a JSON text. -/
def isSpace (c : Char) : Bool := c = ' ' || c = '\t' || c = '\n' || c = '\r'

/-- The text after its leading blanks. -/
def skipSpace (cs : List Char) : List Char := cs.dropWhile isSpace

/-- The character that a one-letter escape stands for. -/
def unescape? (c : Char) : Option Char :=
  if c = '"' ∨ c = '\\' ∨ c = '/' then some c
  else if c = 'b' then some '\x08'
  else if c = 'f' then some '\x0c'
  else if c = 'n' then some '\n'
  else if c = 'r' then some '\r'
  else if c = 't' then some '\t'
  else none

/-- The scalar value that two halves of a surrogate pair stand for. -/
def surrogatePair (high low : Nat) : Nat := 0x10000 + (high - 0xD800) * 0x400 + (low - 0xDC00)

/-- Whether a code is the first half of a surrogate pair. -/
def isHighHalf (code : Nat) : Bool := 0xD800 ≤ code && code < 0xDC00

/-- Whether a code is the second half of a surrogate pair. -/
def isLowHalf (code : Nat) : Bool := 0xDC00 ≤ code && code < 0xE000

/-- The text that codes spell, unless one of them is half of a surrogate pair alone. -/
def textOfCodes? : List Nat → Option (List Char)
  | [] => some []
  | [n] => if isHighHalf n || isLowHalf n then none else some [Char.ofNat n]
  | n :: m :: r =>
      if isHighHalf n && isLowHalf m then
        (textOfCodes? r).map (Char.ofNat (surrogatePair n m) :: ·)
      else if isHighHalf n || isLowHalf n then none
      else (textOfCodes? (m :: r)).map (Char.ofNat n :: ·)

/-- Reads the codes of the rest of a string, its closing quote included. -/
def scanCodes : List Char → Option (List Nat × List Char)
  | [] => none
  | '"' :: r => some ([], r)
  | '\\' :: 'u' :: a :: b :: c :: d :: r => do
      let n ← Text.hexNumber? [a, b, c, d]
      let (codes, rest) ← scanCodes r
      return (n :: codes, rest)
  | '\\' :: c :: r => do
      let x ← unescape? c
      let (codes, rest) ← scanCodes r
      return (x.toNat :: codes, rest)
  | c :: r => do
      if c.toNat < 32 ∨ c = '\\' then none
      else
        let (codes, rest) ← scanCodes r
        return (c.toNat :: codes, rest)

/-- Reads the rest of a string, its closing quote included. The string may be no text. -/
def scanString (cs : List Char) : Option (Option String × List Char) := do
  let (codes, rest) ← scanCodes cs
  return ((textOfCodes? codes).map String.ofList, rest)

/-- The object of members that are read, all of which need a key that is a text. -/
def objectOf (members : List (Option String × Json)) : Json :=
  (members.mapM fun ((key, v) : Option String × Json) => key.map (·, v)).elim .unreadable .object

/-- Reads a run of digits. -/
def scanDigits (cs : List Char) : List Char × List Char := cs.span Char.isDigit

/-- Reads the whole part of a number: a zero, or digits that do not start with one. -/
def scanWhole (cs : List Char) : Option (List Char × List Char) :=
  match cs with
  | '0' :: r => some (['0'], r)
  | _ =>
      let (digits, r) := scanDigits cs
      if digits.isEmpty then none else some (digits, r)

/-- Reads the fraction of a number, if it has one. -/
def scanFraction (cs : List Char) : Option (List Char × List Char) :=
  match cs with
  | '.' :: r =>
      let (digits, r) := scanDigits r
      if digits.isEmpty then none else some ('.' :: digits, r)
  | _ => some ([], cs)

/-- Reads the exponent of a number, if it has one. -/
def scanExponent (cs : List Char) : Option (List Char × List Char) :=
  match cs with
  | c :: r =>
      if c = 'e' ∨ c = 'E' then
        let (sign, r) := match r with
          | '+' :: r => (['+'], r)
          | '-' :: r => (['-'], r)
          | r => ([], r)
        let (digits, r) := scanDigits r
        if digits.isEmpty then none else some (c :: sign ++ digits, r)
      else some ([], cs)
  | [] => some ([], [])

/-- The natural number that decimal digits spell. -/
def digitsValue (digits : List Char) : Nat :=
  digits.foldl (fun n c => n * 10 + (c.toNat - 48)) 0

/-- Reads a number. -/
def scanNumber (cs : List Char) : Option (Json × List Char) := do
  let (sign, r) := match cs with
    | '-' :: r => (['-'], r)
    | r => ([], r)
  let (whole, r) ← scanWhole r
  let (fraction, r) ← scanFraction r
  let (exponent, r) ← scanExponent r
  if sign.isEmpty ∧ fraction.isEmpty ∧ exponent.isEmpty then
    return (.natural (digitsValue whole), r)
  else
    return (.number (String.ofList (sign ++ whole ++ fraction ++ exponent)), r)

/-- Reads a value that is neither an array nor an object. -/
def scanAtom : List Char → Option (Json × List Char)
  | 'n' :: 'u' :: 'l' :: 'l' :: r => some (.null, r)
  | 't' :: 'r' :: 'u' :: 'e' :: r => some (.bool true, r)
  | 'f' :: 'a' :: 'l' :: 's' :: 'e' :: r => some (.bool false, r)
  | '"' :: r => do
      let (s, r) ← scanString r
      return (s.elim .unreadable .string, r)
  | cs => scanNumber cs

mutual

/-- Reads a value after blanks. The first argument bounds the recursion. -/
def scanValue : Nat → List Char → Option (Json × List Char)
  | 0, _ => none
  | n + 1, cs =>
      match skipSpace cs with
      | '[' :: r =>
          match skipSpace r with
          | ']' :: r => some (.array [], r)
          | r => do
              let (items, r) ← scanItems n r
              return (.array items, r)
      | '\x7b' :: r =>
          match skipSpace r with
          | '\x7d' :: r => some (.object [], r)
          | r => do
              let (members, r) ← scanMembers n r
              return (objectOf members, r)
      | r => scanAtom r

/-- Reads the items of an array that has some, its closing bracket included. -/
def scanItems : Nat → List Char → Option (List Json × List Char)
  | 0, _ => none
  | n + 1, cs => do
      let (v, r) ← scanValue n cs
      match skipSpace r with
      | ',' :: r =>
          let (items, r) ← scanItems n r
          return (v :: items, r)
      | ']' :: r => return ([v], r)
      | _ => none

/-- Reads the members of an object that has some, its closing brace included. -/
def scanMembers : Nat → List Char → Option (List (Option String × Json) × List Char)
  | 0, _ => none
  | n + 1, cs => do
      match skipSpace cs with
      | '"' :: r =>
          let (key, r) ← scanString r
          match skipSpace r with
          | ':' :: r =>
              let (v, r) ← scanValue n r
              match skipSpace r with
              | ',' :: r =>
                  let (members, r) ← scanMembers n r
                  return ((key, v) :: members, r)
              | '\x7d' :: r => return ([(key, v)], r)
              | _ => none
          | _ => none
      | _ => none

end

/-- The value that a text spells, with nothing but blanks around it. -/
def parse (text : String) : Option Json := do
  let cs := text.toList
  let (v, rest) ← scanValue (2 * cs.length + 2) cs
  if (skipSpace rest).isEmpty then some v else none

end GraphSchema.Json
