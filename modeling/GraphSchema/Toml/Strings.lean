import GraphSchema.Text.Hex

/-!
# TOML strings

The four kinds of string: basic ones, with escapes, and literal ones, as they
stand, each on one line or between three quotes over several. Two line ends are
known, a line feed alone and one after a carriage return; both read as a line
feed.
-/

namespace GraphSchema.Toml

/-- Whether a character may stand for itself: no control character but the tab. -/
def isPlain (c : Char) : Bool := c = '\t' || (0x20 ≤ c.toNat && c.toNat ≠ 0x7F)

/-- Whether a character is a blank within a line. -/
def isSpace (c : Char) : Bool := c = ' ' || c = '\t'

/-- The character that a one-letter escape stands for. -/
def unescape? (c : Char) : Option Char :=
  if c = '"' ∨ c = '\\' then some c
  else if c = 'b' then some '\x08'
  else if c = 't' then some '\t'
  else if c = 'n' then some '\n'
  else if c = 'f' then some '\x0c'
  else if c = 'r' then some '\r'
  else none

/-- The scalar value that hexadecimal digits spell. -/
def scalar? (digits : List Char) : Option Char := do
  let n ← Text.hexNumber? digits
  if n < 0xD800 ∨ (0xE000 ≤ n ∧ n < 0x110000) then some (Char.ofNat n) else none

/-- Reads the rest of a basic string on one line, its quote included. -/
def scanBasic : List Char → Option (List Char × List Char)
  | [] => none
  | '"' :: r => some ([], r)
  | '\\' :: 'u' :: a :: b :: c :: d :: r => do
      let x ← scalar? [a, b, c, d]
      let (s, rest) ← scanBasic r
      return (x :: s, rest)
  | '\\' :: 'U' :: a :: b :: c :: d :: e :: f :: g :: h :: r => do
      let x ← scalar? [a, b, c, d, e, f, g, h]
      let (s, rest) ← scanBasic r
      return (x :: s, rest)
  | '\\' :: c :: r => do
      let x ← unescape? c
      let (s, rest) ← scanBasic r
      return (x :: s, rest)
  | c :: r => do
      if isPlain c ∧ c ≠ '\\' then
        let (s, rest) ← scanBasic r
        return (c :: s, rest)
      else none

/-- Reads the rest of a literal string on one line, its quote included. -/
def scanLiteral : List Char → Option (List Char × List Char)
  | [] => none
  | '\'' :: r => some ([], r)
  | c :: r => do
      if isPlain c then
        let (s, rest) ← scanLiteral r
        return (c :: s, rest)
      else none

/-- What a backslash at the end of a line has left to skip. -/
inductive Skipping where
  | nothing
  /-- Blanks up to the end of the line, which has to come. -/
  | toLineEnd
  /-- Blanks and line ends. -/
  | pastLines
deriving DecidableEq

/-- Reads the rest of a basic string over several lines, its quotes included.
One or two quotes in front of the closing ones belong to the string. -/
def scanBasicLines : Skipping → List Char → Option (List Char × List Char)
  | _, [] => none
  | .toLineEnd, '\r' :: '\n' :: r => scanBasicLines .pastLines r
  | .toLineEnd, '\n' :: r => scanBasicLines .pastLines r
  | .toLineEnd, c :: r => if isSpace c then scanBasicLines .toLineEnd r else none
  | .pastLines, ' ' :: r => scanBasicLines .pastLines r
  | .pastLines, '\t' :: r => scanBasicLines .pastLines r
  | .pastLines, '\r' :: '\n' :: r => scanBasicLines .pastLines r
  | .pastLines, '\n' :: r => scanBasicLines .pastLines r
  | _, '"' :: '"' :: '"' :: '"' :: '"' :: r => some (['"', '"'], r)
  | _, '"' :: '"' :: '"' :: '"' :: r => some (['"'], r)
  | _, '"' :: '"' :: '"' :: r => some ([], r)
  | _, '\\' :: 'u' :: a :: b :: c :: d :: r => do
      let x ← scalar? [a, b, c, d]
      let (s, rest) ← scanBasicLines .nothing r
      return (x :: s, rest)
  | _, '\\' :: 'U' :: a :: b :: c :: d :: e :: f :: g :: h :: r => do
      let x ← scalar? [a, b, c, d, e, f, g, h]
      let (s, rest) ← scanBasicLines .nothing r
      return (x :: s, rest)
  | _, '\\' :: '\r' :: '\n' :: r => scanBasicLines .pastLines r
  | _, '\\' :: '\n' :: r => scanBasicLines .pastLines r
  | _, '\\' :: c :: r => do
      if isSpace c then scanBasicLines .toLineEnd r
      else
        let x ← unescape? c
        let (s, rest) ← scanBasicLines .nothing r
        return (x :: s, rest)
  | _, '\r' :: '\n' :: r => do
      let (s, rest) ← scanBasicLines .nothing r
      return ('\n' :: s, rest)
  | _, c :: r => do
      if (isPlain c ∧ c ≠ '\\') ∨ c = '\n' then
        let (s, rest) ← scanBasicLines .nothing r
        return (c :: s, rest)
      else none

/-- Reads the rest of a literal string over several lines, its quotes included.
One or two quotes in front of the closing ones belong to the string. -/
def scanLiteralLines : List Char → Option (List Char × List Char)
  | [] => none
  | '\'' :: '\'' :: '\'' :: '\'' :: '\'' :: r => some (['\'', '\''], r)
  | '\'' :: '\'' :: '\'' :: '\'' :: r => some (['\''], r)
  | '\'' :: '\'' :: '\'' :: r => some ([], r)
  | '\r' :: '\n' :: r => do
      let (s, rest) ← scanLiteralLines r
      return ('\n' :: s, rest)
  | c :: r => do
      if isPlain c ∨ c = '\n' then
        let (s, rest) ← scanLiteralLines r
        return (c :: s, rest)
      else none

/-- The text after one line end, if one comes first. -/
def dropLineEnd : List Char → List Char
  | '\r' :: '\n' :: r => r
  | '\n' :: r => r
  | cs => cs

/-- Reads a string of any kind. -/
def scanString : List Char → Option (List Char × List Char)
  | '"' :: '"' :: '"' :: r => scanBasicLines .nothing (dropLineEnd r)
  | '"' :: r => scanBasic r
  | '\'' :: '\'' :: '\'' :: r => scanLiteralLines (dropLineEnd r)
  | '\'' :: r => scanLiteral r
  | _ => none

end GraphSchema.Toml
