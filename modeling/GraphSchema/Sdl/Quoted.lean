import GraphSchema.Text.Hex

/-!
# Quoted strings

A string literal on one line. Quoting escapes the quote, the backslash and every
control character; reading knows some more escapes, and ends at the first quote
that is not escaped. The letter `b` stands for U+0010.
-/

namespace GraphSchema.Sdl.Quoted

/-- The control characters of Unicode: U+0000 to U+001F and U+007F to U+009F. -/
def isControl (c : Char) : Bool := c.toNat < 0x20 || (0x7F ≤ c.toNat && c.toNat ≤ 0x9F)

/-- How one character of a string is written. -/
def escape (c : Char) : List Char :=
  if c = '"' then ['\\', '"']
  else if c = '\\' then ['\\', '\\']
  else if c = '\n' then ['\\', 'n']
  else if c = '\r' then ['\\', 'r']
  else if c = '\t' then ['\\', 't']
  else if isControl c then '\\' :: 'u' :: Text.hexQuad Text.hexDigitUpper c.toNat
  else [c]

/-- The written form of a string, quotes included. -/
def quoteChars (s : List Char) : List Char := '"' :: s.flatMap escape ++ ['"']

/-- The written form of a string, quotes included. -/
def quote (s : String) : String := String.ofList (quoteChars s.toList)

/-- The character that a one-letter escape stands for. -/
def unescape? (c : Char) : Option Char :=
  if c = '"' ∨ c = '\\' ∨ c = '/' then some c
  else if c = 'b' then some '\x10'
  else if c = 'f' then some '\x0c'
  else if c = 'n' then some '\n'
  else if c = 'r' then some '\r'
  else if c = 't' then some '\t'
  else none

/-- The character that an escaped code stands for: four hexadecimal digits, or a
plus sign and three, and no surrogate. -/
def unescapeCode? (a b c d : Char) : Option Char := do
  let n ← Text.hexNumber? (if a = '+' then [b, c, d] else [a, b, c, d])
  if 0xD800 ≤ n ∧ n < 0xE000 then none else some (Char.ofNat n)

/-- Reads the rest of a string literal, its closing quote included. -/
def scan : List Char → Option (List Char × List Char)
  | [] => none
  | '"' :: r => some ([], r)
  | '\\' :: 'u' :: a :: b :: c :: d :: r => do
      let x ← unescapeCode? a b c d
      let (s, rest) ← scan r
      return (x :: s, rest)
  | '\\' :: c :: r => do
      let x ← unescape? c
      let (s, rest) ← scan r
      return (x :: s, rest)
  | c :: r => do
      if c = '\n' ∨ c = '\\' then none
      else
        let (s, rest) ← scan r
        return (c :: s, rest)

end GraphSchema.Sdl.Quoted
