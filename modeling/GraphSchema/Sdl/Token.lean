import GraphSchema.Sdl.BlockString
import GraphSchema.Sdl.Numeral
import GraphSchema.Sdl.Position
import GraphSchema.Sdl.Quoted

/-!
# Tokens

The words of schema text. A token carries its value, so a literal without a
value, such as a number beyond 64 bits or an unknown escape, is no token.
-/

namespace GraphSchema.Sdl

/-- A token of schema text. -/
inductive Token where
  /-- One of `( [ { ) ] } ! $ : = @ | &`. -/
  | punctuator (mark : Char)
  /-- Three dots. -/
  | ellipsis
  | name (text : String)
  | int (value : Int)
  | float (value : Binary64)
  | string (value : String)
deriving DecidableEq, Repr

/-- A token and the place of its first character. -/
structure Located where
  position : Position
  token : Token
deriving DecidableEq, Repr

namespace Token

/-- Whether a character is a token of its own. -/
def isPunctuator (c : Char) : Bool :=
  ['(', '[', '\x7b', ')', ']', '\x7d', '!', '$', ':', '=', '@', '|', '&'].contains c

/-- Whether a character may start a name: a letter of ASCII or an underscore. -/
def isNameStart (c : Char) : Bool := c.isAlpha || c == '_'

/-- Whether a character may go on with a name. -/
def isNameRest (c : Char) : Bool := isNameStart c || c.isDigit

/-- The token of a numeral's value. -/
def ofNumeral : Numeral.Value → Token
  | .int n => int n
  | .float x => float x

/-- Reads the token at the front of a text. -/
def scan : List Char → Option (Token × List Char)
  | [] => none
  | '"' :: '"' :: '"' :: r => do
      let (text, rest) ← BlockString.scan false r
      return (string (String.ofList (BlockString.value text)), rest)
  | '"' :: r => do
      let (text, rest) ← Quoted.scan r
      return (string (String.ofList text), rest)
  | '.' :: '.' :: '.' :: r => some (ellipsis, r)
  | c :: r =>
      if isNameStart c then
        let (text, rest) := r.span isNameRest
        some (name (String.ofList (c :: text)), rest)
      else if c == '-' || c.isDigit then do
        let (text, rest) := Numeral.scan r
        return (ofNumeral (← Numeral.value? (c :: text)), rest)
      else if isPunctuator c then some (punctuator c, r)
      else none

/-- The number of open brackets after a token, if it may stand there. -/
def bracketsAfter? (limit opened : Nat) : Token → Option Nat
  | punctuator c =>
      if c = '(' ∨ c = '[' ∨ c = '\x7b' then
        if opened < limit then some (opened + 1) else none
      else if c = ')' ∨ c = ']' ∨ c = '\x7d' then some (opened - 1)
      else some opened
  | _ => some opened

end Token

end GraphSchema.Sdl
