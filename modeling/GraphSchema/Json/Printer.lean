import GraphSchema.Json.Basic
import GraphSchema.Text.Hex

/-!
# Writing JSON

Two written forms: compact, without any space, and pretty, with one member or
item a line, two spaces of indentation a level, and empty arrays and objects
kept together. Strings escape the quote, the backslash and the characters below
U+0020, by letter where JSON has one.
-/

namespace GraphSchema.Json

/-- How one character of a string is written. -/
def escape (c : Char) : List Char :=
  if c = '"' then ['\\', '"']
  else if c = '\\' then ['\\', '\\']
  else if c = '\x08' then ['\\', 'b']
  else if c = '\x0c' then ['\\', 'f']
  else if c = '\n' then ['\\', 'n']
  else if c = '\r' then ['\\', 'r']
  else if c = '\t' then ['\\', 't']
  else if c.toNat < 32 then '\\' :: 'u' :: Text.hexQuad Text.hexDigit c.toNat
  else [c]

/-- The written form of a string, quotes included. -/
def quote (s : String) : List Char := '"' :: s.toList.flatMap escape ++ ['"']

/-- The written form of a value without parts. An unreadable one is written as null. -/
def atom : Json → List Char
  | .null => "null".toList
  | .bool b => (if b then "true" else "false").toList
  | .natural n => Nat.toDigits 10 n
  | .number literal => literal.toList
  | .string s => quote s
  | .unreadable => "null".toList
  | .array _ => ['[', ']']
  | .object _ => ['\x7b', '\x7d']

mutual

/-- The compact form of a value. -/
def compactChars : Json → List Char
  | .array items => '[' :: compactItems items ++ [']']
  | .object members => '\x7b' :: compactMembers members ++ ['\x7d']
  | j => atom j

/-- The compact form of the items of an array, without its brackets. -/
def compactItems : List Json → List Char
  | [] => []
  | [v] => compactChars v
  | v :: r => compactChars v ++ ',' :: compactItems r

/-- The compact form of the members of an object, without its braces. -/
def compactMembers : List (String × Json) → List Char
  | [] => []
  | [(k, v)] => quote k ++ ':' :: compactChars v
  | (k, v) :: r => quote k ++ ':' :: compactChars v ++ ',' :: compactMembers r

end

/-- The start of a line at a level of indentation. -/
def newline (level : Nat) : List Char := '\n' :: List.replicate (2 * level) ' '

mutual

/-- The pretty form of a value whose own line stands at a level of indentation. -/
def prettyChars (level : Nat) : Json → List Char
  | .array [] => ['[', ']']
  | .array (v :: r) => '[' :: prettyItems (level + 1) (v :: r) ++ newline level ++ [']']
  | .object [] => ['\x7b', '\x7d']
  | .object (m :: r) => '\x7b' :: prettyMembers (level + 1) (m :: r) ++ newline level ++ ['\x7d']
  | j => atom j

/-- The pretty form of the items of an array, each on a line of its own. -/
def prettyItems (level : Nat) : List Json → List Char
  | [] => []
  | [v] => newline level ++ prettyChars level v
  | v :: r => newline level ++ prettyChars level v ++ ',' :: prettyItems level r

/-- The pretty form of the members of an object, each on a line of its own. -/
def prettyMembers (level : Nat) : List (String × Json) → List Char
  | [] => []
  | [(k, v)] => newline level ++ quote k ++ ':' :: ' ' :: prettyChars level v
  | (k, v) :: r =>
      newline level ++ quote k ++ ':' :: ' ' :: prettyChars level v ++ ',' :: prettyMembers level r

end

/-- The compact text of a value. -/
def compact (j : Json) : String := String.ofList j.compactChars

/-- The pretty text of a value, without a line end after it. -/
def pretty (j : Json) : String := String.ofList (j.prettyChars 0)

end GraphSchema.Json
