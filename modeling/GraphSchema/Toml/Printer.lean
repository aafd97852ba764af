import GraphSchema.Text.Hex

/-!
# Writing TOML

A string is written in the plainest of the kinds that can hold it: on one line
with escapes for tabs alone, literally, over several lines, and only then with
whatever escapes it needs. A key goes without quotes if it can.
-/

namespace GraphSchema.Toml

/-- Whether a character has to be escaped wherever it stands: a control
character other than tab and line feed. -/
def needsEscape (c : Char) : Bool :=
  (c.toNat < 0x20 || c.toNat = 0x7F) && c ≠ '\t' && c ≠ '\n'

/-- The length of the longest run of a character; the first argument is that of the run before. -/
def longestRun (mark : Char) : Nat → List Char → Nat
  | run, [] => run
  | run, c :: r => if c = mark then longestRun mark (run + 1) r else max run (longestRun mark 0 r)

/-- The escape of a character that may not stand for itself. -/
def escape (c : Char) : List Char :=
  if c = '\x08' then ['\\', 'b']
  else if c = '\t' then ['\\', 't']
  else if c = '\n' then ['\\', 'n']
  else if c = '\x0c' then ['\\', 'f']
  else if c = '\r' then ['\\', 'r']
  else if c = '"' then ['\\', '"']
  else if c = '\\' then ['\\', '\\']
  else '\\' :: 'u' :: Text.hexQuad Text.hexDigitUpper c.toNat

/-- The inside of a basic string. Quotes stand for themselves in runs of at most
`quotes`; the second argument counts those just before. -/
def basicChars (severalLines : Bool) (quotes : Nat) : Nat → List Char → List Char
  | _, [] => []
  | run, c :: r =>
      if c = '"' then
        if run < quotes then c :: basicChars severalLines quotes (run + 1) r
        else escape c ++ basicChars severalLines quotes 0 r
      else if c = '\n' ∧ severalLines then c :: basicChars severalLines quotes 0 r
      else if c = '\t' ∨ c = '\n' ∨ c = '\\' ∨ needsEscape c then
        escape c ++ basicChars severalLines quotes 0 r
      else c :: basicChars severalLines quotes 0 r

/-- A basic string on one line. -/
def basic (s : List Char) : List Char := '"' :: basicChars false 0 0 s ++ ['"']

/-- A literal string on one line. -/
def literal (s : List Char) : List Char := '\'' :: s ++ ['\'']

/-- The line end behind the opening quotes of a string that has several lines. -/
def firstLineEnd (s : List Char) : List Char := if s.contains '\n' then ['\n'] else []

/-- A basic string between three quotes. -/
def basicLines (s : List Char) : List Char :=
  ['"', '"', '"'] ++ firstLineEnd s ++ basicChars true 2 0 s ++ ['"', '"', '"']

/-- A literal string between three quotes. -/
def literalLines (s : List Char) : List Char :=
  ['\'', '\'', '\''] ++ firstLineEnd s ++ s ++ ['\'', '\'', '\'']

/-- The written form of a string. -/
def quoteChars (s : List Char) : List Char :=
  let escapes := s.any needsEscape
  let backslash := s.contains '\\'
  let newline := s.contains '\n'
  let doubles := longestRun '"' 0 s
  let singles := longestRun '\'' 0 s
  if !escapes && !backslash && doubles == 0 && !newline then basic s
  else if !escapes && singles == 0 && !newline then literal s
  else if !escapes && !backslash && doubles ≤ 2 then basicLines s
  else if !escapes && singles ≤ 2 then literalLines s
  else if newline then basicLines s
  else basic s

/-- The written form of a string. -/
def quote (s : String) : String := String.ofList (quoteChars s.toList)

/-- Whether a key needs no quotes. -/
def isBareKey (s : List Char) : Bool :=
  !s.isEmpty && s.all fun c => c.isAlphanum || c = '_' || c = '-'

/-- The written form of a key. -/
def keyChars (s : List Char) : List Char :=
  let escapes := s.any fun c => needsEscape c || c = '\n'
  if isBareKey s then s
  else if !escapes && !s.contains '\\' && !s.contains '"' then basic s
  else if !escapes && !s.contains '\'' then literal s
  else basic s

/-- The written form of a key. -/
def quoteKey (s : String) : String := String.ofList (keyChars s.toList)

/-- An array of strings: on one line, or with each of several on a line of its own. -/
def quoteAll (items : List String) : String :=
  match items with
  | [] => "[]"
  | [s] => "[" ++ quote s ++ "]"
  | _ => "[\n" ++ String.join (items.map fun s => "    " ++ quote s ++ ",\n") ++ "]"

/-- A line with a key and its value. -/
def entry (key value : String) : String := quoteKey key ++ " = " ++ value ++ "\n"

end GraphSchema.Toml
