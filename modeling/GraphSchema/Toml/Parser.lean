import GraphSchema.Toml.Literals
import GraphSchema.Toml.Strings
import GraphSchema.Toml.Table

/-!
# Reading TOML

A document is read line by line. A line is empty, a header, or a key and its
value; comments may end it. Arrays may run over several lines, inline tables may
not. Values nest less than eighty levels deep, and keys have less than eighty
parts.
-/

namespace GraphSchema.Toml

/-- A reader of text, which says nothing of why it fails. -/
abbrev Reader := StateT (List Char) Option

namespace Reader

/-- The next character, which stays. -/
def peek : Reader (Option Char) := fun cs => some (cs.head?, cs)

/-- Passes one given character. -/
def char (c : Char) : Reader Unit
  | [] => none
  | d :: r => if d = c then some ((), r) else none

/-- Passes a given character if it comes next, and says whether it did. -/
def accept (c : Char) : Reader Bool
  | [] => some (false, [])
  | d :: r => some (if d = c then (true, r) else (false, d :: r))

/-- Passes the blanks of a line. -/
def space : Reader Unit := fun cs => some ((), cs.dropWhile isSpace)

/-- Passes a comment up to the end of its line, if one comes next. -/
def comment : Reader Unit
  | '#' :: r => some ((), r.dropWhile isPlain)
  | cs => some ((), cs)

/-- Passes a line end, or finds the text at its end. -/
def lineEnd : Reader Unit
  | [] => some ((), [])
  | '\n' :: r => some ((), r)
  | '\r' :: '\n' :: r => some ((), r)
  | _ => none

/-- Passes what may stand behind an entry of a document. -/
def restOfLine : Reader Unit := do space; comment; lineEnd

/-- Passes blanks, comments and line ends, as many as the number says. -/
def blankLines : Nat → Reader Unit
  | 0 => pure ()
  | n + 1 => do
      space
      match ← peek with
      | some '#' => comment; lineEnd; blankLines n
      | some '\n' => lineEnd; blankLines n
      | some '\r' => lineEnd; blankLines n
      | _ => pure ()

/-- Passes blanks, comments and line ends. -/
def blanks : Reader Unit := fun cs => blankLines (cs.length + 1) cs

/-- Whether a character may stand in a key without quotes. -/
def isBare (c : Char) : Bool := c.isAlphanum || c = '_' || c = '-'

/-- Reads one part of a key. -/
def keyPart : Reader String
  | '"' :: r => (scanBasic r).map fun (s, r) => (String.ofList s, r)
  | '\'' :: r => (scanLiteral r).map fun (s, r) => (String.ofList s, r)
  | cs =>
      let (bare, r) := cs.span isBare
      if bare.isEmpty then none else some (String.ofList bare, r)

/-- Reads the parts of a key that follow dots, as many as the number says. -/
def keyParts : Nat → Reader (List String)
  | 0 => pure []
  | n + 1 => do
      space
      if ← accept '.' then
        space
        let part ← keyPart
        let more ← keyParts n
        pure (part :: more)
      else pure []

/-- How many levels values may nest, and how many parts keys may have, less one. -/
def limit : Nat := 79

/-- Reads a key with its parts: the ones on the way, and the last. -/
def key : Reader (List String × String) := do
  let first ← keyPart
  let more ← fun cs => keyParts cs.length cs
  let parts := first :: more
  if limit < parts.length then failure
  else pure (parts.dropLast, parts.getLastD first)

/-- Reads the items of an array up to its bracket, as many as the number says. -/
def items (item : Reader Value) : Nat → Reader (List Value)
  | 0 => failure
  | n + 1 => do
      blanks
      if ← accept ']' then pure []
      else
        let v ← item
        blanks
        if ← accept ',' then
          let more ← items item n
          pure (v :: more)
        else
          char ']'
          pure [v]

/-- Reads the entries of an inline table up to its brace, as many as the number says. -/
def inlineEntries (item : Reader Value) : Nat → Node.Entries → Reader Node.Entries
  | 0, _ => failure
  | n + 1, entries => do
      space
      let (path, last) ← key
      space
      char '='
      space
      let v ← item
      let entries ← StateT.lift (Node.putDotted path last v entries)
      space
      if ← accept ',' then inlineEntries item n entries
      else
        char '\x7d'
        pure entries

/-- Reads a value without parts. -/
def scalar : Reader Value := fun cs =>
  match scanString cs with
  | some (s, r) => some (.string (String.ofList s), r)
  | none => scanLiteralValue cs

/-- Reads a value that nests at most as deep as the number says. -/
def valueWithin : Nat → Reader Value
  | 0 => scalar
  | depth + 1 => do
      match ← peek with
      | some '[' =>
          char '['
          let vs ← fun cs => items (valueWithin depth) (cs.length + 1) cs
          pure (.array vs)
      | some '\x7b' =>
          char '\x7b'
          space
          if ← accept '\x7d' then pure (.table [])
          else
            let entries ← fun cs => inlineEntries (valueWithin depth) (cs.length + 1) [] cs
            pure (.table (Node.toEntries entries))
      | _ => scalar

/-- Reads a header in single or double brackets: whether it adds a table to an
array, and the key. -/
def header : Reader (Bool × List String × String) := do
  char '['
  let double ← accept '['
  space
  let (path, last) ← key
  space
  char ']'
  if double then char ']'
  pure (double, path, last)

end Reader

/-- The document as far as it is read: its entries, and the table that is open. -/
structure Progress where
  entries : Node.Entries
  opened : List String

namespace Progress

/-- Opens the table that a header names. -/
def openHeader (p : Progress) (double : Bool) (path : List String) (last : String) :
    Option Progress := do
  let change := if double then Node.openElement last else Node.openTable last
  return ⟨← Node.alter change path p.entries, path ++ [last]⟩

/-- Enters a value into the open table. -/
def enter (p : Progress) (path : List String) (last : String) (v : Value) : Option Progress := do
  return { p with entries := ← Node.alter (Node.putDotted path last v) p.opened p.entries }

end Progress

namespace Reader

/-- Reads the lines of a document, as many as the number says. -/
def lines : Nat → Progress → Reader Progress
  | 0, _ => failure
  | n + 1, p => do
      space
      match ← peek with
      | none => pure p
      | some '#' => restOfLine; lines n p
      | some '\n' => restOfLine; lines n p
      | some '\r' => restOfLine; lines n p
      | some '[' =>
          let (double, path, last) ← header
          restOfLine
          let p ← StateT.lift (p.openHeader double path last)
          lines n p
      | some _ =>
          let (path, last) ← key
          space
          char '='
          space
          let v ← valueWithin limit
          restOfLine
          let p ← StateT.lift (p.enter path last v)
          lines n p

end Reader

/-- The table that a document says. A byte order mark in front does not count. -/
def parse (text : String) : Option (List (String × Value)) :=
  let cs := match text.toList with
    | '\uFEFF' :: r => r
    | cs => cs
  ((Reader.lines (cs.length + 1) ⟨[], []⟩).run cs).map fun (p, _) => Node.toEntries p.entries

end GraphSchema.Toml
