import GraphSchema.Text.Blank

/-!
# Block strings

A string literal over several lines. It ends at three quotes, unless a backslash
inside the block stands before them. Its value is the text without the blank
lines around it and without the indentation that its lines share, where the
first line does not count.
-/

namespace GraphSchema.Sdl.BlockString

/-- Reads the rest of a block, its closing quotes included. The flag tells
whether the character before is a backslash of the block; quotes after one are
passed all three together. -/
def scan : Bool → List Char → Option (List Char × List Char)
  | _, [] => none
  | escaped, '"' :: '"' :: '"' :: r =>
      if escaped then do
        let (s, rest) ← scan false r
        return ('"' :: '"' :: '"' :: s, rest)
      else some ([], r)
  | _, c :: r => do
      let (s, rest) ← scan (c == '\\') r
      return (c :: s, rest)

/-- The lines of a text. A line feed ends a line, together with a carriage
return before it; there is no empty line after the last one. -/
def lines : List Char → List (List Char)
  | [] => []
  | '\n' :: r => [] :: lines r
  | '\r' :: '\n' :: r => [] :: lines r
  | c :: r =>
      match lines r with
      | [] => [[c]]
      | l :: ls => (c :: l) :: ls

/-- The number of bytes of a text. -/
def byteLength (s : List Char) : Nat := s.foldr (·.utf8Size + ·) 0

/-- The bytes of blanks that a line starts with. -/
def indentation (line : List Char) : Nat := byteLength (line.takeWhile Text.isBlank)

/-- The text after a number of bytes. -/
def dropBytes : Nat → List Char → List Char
  | 0, s => s
  | _, [] => []
  | n, c :: r => dropBytes (n - c.utf8Size) r

/-- The least indentation of the lines that are not blank, zero when there are none. -/
def sharedIndentation (lines : List (List Char)) : Nat :=
  (((lines.filter fun l => !Text.isBlankText l).map indentation).min?).getD 0

/-- A line without the shared indentation, if it is long enough to have one. -/
def outdent (shared : Nat) (line : List Char) : List Char :=
  if shared ≤ byteLength line then dropBytes shared line else line

/-- The text with the backslash left out where it stands before three quotes. -/
def unescape : List Char → List Char
  | [] => []
  | '\\' :: '"' :: '"' :: '"' :: r => '"' :: '"' :: '"' :: unescape r
  | c :: r => c :: unescape r

/-- The lines without the blank ones at both ends. -/
def trimLines (lines : List (List Char)) : List (List Char) :=
  ((lines.dropWhile Text.isBlankText).reverse.dropWhile Text.isBlankText).reverse

/-- The value of a block whose text stands between its quotes. -/
def value (text : List Char) : List Char :=
  match lines text with
  | [] => []
  | first :: rest =>
      let shared := sharedIndentation rest
      let kept := trimLines (first :: rest.map (outdent shared))
      ['\n'].intercalate (kept.map unescape)

end GraphSchema.Sdl.BlockString
