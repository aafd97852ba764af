import GraphSchema.Sdl.Token

/-!
# Lexing

A source text as its tokens. Lexing stops at the end of the text or at the first
place where no token can be read; what stands before is kept either way. At most
fifty brackets may be open at once.

Blanks and commas move one column and a tab eight. Carriage returns, byte order
marks and comments move none; the character that ends a comment ends its line.
-/

namespace GraphSchema.Sdl

/-- What lexing a text gives. -/
structure Lexed where
  tokens : List Located
  /-- Where lexing stopped, after any blanks. -/
  stop : Position
  /-- Whether the text ended there. -/
  complete : Bool
deriving DecidableEq, Repr

namespace Lexed

/-- How many brackets may be open at once. -/
def bracketLimit : Nat := 50

/-- The text and the place after blanks and comments. The flag tells whether a
comment is open. -/
def skipBlanks : Bool → Position → List Char → Position × List Char
  | _, p, [] => (p, [])
  | true, p, c :: r =>
      if c = '\r' ∨ c = '\n' then skipBlanks false p.nextLine r else skipBlanks true p r
  | false, p, c :: r =>
      if c = ' ' ∨ c = ',' then skipBlanks false (p.right 1) r
      else if c = '\t' then skipBlanks false (p.right 8) r
      else if c = '\n' then skipBlanks false p.nextLine r
      else if c = '\r' ∨ c = '\uFEFF' then skipBlanks false p r
      else if c = '#' then skipBlanks true p r
      else (p, c :: r)

/-- Lexes a text from a place on, with some brackets open. The first argument
bounds the number of tokens. -/
def lexFrom : Nat → Nat → Position → List Char → Lexed
  | 0, _, p, _ => ⟨[], p, false⟩
  | n + 1, opened, p, cs =>
      let (p, cs) := skipBlanks false p cs
      if cs.isEmpty then ⟨[], p, true⟩
      else
        let next? := do
          let (token, rest) ← Token.scan cs
          return (token, rest, ← token.bracketsAfter? bracketLimit opened)
        match next? with
        | none => ⟨[], p, false⟩
        | some (token, rest, opened) =>
            let l := lexFrom n opened (p.after (cs.take (cs.length - rest.length))) rest
            { l with tokens := ⟨p, token⟩ :: l.tokens }

/-- Lexes a whole text. -/
def ofText (text : String) : Lexed :=
  lexFrom (text.toList.length + 1) 0 .start text.toList

end Lexed

end GraphSchema.Sdl
