/-!
# Positions

Line and column in a source text, both counted from one.
-/

namespace GraphSchema.Sdl

/-- A place in a source text. -/
structure Position where
  line : Nat
  column : Nat
deriving DecidableEq, Inhabited, Repr

namespace Position

/-- The place of the first character. -/
def start : Position := ⟨1, 1⟩

/-- The first column of the next line. -/
def nextLine (p : Position) : Position := ⟨p.line + 1, 1⟩

/-- Some columns further on the same line. -/
def right (p : Position) (columns : Nat) : Position := ⟨p.line, p.column + columns⟩

/-- The place after a text: every character moves one column, a line feed to the next line. -/
def after (p : Position) (text : List Char) : Position :=
  text.foldl (fun p c => if c = '\n' then p.nextLine else p.right 1) p

/-- The place as `line:column`. -/
def render (p : Position) : String := toString p.line ++ ":" ++ toString p.column

end Position

end GraphSchema.Sdl
