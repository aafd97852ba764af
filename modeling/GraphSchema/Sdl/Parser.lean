import GraphSchema.Sdl.Lexer

/-!
# Parsers over tokens

A parser reads tokens from the front of a list. One that fails says at which
token it could not go on, or that the tokens had ended. One token of look-ahead
decides every choice, so nothing is ever read twice.
-/

namespace GraphSchema.Sdl

/-- Where a parser could not go on. -/
inductive Failure where
  | located (position : Position)
  /-- After the last token. -/
  | atEnd
deriving DecidableEq, Repr

/-- A parser of tokens. -/
abbrev Parser := StateT (List Located) (Except Failure)

namespace Parser

variable {α : Type}

/-- Fails at the next token. -/
def failHere : Parser α
  | [] => .error .atEnd
  | t :: _ => .error (.located t.position)

/-- Fails at a given place. -/
def failAt (p : Position) : Parser α := fun _ => .error (.located p)

/-- The next token, which stays. -/
def peek : Parser (Option Token) := fun ts => .ok (ts.head?.map (·.token), ts)

/-- The place of the next token. -/
def position : Parser Position
  | [] => .error .atEnd
  | t :: r => .ok (t.position, t :: r)

/-- Passes the next token. -/
def skip : Parser Unit := fun ts => .ok ((), ts.tail)

/-- Reads one given token. -/
def expect (token : Token) : Parser Unit
  | [] => .error .atEnd
  | t :: r => if t.token = token then .ok ((), r) else .error (.located t.position)

/-- Reads a given token if it comes next, and says whether it did. -/
def accept (token : Token) : Parser Bool
  | [] => .ok (false, [])
  | t :: r => if t.token = token then .ok (true, r) else .ok (false, t :: r)

/-- Reads a punctuator. -/
def mark (c : Char) : Parser Unit := expect (.punctuator c)

/-- Reads a name. -/
def name : Parser String
  | [] => .error .atEnd
  | ⟨p, token⟩ :: r =>
      match token with
      | .name s => .ok (s, r)
      | _ => .error (.located p)

/-- Reads a string if one comes next. -/
def string? : Parser (Option String)
  | [] => .ok (none, [])
  | ⟨p, token⟩ :: r =>
      match token with
      | .string s => .ok (some s, r)
      | t => .ok (none, ⟨p, t⟩ :: r)

/-- Whether a token is a name. -/
def isName : Token → Bool
  | .name _ => true
  | _ => false

/-- Whether a token is a name or a string. -/
def isNameOrString : Token → Bool
  | .name _ => true
  | .string _ => true
  | _ => false

/-- Reads items, at most as many as the number says, while the next token starts one. -/
def manyWithin (starts : Token → Bool) (item : Parser α) : Nat → Parser (List α)
  | 0 => pure []
  | n + 1 => do
      match ← peek with
      | none => pure []
      | some t =>
          if starts t then
            let x ← item
            let xs ← manyWithin starts item n
            pure (x :: xs)
          else pure []

/-- Reads items while the next token starts one. An item takes a token at least. -/
def many (starts : Token → Bool) (item : Parser α) : Parser (List α) :=
  fun ts => manyWithin starts item ts.length ts

/-- Reads one item, and more while the next token starts one. -/
def oneOrMore (starts : Token → Bool) (item : Parser α) : Parser (List α) := do
  let x ← item
  let xs ← many starts item
  pure (x :: xs)

/-- Reads items with a punctuator between them. -/
def separated (c : Char) (item : Parser α) : Parser (List α) := do
  let x ← item
  let xs ← many (· == .punctuator c) do mark c; item
  pure (x :: xs)

/-- Reads what stands between two punctuators if the first comes next. -/
def between (opening closing : Char) (inner : Parser (List α)) : Parser (List α) := do
  if ← accept (.punctuator opening) then
    let xs ← inner
    mark closing
    pure xs
  else pure []

end Parser

end GraphSchema.Sdl
