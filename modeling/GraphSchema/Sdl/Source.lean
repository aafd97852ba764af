import GraphSchema.Diagnostic
import GraphSchema.Sdl.Grammar

/-!
# Sources

A source text with the file it stands in, if there is one: parsing it, what is
wrong with one that cannot be parsed, and the warnings about one that can.
-/

namespace GraphSchema.Sdl

/-- Why a source has no document. -/
inductive ParseError.Cause where
  /-- The text stops being a schema document at a place. -/
  | malformed (position : Position)
  /-- The file could not be read. -/
  | unreadable (reason : String)
deriving DecidableEq, Inhabited, Repr

/-- A source that could not be parsed. -/
structure ParseError where
  cause : ParseError.Cause
  file : Option String
deriving DecidableEq, Inhabited, Repr

namespace ParseError

/-- Where the text stops being a schema document. -/
def position? (e : ParseError) : Option Position :=
  match e.cause with
  | .malformed p => some p
  | .unreadable _ => none

/-- What went wrong. -/
def reason (e : ParseError) : String :=
  match e.cause with
  | .malformed p => "schema parse error: Parse error at " ++ p.render
  | .unreadable reason => "Failed to read file: " ++ reason

/-- The error as a line of text. -/
def message (e : ParseError) : String :=
  match e.file with
  | some file => "SDL parse error in " ++ file ++ ": " ++ e.reason
  | none => "SDL parse error: " ++ e.reason

/-- The error as a diagnostic. It has a location only if the source has a file. -/
def diagnostic (e : ParseError) : Diagnostic where
  code := .sdlParseError
  severity := .error
  message := "Failed to parse SDL: " ++ e.reason
  location := e.file.map fun file =>
    ⟨file, e.position?.map (·.line), e.position?.map (·.column)⟩

end ParseError

namespace Parsed

/-- What a source text holds. -/
def ofSource (text : String) (file : Option String) : Except ParseError Parsed :=
  (ofText text).mapError fun p => ⟨.malformed p, file⟩

/-- One warning for every skipped definition. A source without a file is called `<input>`. -/
def diagnostics (parsed : Parsed) (file : Option String) : List Diagnostic :=
  parsed.skipped.map fun s => {
    code := .sdlDefinitionSkipped
    severity := .warn
    message := "\x60" ++ s.label ++ "\x60 is not merged and was skipped"
    location := some ⟨file.getD "<input>", some s.position.line, some s.position.column⟩ }

end Parsed

end GraphSchema.Sdl
