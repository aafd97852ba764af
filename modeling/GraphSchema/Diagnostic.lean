import GraphSchema.Json.Basic

/-!
# Diagnostics

What is told about a build: a stable code, a severity, a message, and as far as
it is known the place. Severities are ordered, and so are compared by rank.
-/

namespace GraphSchema

/-- The codes of diagnostics. They are stable names. -/
inductive DiagnosticCode where
  | sourceDirectorySkipped
  | sourceFileUnreadable
  | sourceFilesMissing
  | sdlParseError
  | sdlDefinitionSkipped
  | mergeDefinitionConflict
  | mergeRootFieldConflict
  | cacheWriteFailed
  | cacheArtifactInvalid
  | analysisNoRequirements
  | analysisInvalidTypeReference
deriving DecidableEq, Inhabited, Repr

namespace DiagnosticCode

/-- All codes. -/
def all : List DiagnosticCode :=
  [sourceDirectorySkipped, sourceFileUnreadable, sourceFilesMissing, sdlParseError,
    sdlDefinitionSkipped, mergeDefinitionConflict, mergeRootFieldConflict, cacheWriteFailed,
    cacheArtifactInvalid, analysisNoRequirements, analysisInvalidTypeReference]

/-- The name of a code. -/
def name : DiagnosticCode → String
  | sourceDirectorySkipped => "SOURCE_DIRECTORY_SKIPPED"
  | sourceFileUnreadable => "SOURCE_FILE_UNREADABLE"
  | sourceFilesMissing => "SOURCE_FILES_MISSING"
  | sdlParseError => "SDL_PARSE_ERROR"
  | sdlDefinitionSkipped => "SDL_DEFINITION_SKIPPED"
  | mergeDefinitionConflict => "MERGE_DEFINITION_CONFLICT"
  | mergeRootFieldConflict => "MERGE_ROOT_FIELD_CONFLICT"
  | cacheWriteFailed => "CACHE_WRITE_FAILED"
  | cacheArtifactInvalid => "CACHE_ARTIFACT_INVALID"
  | analysisNoRequirements => "ANALYSIS_NO_REQUIREMENTS"
  | analysisInvalidTypeReference => "ANALYSIS_INVALID_TYPE_REFERENCE"

/-- The code of a name. -/
def ofName? (name : String) : Option DiagnosticCode := all.find? (·.name == name)

/-- The code that a value stores. -/
def ofJson? (j : Json) : Option DiagnosticCode := j.case? Json.isNull >>= ofName?

end DiagnosticCode

/-- How grave a diagnostic is. -/
inductive Severity where
  /-- For information. -/
  | info
  /-- The build went on, but left something out. -/
  | warn
  /-- The build failed. -/
  | error
deriving DecidableEq, Inhabited, Repr

namespace Severity

/-- All severities, the gravest last. -/
def all : List Severity := [info, warn, error]

/-- The name of a severity. -/
def name : Severity → String
  | info => "info"
  | warn => "warn"
  | error => "error"

/-- The severity of a name. -/
def ofName? (name : String) : Option Severity := all.find? (·.name == name)

/-- The severity that a value stores. -/
def ofJson? (j : Json) : Option Severity := j.case? Json.isNull >>= ofName?

/-- The place of a severity in their order. -/
def rank : Severity → Nat
  | info => 0
  | warn => 1
  | error => 2

/-- Whether a severity is as grave as another, or graver. -/
def atLeast (s t : Severity) : Bool := t.rank ≤ s.rank

end Severity

/-- A place in a file, or a file or directory as a whole. -/
structure Location where
  file : String
  line : Option Nat := none
  column : Option Nat := none
deriving DecidableEq, Inhabited, Repr

namespace Location

/-- The location as `file:line:column`, as far as it is known. A column without a line is left
out. -/
def render (l : Location) : String :=
  match l.line, l.column with
  | some line, some column => l.file ++ ":" ++ toString line ++ ":" ++ toString column
  | some line, none => l.file ++ ":" ++ toString line
  | none, _ => l.file

/-- The stored form of a location. -/
def toJson (l : Location) : Json :=
  let number (n : Option Nat) : Json := n.elim .null .natural
  .object [("file", .string l.file), ("line", number l.line), ("column", number l.column)]

/-- The location that a value stores. Lines and columns are numbers of 64 bits. -/
def ofJson? (j : Json) : Option Location := do
  let members ← j.fullRecord? ["file", "line", "column"]
  let number := Json.nullable? (Json.naturalBelow? UInt64.size)
  return {
    file := ← Json.required members "file" Json.string?
    line := ← Json.optional members "line" none number
    column := ← Json.optional members "column" none number }

end Location

/-- A diagnostic. -/
structure Diagnostic where
  code : DiagnosticCode
  severity : Severity
  message : String
  location : Option Location := none
deriving DecidableEq, Inhabited, Repr

namespace Diagnostic

/-- The diagnostic as a line of text. -/
def render (d : Diagnostic) : String :=
  let place := match d.location with
    | some l => " (" ++ l.render ++ ")"
    | none => ""
  d.severity.name ++ "[" ++ d.code.name ++ "]: " ++ d.message ++ place

/-- The stored form of a diagnostic. -/
def toJson (d : Diagnostic) : Json :=
  .object [("code", .string d.code.name), ("severity", .string d.severity.name),
    ("message", .string d.message), ("location", d.location.elim .null Location.toJson)]

/-- The diagnostic that a value stores. -/
def ofJson? (j : Json) : Option Diagnostic := do
  let members ← j.fullRecord? ["code", "severity", "message", "location"]
  return {
    code := ← Json.required members "code" DiagnosticCode.ofJson?
    severity := ← Json.required members "severity" Severity.ofJson?
    message := ← Json.required members "message" Json.string?
    location := ← Json.optional members "location" none (Json.nullable? Location.ofJson?) }

end Diagnostic

end GraphSchema
