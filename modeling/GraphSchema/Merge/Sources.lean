import GraphSchema.Merge.State

/-!
# Merging documents, sources and files

Three ways in, which differ in what has to be done to get at the documents.
Each goes through its inputs in order, and the first error ends it.
-/

namespace GraphSchema.Merge

/-- A merged document, and the warnings that came up on the way. -/
structure Merged where
  document : Document
  diagnostics : List Diagnostic
deriving DecidableEq, Inhabited, Repr

/-- A merge under way. -/
structure Progress where
  state : State
  diagnostics : List Diagnostic

namespace Progress

/-- The start of a merge. -/
def start : Progress := ⟨.empty, []⟩

/-- Adds a source text that has an origin. -/
def addSource (p : Progress) (source : String × String) : Except MergeError Progress := do
  let (origin, text) := source
  let parsed ← (Sdl.Parsed.ofSource text (some origin)).mapError .malformed
  let state ← p.state.addDocument origin parsed.document
  return ⟨state, p.diagnostics ++ parsed.diagnostics (some origin)⟩

/-- Adds a file, whose text `read` gives, or the reason why it has none. -/
def addFile (read : String → Except String String) (p : Progress) (file : String) :
    Except MergeError Progress := do
  let text ← (read file).mapError (.unreadable file)
  p.addSource (file, text)

/-- What has been merged. -/
def finish (p : Progress) : Merged := ⟨p.state.document, p.diagnostics⟩

end Progress

/-- Merges documents with their origins. -/
def ofDocuments (documents : List (String × Document)) : Except MergeError Document :=
  if documents.isEmpty then .error .noFiles
  else do
    let s ← documents.foldlM (fun s (origin, d) => s.addDocument origin d) State.empty
    return s.document

/-- Merges source texts with their origins. -/
def ofSources (sources : List (String × String)) : Except MergeError Merged :=
  if sources.isEmpty then .error .noFiles
  else do return (← sources.foldlM Progress.addSource .start).finish

/-- Merges files, whose texts `read` gives. -/
def ofFiles (read : String → Except String String) (files : List String) :
    Except MergeError Merged :=
  if files.isEmpty then .error .noFiles
  else do return (← files.foldlM (Progress.addFile read) .start).finish

end GraphSchema.Merge
