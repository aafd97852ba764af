import GraphSchema.Cache.Snapshot
import GraphSchema.Config.Basic
import GraphSchema.Diagnostic
import GraphSchema.Files.Program

/-!
# Writing the cache

The fingerprint and the document are one unit of two files. A store takes the
stored fingerprint away first and writes the new one last, so that in between no
lookup can find anything. Each text is written to a file beside its path and
then moved there. If a store fails, it tries to take the fingerprint away once
more.
-/

namespace GraphSchema

/-- A call that failed while the cache was written. -/
structure CacheError where
  path : String
  reason : FileError
deriving DecidableEq, Inhabited, Repr

namespace CacheError

/-- The error as a line of text. -/
def message (e : CacheError) : String := "cache I/O error at " ++ e.path ++ ": " ++ e.reason.message

/-- The error as a diagnostic. A build goes on without its cache. -/
def diagnostic (e : CacheError) : Diagnostic :=
  ⟨.cacheWriteFailed, .warn, e.message, some { file := e.path }⟩

end CacheError

/-- Steps on the cache, which end at the first call that fails. -/
abbrev CacheProgram (α : Type) := ExceptT CacheError FileProgram α

namespace CacheProgram

/-- A call whose failure is told of a path. -/
def located (path : String) (p : FileProgram (Except FileError Unit)) : CacheProgram Unit :=
  ExceptT.mk do
    match ← p with
    | .ok () => return .ok ()
    | .error reason => return .error ⟨path, reason⟩

/-- Removes a file, unless there is none. -/
def removeIfPresent (path : String) : CacheProgram Unit :=
  ExceptT.mk do
    match ← FileProgram.remove path with
    | .ok () => return .ok ()
    | .error .missing => return .ok ()
    | .error reason => return .error ⟨path, reason⟩

/-- The file beside a path where a text is written before it is moved there. -/
def temporaryPath (path : String) : String :=
  Path.withFileName path ((Path.fileName? path).getD "" ++ ".tmp")

/-- Writes a text beside a path, and then moves it there. -/
def replaceText (path text : String) : CacheProgram Unit := do
  located (temporaryPath path) (FileProgram.write (temporaryPath path) text)
  located path (FileProgram.rename (temporaryPath path) path)

end CacheProgram

namespace CacheSettings

/-- Writes both artifacts, the fingerprint last. -/
def writeArtifacts (c : CacheSettings) (f : Fingerprint) (d : Document) : CacheProgram Unit := do
  CacheProgram.located c.directory (FileProgram.makeDirectories c.directory)
  CacheProgram.removeIfPresent c.fingerprintPath
  CacheProgram.replaceText c.documentPath (Snapshot.of f d).toText
  CacheProgram.replaceText c.fingerprintPath f.toText

/-- Stores a document that was built from the files of a fingerprint. -/
def store (c : CacheSettings) (f : Fingerprint) (d : Document) : CacheProgram Unit :=
  ExceptT.mk do
    match ← (c.writeArtifacts f d).run with
    | .ok () => return .ok ()
    | .error e =>
        let _ ← FileProgram.remove c.fingerprintPath
        return .error e

/-- Removes both artifacts, as far as they are there. -/
def clear (c : CacheSettings) : CacheProgram Unit := do
  CacheProgram.removeIfPresent c.fingerprintPath
  CacheProgram.removeIfPresent c.documentPath

end CacheSettings

end GraphSchema
