import GraphSchema.Collection.Walk
import GraphSchema.Config.Basic
import GraphSchema.Diagnostic
import GraphSchema.Fingerprint

/-!
# Collecting sources

The schema files under some root directories, as a fingerprint of their real
paths and the times of their last changes. A directory that cannot be visited is
passed over with a warning, but a schema file that cannot be read ends the
collection.
-/

namespace GraphSchema

/-- The sources that were found, and the warnings that came up on the way. -/
structure Collection where
  fingerprint : Fingerprint
  diagnostics : List Diagnostic
deriving DecidableEq, Inhabited, Repr

/-- A schema file that is there and cannot be read. -/
structure CollectError where
  path : String
  reason : FileError
deriving DecidableEq, Inhabited, Repr

namespace CollectError

/-- The error as a line of text. -/
def message (e : CollectError) : String :=
  "cannot read modification time of " ++ e.path ++ ": " ++ e.reason.message

/-- The error as a diagnostic. -/
def diagnostic (e : CollectError) : Diagnostic :=
  ⟨.sourceFileUnreadable, .error, e.message, some { file := e.path }⟩

end CollectError

/-- The time of a change as it stands in fingerprints. Times before the epoch count as the epoch,
and times that 64 bits cannot hold as the last one that they can. -/
def stampOf (time : Int) : UInt64 := UInt64.ofNat (min time.toNat (UInt64.size - 1))

namespace Collection

/-- The collection of nothing. -/
def empty : Collection := ⟨.empty, []⟩

/-- The collection with a warning about a path that was passed over. -/
def skip (c : Collection) (path reason : String) : Collection :=
  { c with diagnostics := c.diagnostics ++ [⟨.sourceDirectorySkipped, .warn,
      "skipped unreadable path: " ++ reason, some { file := path }⟩] }

/-- Whether a path has the extension of schema files. -/
def hasExtension (extension path : String) : Bool := Path.extension? path == some extension

/-- The collection with what a walk came by. -/
def add (extension : String) (c : Collection) : Finding → Except CollectError Collection
  | .file path place time =>
      if hasExtension extension path then
        return { c with fingerprint := c.fingerprint.insert place.path (stampOf time) }
      else return c
  | .sealed path reason => if hasExtension extension path then throw ⟨path, reason⟩ else return c
  | .unreadable path depth reason =>
      if 0 < depth && hasExtension extension path then throw ⟨path, reason⟩
      else return c.skip path ("IO error for operation on " ++ path ++ ": " ++ reason.message)
  | .loop path ancestor =>
      return c.skip path
        ("File system loop found: " ++ path ++ " points to an ancestor " ++ ancestor)

/-- The collection with the sources under a root. -/
def addRoot (t : FileTree) (extension : String) (c : Collection) (root : String) :
    Except CollectError Collection :=
  (t.walk root).foldlM (add extension) c

end Collection

/-- Collects the sources that some settings tell of. -/
def FileTree.collect (t : FileTree) (s : SourceSettings) : Except CollectError Collection :=
  s.directories.foldlM (Collection.addRoot t s.normalizedExtension) .empty

end GraphSchema
