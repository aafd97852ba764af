import GraphSchema.Cache.Snapshot
import GraphSchema.Config.Basic
import GraphSchema.Files.Program

/-!
# Cache lookups

A lookup finds the cached document only if the stored fingerprint, the one that
is asked for and the digest beside the document all agree. Whatever is wrong
with an artifact is a miss, and never an error.
-/

namespace GraphSchema

/-- What is wrong with a cached document that stands beside the right fingerprint. -/
inductive SnapshotFault where
  | unreadable (reason : FileError)
  /-- The text is no snapshot. -/
  | malformed
  /-- The layout has another version. -/
  | version (found : Nat)
  /-- The document was built from other files. -/
  | otherDigest
deriving DecidableEq, Inhabited, Repr

/-- The fault as a line of text. -/
def SnapshotFault.message : SnapshotFault → String
  | unreadable reason => reason.message
  | malformed => "cannot decode"
  | version found =>
      "format version " ++ toString found ++ " (expected " ++
        toString Snapshot.currentVersion ++ ")"
  | otherDigest => "fingerprint digest does not match"

/-- Why a lookup did not find a document. -/
inductive MissReason where
  /-- Caching is turned off. -/
  | disabled
  /-- There is no fingerprint, or none that can be read. -/
  | noFingerprint
  /-- The stored fingerprint is another one. -/
  | fingerprintChanged
  /-- There is no document beside the fingerprint. -/
  | snapshotMissing
  | snapshotInvalid (fault : SnapshotFault)
deriving DecidableEq, Inhabited, Repr

/-- The reason as a line of text. -/
def MissReason.message : MissReason → String
  | disabled => "caching disabled"
  | noFingerprint => "no stored fingerprint"
  | fingerprintChanged => "source files changed"
  | snapshotMissing => "document snapshot missing"
  | snapshotInvalid fault => "document snapshot invalid: " ++ fault.message

/-- What a lookup ends with. -/
inductive CacheLookup where
  | hit (document : Document)
  | miss (reason : MissReason)
deriving DecidableEq, Inhabited, Repr

namespace Snapshot

/-- The document of a text, if it was built from the files of a fingerprint. -/
def documentFor (current : Fingerprint) (text : String) : Except SnapshotFault Document :=
  match ofText? text with
  | none => .error .malformed
  | some s =>
      if s.version ≠ currentVersion then .error (.version s.version)
      else if s.digest ≠ current.digest then .error .otherDigest
      else .ok s.document

end Snapshot

namespace CacheSettings

/-- The stored fingerprint, if there is one that can be read. -/
def storedFingerprint (c : CacheSettings) : FileProgram (Option Fingerprint) := do
  match ← FileProgram.read c.fingerprintPath with
  | .ok text => return Fingerprint.ofText? text
  | .error _ => return none

/-- The cached document that stands beside the right fingerprint. -/
def storedDocument (c : CacheSettings) (current : Fingerprint) : FileProgram CacheLookup := do
  if ← FileProgram.probe c.documentPath then
    match ← FileProgram.read c.documentPath with
    | .error reason => return .miss (.snapshotInvalid (.unreadable reason))
    | .ok text =>
        match Snapshot.documentFor current text with
        | .error fault => return .miss (.snapshotInvalid fault)
        | .ok document => return .hit document
  else
    return .miss .snapshotMissing

/-- Looks for the document that was built from the files of a fingerprint. -/
def lookup (c : CacheSettings) (current : Fingerprint) : FileProgram CacheLookup := do
  if c.enabled then
    match ← c.storedFingerprint with
    | none => return .miss .noFingerprint
    | some stored =>
        if stored.same current then c.storedDocument current
        else return .miss .fingerprintChanged
  else
    return .miss .disabled

end CacheSettings

end GraphSchema
