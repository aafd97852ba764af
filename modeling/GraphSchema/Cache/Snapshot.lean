import GraphSchema.Fingerprint
import GraphSchema.Json.Parser
import GraphSchema.Json.Printer
import GraphSchema.Schema.Text

/-!
# Cached documents

A cached document is written with the version of its layout and the digest of
the fingerprint that it was built from. Reading is strict on what it knows: a
key given twice, a value of another type or text after the value is refused.
-/

namespace GraphSchema

/-- A document as it is cached. -/
structure Snapshot where
  /-- The version of the layout. -/
  version : Nat
  /-- The digest of the fingerprint that the document was built from. -/
  digest : String
  document : Document
deriving DecidableEq, Inhabited, Repr

namespace Snapshot

/-- The version of the layout that is written and understood. -/
def currentVersion : Nat := 1

/-- The snapshot of a document that was built from the files of a fingerprint. -/
def of (f : Fingerprint) (d : Document) : Snapshot := ⟨currentVersion, f.digest, d⟩

/-- The stored form of a snapshot. -/
def toJson (s : Snapshot) : Json :=
  .object [("format_version", .natural s.version), ("fingerprint_digest", .string s.digest),
    ("document", s.document.toJson)]

/-- The text of a snapshot. -/
def toText (s : Snapshot) : String := s.toJson.pretty

/-- How many arrays and objects may stand in each other in a definition, itself included. The
text as a whole may have three more, which the definition stands in. -/
def definitionDepth : Nat := 124

/-- The snapshot that a value stores. -/
def ofJson? (j : Json) : Option Snapshot := do
  let members ← j.record? ["format_version", "fingerprint_digest", "document"]
  return {
    version := ← Json.required members "format_version" (Json.naturalBelow? UInt32.size)
    digest := ← Json.required members "fingerprint_digest" Json.string?
    document := ← Json.required members "document" (Document.boundedOfJson? definitionDepth) }

/-- The snapshot that a text spells. -/
def ofText? (text : String) : Option Snapshot := Json.parse text >>= ofJson?

end Snapshot

namespace Fingerprint

/-- The text of a fingerprint. -/
def toText (f : Fingerprint) : String := f.toJson.pretty

/-- The fingerprint that a text spells. -/
def ofText? (text : String) : Option Fingerprint := Json.parse text >>= ofJson?

end Fingerprint

end GraphSchema
