import GraphSchema.Merge.Sources
import GraphSchema.Schema.Index
import GraphSchema.Sdl.Printer

/-!
# Deriving a schema again

A schema as text, and the document that merging this text alone gives.
-/

namespace GraphSchema.Schema

/-- The schema as text. -/
def toSdl (s : Schema) : String := s.document.print

/-- The origin of a schema's own text. -/
def ownOrigin : String := "<schema>"

/-- The document that a schema's own text is merged to. -/
def rederive (s : Schema) : Except MergeError Document :=
  (Merge.ofSources [(ownOrigin, s.toSdl)]).map (·.document)

end GraphSchema.Schema
