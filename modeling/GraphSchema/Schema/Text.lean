import GraphSchema.Json.Bounds
import GraphSchema.Schema.Json

/-!
# Texts of documents

A document may be stored in a text of its own. A definition is read in full before its kind is
known, so it is held to bounds even where it has keys that are passed over. A text may have 127
arrays and objects in each other, those included that a definition stands in.
-/

namespace GraphSchema.Document

/-- Whether every definition of a stored document is within bounds. -/
def hasDefinitionsWithin (depthBound : Nat) (document : Json) : Bool :=
  match members? document >>= (·.lookup "definitions") with
  | some (.array items) => items.all (Json.isWithin depthBound)
  | _ => true

/-- The document that a value stores, if all of its definitions are within bounds. -/
def boundedOfJson? (depthBound : Nat) (j : Json) : Option Document :=
  if hasDefinitionsWithin depthBound j then ofJson? j else none

/-- How deep a definition may be in a document that stands alone, which is an object with the list
of them. -/
def definitionDepth : Nat := 125

/-- The document that a text of its own spells. -/
def ofText? (text : String) : Option Document := Json.parse text >>= boundedOfJson? definitionDepth

end GraphSchema.Document
