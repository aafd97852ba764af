import GraphSchema.Proofs.Cache.Snapshot
import GraphSchema.Proofs.Merge.Permitted
import GraphSchema.Proofs.Schema.Depth

/-!
# Documents in storage

What parsed sources are merged to is read back as it was stored, from a compact or a pretty text,
alone or in a snapshot of any version with any digest.
-/

namespace GraphSchema

open Json (Layout)

variable {floats : Binary64 → Prop} {d : Document}

namespace Document

/-- A document that sources can say is read back from its own text in any layout. -/
theorem ofText?_write (l : Layout) (h : ∀ x ∈ d.definitions, x.Permitted (.lexed floats)) :
    ofText? (String.ofList (l.write 0 d.toJson)) = some d := by
  show (Json.parse (String.ofList (l.write 0 d.toJson))).bind (boundedOfJson? definitionDepth) = _
  rw [l.parse_write d.isPlain_toJson, Option.bind_some, boundedOfJson?_toJson,
    if_pos (hasDefinitionsWithin_toJson h (by decide))]

end Document

namespace Snapshot

/-- A snapshot of such a document is read back, whatever its version and its digest are. -/
theorem ofText?_write (l : Layout) (h : ∀ x ∈ d.definitions, x.Permitted (.lexed floats))
    (version : UInt32) (digest : String) :
    ofText? (String.ofList (l.write 0 (Snapshot.mk version.toNat digest d).toJson)) =
      some ⟨version.toNat, digest, d⟩ := by
  show (Json.parse (String.ofList (l.write 0 _))).bind ofJson? = _
  rw [l.parse_write (isPlain_toJson _), Option.bind_some, ofJson?_toJson,
    if_pos ⟨version.toNat_lt_size, Document.hasDefinitionsWithin_toJson h (by decide)⟩]

end Snapshot

namespace Document

/-- What parsed sources are merged to is read back equal from every text that it is stored in. -/
theorem ofText?_merged {documents : List (String × Document)}
    (hparsed : ∀ p ∈ documents, ∃ text, Merge.IsTextOf p.2 text)
    (hmerged : Merge.ofDocuments documents = .ok d) :
    ofText? d.toJson.pretty = some d ∧ ofText? d.toJson.compact = some d ∧
      ∀ (version : UInt32) (digest : String),
        Snapshot.ofText? (Snapshot.mk version.toNat digest d).toJson.pretty =
            some ⟨version.toNat, digest, d⟩ ∧
          Snapshot.ofText? (Snapshot.mk version.toNat digest d).toJson.compact =
            some ⟨version.toNat, digest, d⟩ := by
  have hpermitted := Merge.permitted_of_texts hparsed hmerged
  refine ⟨ofText?_write .pretty hpermitted, ofText?_write .compact hpermitted,
    fun version digest => ⟨?_, ?_⟩⟩
  · exact Snapshot.ofText?_write .pretty hpermitted version digest
  · exact Snapshot.ofText?_write .compact hpermitted version digest

/-- A source with much that is left out when it is stored, and some that is not. -/
def menuText : String :=
  "\"Größe \\u0001\" interface Sized @shown \x7b size(in: [Unit!]! = CM): Float! \x7d
    union Meal = Dish  enum Unit \x7b \"a\\\"b\" CM @old(by: \"\") \x7d
    input Order \x7b of: [ID] = [3] \x7d"

def menuDocument : Document :=
  ⟨[⟨"Sized", some "Größe \x01", [⟨"shown", []⟩], .interface [] [⟨"size", none,
      [⟨"in", none, .nonNull (.list (.nonNull (.named "Unit"))), some "CM", []⟩],
      .nonNull (.named "Float"), []⟩]⟩,
    ⟨"Meal", none, [], .union ["Dish"]⟩,
    ⟨"Unit", none, [], .enum [⟨"CM", some "a\"b", [⟨"old", [⟨"by", "\"\""⟩]⟩]⟩]⟩,
    ⟨"Order", none, [], .inputObject [⟨"of", none, .list (.named "ID"), some "[3]", []⟩]⟩]⟩

def weightDocument : Document := ⟨[⟨"Weight", none, [], .scalar⟩]⟩

theorem ofText?_merged_menu :
    (∀ p ∈ [("menu", menuDocument), ("weight", weightDocument)],
      ∃ text, Merge.IsTextOf p.2 text) ∧
    Merge.ofDocuments [("menu", menuDocument), ("weight", weightDocument)] =
      .ok ⟨weightDocument.definitions ++ menuDocument.definitions⟩ ∧
    ofText? (toJson ⟨weightDocument.definitions ++ menuDocument.definitions⟩).compact =
      some ⟨weightDocument.definitions ++ menuDocument.definitions⟩ := by
  have hmenu : Merge.IsTextOf menuDocument menuText :=
    ⟨⟨menuDocument, []⟩, by decide +kernel, rfl⟩
  have hweight : Merge.IsTextOf weightDocument "scalar Weight" :=
    ⟨⟨weightDocument, []⟩, by decide +kernel, rfl⟩
  have hparsed : ∀ p ∈ [("menu", menuDocument), ("weight", weightDocument)],
      ∃ text, Merge.IsTextOf p.2 text := by
    simp only [List.forall_mem_cons, List.not_mem_nil, false_implies, implies_true, and_true]
    exact ⟨⟨_, hmenu⟩, _, hweight⟩
  have hmerged : Merge.ofDocuments [("menu", menuDocument), ("weight", weightDocument)] =
      .ok ⟨weightDocument.definitions ++ menuDocument.definitions⟩ := by decide +kernel
  exact ⟨hparsed, hmerged, (ofText?_merged hparsed hmerged).2.1⟩

end Document

end GraphSchema
