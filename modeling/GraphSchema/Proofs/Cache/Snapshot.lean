import GraphSchema.Cache.Lookup
import GraphSchema.Proofs.Fingerprint
import GraphSchema.Proofs.Json.Truncated
import GraphSchema.Proofs.Schema.Json

/-!
# What cached texts say

A text of the cache may be cut off. What is left of the text of a snapshot says nothing else than
this snapshot, and what is left of the text of a fingerprint is no snapshot.
-/

namespace GraphSchema

namespace Snapshot

theorem isPlain_toJson (s : Snapshot) : s.toJson.IsPlain := by
  refine .object fun m hm => ?_
  simp only [List.mem_cons, List.not_mem_nil, or_false] at hm
  obtain rfl | rfl | rfl := hm
  · exact .natural s.version
  · exact .string s.digest
  · exact s.document.isPlain_toJson

/-- A snapshot is read back if its version fits and its definitions are within bounds. -/
theorem ofJson?_toJson (s : Snapshot) : ofJson? s.toJson =
    if s.version < UInt32.size ∧
        Document.hasDefinitionsWithin definitionDepth s.document.toJson = true then some s
    else none := by
  have hread : ofJson? s.toJson =
      (Json.naturalBelow? UInt32.size (.natural s.version)).bind fun version =>
        (Document.boundedOfJson? definitionDepth s.document.toJson).bind fun document =>
          some ⟨version, s.digest, document⟩ := rfl
  rw [hread, Json.naturalBelow?, Document.boundedOfJson?_toJson]
  by_cases hversion : s.version < UInt32.size
  · by_cases hbounded : Document.hasDefinitionsWithin definitionDepth s.document.toJson = true
    · simp [hversion, hbounded]
    · simp [hversion, hbounded]
  · simp [hversion]

/-- The first part of the text of a snapshot is this snapshot or none. -/
theorem ofText?_truncated {f : Fingerprint} {d : Document} {text : String}
    (htext : text.toList <+: (of f d).toText.toList) {s : Snapshot}
    (h : ofText? text = some s) : s = of f d := by
  obtain ⟨j, hj, hs⟩ := Option.bind_eq_some_iff.mp h
  have hobject : j = (of f d).toJson := Json.parse_truncated (isPlain_toJson _) htext hj
  rw [hobject, ofJson?_toJson] at hs
  split at hs
  · exact (Option.some.inj hs).symm
  · exact absurd hs (by simp)

/-- A document with bounded definitions is read back from the text of its snapshot. -/
theorem documentFor_toText (f : Fingerprint) {d : Document}
    (hbounded : Document.hasDefinitionsWithin definitionDepth d.toJson = true) :
    documentFor f (of f d).toText = .ok d := by
  have htext : ofText? (of f d).toText = some (of f d) := by
    have hversion : (of f d).version < UInt32.size := by
      show currentVersion < UInt32.size
      decide
    show (Json.parse (of f d).toJson.pretty).bind ofJson? = _
    rw [Json.parse_pretty (isPlain_toJson _), Option.bind_some, ofJson?_toJson,
      if_pos ⟨hversion, hbounded⟩]
  unfold documentFor
  rw [htext]
  simp [of]

end Snapshot

namespace Fingerprint

theorem isPlain_toJson (f : Fingerprint) : f.toJson.IsPlain := by
  refine .object fun m hm => ?_
  obtain ⟨e, -, rfl⟩ := List.mem_map.mp hm
  exact .natural e.2.toNat

theorem ofText?_toText {f : Fingerprint} (h : f.IsOrdered) : ofText? f.toText = some f := by
  rw [ofText?, toText, Json.parse_pretty f.isPlain_toJson]
  exact ofJson?_toJson h

/-- A fingerprint has no member that is a text. -/
theorem required_text (f : Fingerprint) (key : String) :
    Json.required (f.entries.map fun (path, time) => (path, Json.natural time.toNat)) key
      Json.string? = none := by
  rw [Json.required, Json.member]
  split
  · next v h =>
    split at h
    · exact absurd h (by simp)
    · next k w hfilter =>
      have hmem := List.mem_of_mem_filter (hfilter ▸ List.mem_singleton_self (k, w))
      obtain ⟨e, -, heq⟩ := List.mem_map.mp hmem
      obtain ⟨-, rfl⟩ := Prod.mk.inj heq
      obtain rfl := Json.Member.present.inj h
      rfl
    · exact absurd h (by simp)
  · rfl

/-- The first part of the text of a fingerprint is no snapshot. -/
theorem snapshot_truncated {f : Fingerprint} {text : String}
    (htext : text.toList <+: f.toText.toList) : Snapshot.ofText? text = none := by
  cases h : Json.parse text with
  | none => rw [Snapshot.ofText?, h]; rfl
  | some j =>
    have hobject : j = f.toJson := Json.parse_truncated f.isPlain_toJson htext h
    have hread : Snapshot.ofJson? f.toJson = none := by
      show (Json.required _ "format_version" _).bind _ = none
      rw [f.required_text "fingerprint_digest"]
      cases Json.required (f.entries.map fun (path, time) => (path, Json.natural time.toNat))
        "format_version" (Json.naturalBelow? UInt32.size) <;> rfl
    rw [Snapshot.ofText?, h, hobject]
    exact hread

end Fingerprint

end GraphSchema
