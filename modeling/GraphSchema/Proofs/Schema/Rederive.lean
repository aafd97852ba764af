import GraphSchema.Proofs.Merge.Permitted
import GraphSchema.Proofs.Merge.Stages
import GraphSchema.Proofs.Sdl.Brackets
import GraphSchema.Requirement.Analysis
import GraphSchema.Schema.Rederive

/-!
# Deriving merged schemas again

What sources are merged to is read from its own text, unless nothing is left of them or a float has
a text that is not read back.
-/

namespace GraphSchema

open Sdl

namespace Schema

theorem rederive_of_permitted {floats : Binary64 → Prop} (hfloats : ∀ x, floats x → x.IsReadable)
    {m : Document} (hne : m.definitions ≠ [])
    (hpermitted : ∀ d ∈ m.definitions, d.Permitted (.lexed floats))
    (hagain : Merge.ofDocuments [(ownOrigin, m)] = .ok m) :
    (ofDocument m).rederive = .ok m := by
  have htext := Parsed.ofText_print_permitted hfloats hne hpermitted
  have hsources : List.Forall₂ (fun source d => Merge.IsTextOf d source.2)
      [(ownOrigin, m.print)] [m] := .cons ⟨_, htext, rfl⟩ .nil
  obtain ⟨merged, hmerged, hdocument⟩ := Merge.ofSources_iff.mpr ⟨[m], hsources, hagain⟩
  show (Merge.ofSources [(ownOrigin, m.print)]).map (·.document) = _
  rw [hmerged, Except.map, hdocument]

/-- A schema that is not empty and that was merged from sources whose floats can all be read from
their texts is derived from its own text as it is, so that an analysis finds the same in both. -/
theorem rederive_ofSources {sources : List (String × String)} {m : Merge.Merged}
    (hm : Merge.ofSources sources = .ok m) (hne : m.document.definitions ≠ [])
    (hfloats : ∀ source ∈ sources, ∀ x ∈ (Lexed.ofText source.2).floats, x.IsReadable) :
    (ofDocument m.document).rederive = .ok m.document ∧
      ∀ d, (ofDocument m.document).rederive = .ok d → ∀ mapName placeholder,
        (Analyzer.mk d mapName placeholder).analyze =
          (Analyzer.mk m.document mapName placeholder).analyze := by
  obtain ⟨documents, hdocuments, hmerge⟩ := Merge.ofSources_iff.mp ⟨m, hm, rfl⟩
  have hpermitted := Merge.permitted_ofSources hfloats hdocuments hmerge
  have hagain := Merge.ofDocuments_again hmerge ownOrigin
  have hrederive := rederive_of_permitted (fun x hx => hx) hne hpermitted hagain
  refine ⟨hrederive, fun d hd mapName placeholder => ?_⟩
  obtain rfl : m.document = d := Except.ok.inj (hrederive.symm.trans hd)
  rfl

/-- A source that is merged to a schema that is not derived again. -/
def IsLost (text : String) : Prop :=
  ∃ m, Merge.ofSources [("a", text)] = .ok m ∧ ∀ d, (ofDocument m.document).rederive ≠ .ok d

theorem isLost_of_check {text : String} (h : (match Merge.ofSources [("a", text)] with
      | .ok m => !(ofDocument m.document).rederive.isOk
      | .error _ => false) = true) : IsLost text := by
  split at h
  · next m hm =>
    refine ⟨m, hm, fun d hd => ?_⟩
    rw [hd] at h
    exact absurd h (by simp [Except.isOk, Except.toBool])
  · exact absurd h (by decide)

/-- Nothing is left of a schema block, the negative infinity is no word of schema text, and no
exponent starts with a nine. -/
theorem not_rederive_ofSources : IsLost "schema \x7b query: Query \x7d" ∧
    IsLost "type Query \x7b f(x: Float = -1e400): Int \x7d" ∧
    IsLost "type Query \x7b f(x: Float = 1e+95): Int \x7d" := by
  refine ⟨isLost_of_check ?_, isLost_of_check ?_, isLost_of_check ?_⟩
  · decide +kernel
  · decide +kernel
  · decide +kernel

/-- Two files that say something of the root type. -/
def weatherSources : List (String × String) :=
  [("query.graphql", "type Query \x7b warm(above: Float = 2.50e1, any: [Float] = [1e400, -4E-9]):
      [City!] \x7d"),
    ("city.graphql", "type City \x7b name: String \x7d type Query \x7b city: City \x7d")]

theorem rederive_ofSources_weather : ∃ m, Merge.ofSources weatherSources = .ok m ∧
    m.document.definitions ≠ [] ∧
    (∀ source ∈ weatherSources, ∀ x ∈ (Lexed.ofText source.2).floats, x.IsReadable) ∧
    (ofDocument m.document).rederive = .ok m.document := by
  have hfloats : ∀ source ∈ weatherSources, ∀ x ∈ (Lexed.ofText source.2).floats,
      x.IsReadable := by decide +kernel
  have hcheck : (match Merge.ofSources weatherSources with
      | .ok m => m.document.definitions.isEmpty
      | .error _ => true) = false := by decide +kernel
  split at hcheck
  · next m hm =>
    have hne : m.document.definitions ≠ [] := by simpa using hcheck
    exact ⟨m, hm, hne, hfloats, (rederive_ofSources hm hne hfloats).1⟩
  · exact absurd hcheck (by decide)

end Schema

end GraphSchema
