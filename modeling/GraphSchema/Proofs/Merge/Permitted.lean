import GraphSchema.Proofs.Merge.Files
import GraphSchema.Proofs.Merge.Union
import GraphSchema.Proofs.Sdl.Grammar

/-!
# Merges of what sources can hold

A merge adds nothing to the definitions of its documents but root types made of their fields, so
that what is permitted in all of them is permitted in what they are merged to.
-/

namespace GraphSchema

open Sdl

namespace Merge

variable {allowed : Allowance} {ds : List Definition}

theorem permitted_contributed (h : ∀ d ∈ ds, d.Permitted allowed) (k : OperationKind) :
    ∀ f ∈ contributed k ds, f.Permitted allowed 1 := by
  intro f hf
  obtain ⟨d, hd, hfield⟩ := List.mem_flatMap.mp hf
  have hbody := (h d (List.mem_filter.mp hd).1).body
  cases hcases : d.body with
  | object interfaces fields =>
    rw [hcases] at hbody
    rw [Definition.objectFields?, hcases] at hfield
    exact hbody.2 f hfield
  | _ =>
    rw [Definition.objectFields?, hcases] at hfield
    exact absurd hfield (by simp)

/-- A union of permitted definitions is permitted, with the root types that it makes of fields. -/
theorem permitted_union (h : ∀ d ∈ ds, d.Permitted allowed) :
    ∀ d ∈ (union ds).definitions, d.Permitted allowed := by
  have hplain : ∀ c, ∀ d ∈ plain c ds, d.Permitted allowed :=
    fun c d hd => h d (List.mem_filter.mp hd).1
  intro d hd
  simp only [union, List.mem_append, List.mem_eraseDups] at hd
  rcases hd with ((hd | hd) | hd) | hd
  · exact hplain _ d hd
  · exact hplain _ d hd
  · exact hplain _ d hd
  · obtain ⟨k, -, hroot⟩ := List.mem_filterMap.mp hd
    unfold rootObject? at hroot
    split at hroot
    · exact absurd hroot (by simp)
    · obtain rfl := Option.some.inj hroot
      have hname : IsName k.typeName := by cases k <;> decide
      refine ⟨hname, by simp, by simp, fun f hf => ?_⟩
      exact permitted_contributed h k f (List.mem_eraseDups.mp hf)

theorem permitted_ofDocuments {documents : List (String × Document)}
    (h : ∀ p ∈ documents, ∀ d ∈ p.2.definitions, d.Permitted allowed) {m : Document}
    (hm : ofDocuments documents = .ok m) : ∀ d ∈ m.definitions, d.Permitted allowed := by
  obtain ⟨-, -, rfl⟩ := union_of_ofDocuments hm
  apply permitted_union
  intro d hd
  obtain ⟨p, hp, hd⟩ := List.mem_flatMap.mp hd
  exact h p hp d hd

theorem permitted_of_texts {documents : List (String × Document)}
    (h : ∀ p ∈ documents, ∃ text, IsTextOf p.2 text) {m : Document}
    (hm : ofDocuments documents = .ok m) :
    ∀ d ∈ m.definitions, d.Permitted (.lexed fun _ => True) := by
  refine permitted_ofDocuments (fun p hp => ?_) hm
  obtain ⟨text, parsed, hparsed, hdocument⟩ := h p hp
  rw [← hdocument]
  exact Parsed.permitted_of_ofText (fun _ _ => trivial) hparsed

theorem permitted_ofFiles {read : String → Except String String} {files : List String}
    {merged : Merged} (h : ofFiles read files = .ok merged) :
    ∀ d ∈ merged.document.definitions, d.Permitted (.lexed fun _ => True) := by
  obtain ⟨ds, hds, hm⟩ := ofFiles_iff.mp ⟨merged, h, rfl⟩
  refine permitted_of_texts (fun p hp => ?_) hm
  obtain ⟨text, parsed, -, hparsed, hdocument⟩ := (List.forall₂_iff_zip.mp hds).2 hp
  exact ⟨text, parsed, hparsed, hdocument⟩

/-- What sources are merged to is permitted, where the floats are of a kind that those in their
texts are of. -/
theorem permitted_ofSources {floats : Binary64 → Prop} {sources : List (String × String)}
    (hfloats : ∀ source ∈ sources, ∀ x ∈ (Lexed.ofText source.2).floats, floats x)
    {documents : List Document}
    (hdocuments : List.Forall₂ (fun source d => IsTextOf d source.2) sources documents)
    {m : Document} (hm : ofDocuments ((sources.map (·.1)).zip documents) = .ok m) :
    ∀ d ∈ m.definitions, d.Permitted (.lexed floats) := by
  refine permitted_ofDocuments (fun p hp => ?_) hm
  obtain ⟨i, hi, hget⟩ := List.mem_iff_getElem.mp (List.of_mem_zip hp).2
  have hlength := hdocuments.length_eq
  obtain ⟨parsed, hparsed, hdocument⟩ := hdocuments.get (by omega) hi
  have hpermitted := Parsed.permitted_of_ofText
    (hfloats _ (List.get_mem sources ⟨i, by omega⟩)) hparsed
  rw [hdocument] at hpermitted
  simpa [hget] using hpermitted

end Merge

end GraphSchema
