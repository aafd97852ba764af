import GraphSchema.Proofs.Merge.Documents
import Mathlib.Data.List.Forall2

/-!
# Merging files and sources

A merge of files, or of sources, is the merge of the documents in them. The merged document hangs on
their texts alone, and not on what they are called.
-/

namespace GraphSchema.Merge

variable {read : String → Except String String}

/-- A text holds a document. -/
def IsTextOf (d : Document) (text : String) : Prop :=
  ∃ parsed, Sdl.Parsed.ofText text = .ok parsed ∧ parsed.document = d

/-- A file holds a document. -/
def Reads (read : String → Except String String) (file : String) (d : Document) : Prop :=
  ∃ text parsed, read file = .ok text ∧ Sdl.Parsed.ofText text = .ok parsed ∧ parsed.document = d

theorem addSource_eq_ok_iff {p q : Progress} {source : String × String} :
    p.addSource source = .ok q ↔ ∃ parsed, Sdl.Parsed.ofText source.2 = .ok parsed ∧
      p.state.addDocument source.1 parsed.document = .ok q.state ∧
        q.diagnostics = p.diagnostics ++ parsed.diagnostics (some source.1) := by
  constructor
  · intro hq
    obtain ⟨parsed, hparsed, hq⟩ := bind_eq_ok.mp hq
    obtain ⟨state, hstate, hq⟩ := bind_eq_ok.mp hq
    obtain rfl := Except.ok.inj hq
    rw [mapError_eq_ok_iff, Sdl.Parsed.ofSource, mapError_eq_ok_iff] at hparsed
    exact ⟨parsed, hparsed, hstate, rfl⟩
  · rintro ⟨parsed, hparsed, hstate, hdiagnostics⟩
    have hsource : Sdl.Parsed.ofSource source.2 (some source.1) = .ok parsed := by
      rw [Sdl.Parsed.ofSource, mapError_eq_ok_iff, hparsed]
    refine bind_eq_ok.mpr ⟨parsed, mapError_eq_ok_iff.mpr hsource, ?_⟩
    refine bind_eq_ok.mpr ⟨q.state, hstate, ?_⟩
    rw [← hdiagnostics]
    rfl

theorem addSource_iff {p : Progress} {source : String × String} {s : State} :
    (∃ q, p.addSource source = .ok q ∧ q.state = s) ↔
      ∃ d, IsTextOf d source.2 ∧ p.state.addDocument source.1 d = .ok s := by
  simp only [addSource_eq_ok_iff]
  constructor
  · rintro ⟨q, ⟨parsed, hparsed, hstate, -⟩, rfl⟩
    exact ⟨parsed.document, ⟨parsed, hparsed, rfl⟩, hstate⟩
  · rintro ⟨d, ⟨parsed, hparsed, rfl⟩, hstate⟩
    exact ⟨⟨s, _⟩, ⟨parsed, hparsed, hstate, rfl⟩, rfl⟩

theorem addFile_iff {p : Progress} {file : String} {s : State} :
    (∃ q, p.addFile read file = .ok q ∧ q.state = s) ↔
      ∃ d, Reads read file d ∧ p.state.addDocument file d = .ok s := by
  constructor
  · rintro ⟨q, hq, rfl⟩
    obtain ⟨text, htext, hq⟩ := bind_eq_ok.mp hq
    rw [mapError_eq_ok_iff] at htext
    obtain ⟨d, ⟨parsed, hparsed, hd⟩, hstate⟩ := addSource_iff.mp ⟨q, hq, rfl⟩
    exact ⟨d, ⟨text, parsed, htext, hparsed, hd⟩, hstate⟩
  · rintro ⟨d, ⟨text, parsed, htext, hparsed, hd⟩, hstate⟩
    have hsource : ∃ d, IsTextOf d (file, text).2 ∧ p.state.addDocument (file, text).1 d = .ok s :=
      ⟨d, ⟨parsed, hparsed, hd⟩, hstate⟩
    obtain ⟨q, hq, hs⟩ := addSource_iff.mpr hsource
    refine ⟨q, ?_, hs⟩
    rw [Progress.addFile, htext]
    exact hq

section Items

variable {ι : Type} {add : Progress → ι → Except MergeError Progress} {origin : ι → String}
  {holds : ι → Document → Prop}
  (hadd : ∀ p i s, (∃ q, add p i = .ok q ∧ q.state = s) ↔
    ∃ d, holds i d ∧ p.state.addDocument (origin i) d = .ok s)

include hadd

theorem foldlM_add_iff {items : List ι} {p : Progress} {s : State} :
    (∃ q, items.foldlM add p = .ok q ∧ q.state = s) ↔
      ∃ ds, List.Forall₂ holds items ds ∧ ((items.map origin).zip ds).foldlM
        (fun s (origin, d) => s.addDocument origin d) p.state = .ok s := by
  induction items generalizing p with
  | nil =>
    constructor
    · rintro ⟨q, hq, rfl⟩
      obtain rfl := Except.ok.inj hq
      exact ⟨[], .nil, rfl⟩
    · rintro ⟨ds, hds, hs⟩
      exact ⟨p, rfl, Except.ok.inj hs⟩
  | cons i items ih =>
    constructor
    · rintro ⟨q, hq, rfl⟩
      rw [List.foldlM_cons] at hq
      obtain ⟨next, hnext, hq⟩ := bind_eq_ok.mp hq
      obtain ⟨d, hd, hstate⟩ := (hadd _ _ _).mp ⟨next, hnext, rfl⟩
      obtain ⟨ds, hds, hrest⟩ := ih.mp ⟨q, hq, rfl⟩
      refine ⟨d :: ds, .cons hd hds, ?_⟩
      rw [List.map_cons, List.zip_cons_cons, List.foldlM_cons]
      exact bind_eq_ok.mpr ⟨next.state, hstate, hrest⟩
    · rintro ⟨ds, hds, hs⟩
      obtain ⟨d, ds, hd, hrest, rfl⟩ := List.forall₂_cons_left_iff.mp hds
      rw [List.map_cons, List.zip_cons_cons, List.foldlM_cons] at hs
      obtain ⟨state, hstate, hs⟩ := bind_eq_ok.mp hs
      obtain ⟨next, hnext, rfl⟩ := (hadd _ _ _).mpr ⟨d, hd, hstate⟩
      obtain ⟨q, hq, hlast⟩ := ih.mpr ⟨ds, hrest, hs⟩
      refine ⟨q, ?_, hlast⟩
      rw [List.foldlM_cons]
      exact bind_eq_ok.mpr ⟨next, hnext, hq⟩

/-- A merge of some items is the merge of the documents that they hold. -/
theorem merge_iff {items : List ι} {d : Document} :
    (∃ m, (if items.isEmpty then .error .noFiles
        else do return (← items.foldlM add .start).finish : Except MergeError Merged) = .ok m ∧
          m.document = d) ↔
      ∃ ds, List.Forall₂ holds items ds ∧ ofDocuments ((items.map origin).zip ds) = .ok d := by
  cases items with
  | nil =>
    constructor
    · rintro ⟨m, hm, -⟩
      exact absurd hm (by simp)
    · rintro ⟨ds, -, hd⟩
      exact absurd hd (by simp [ofDocuments])
  | cons i items =>
    constructor
    · rintro ⟨m, hm, rfl⟩
      obtain ⟨q, hq, hfinish⟩ := bind_eq_ok.mp hm
      obtain rfl := Except.ok.inj hfinish
      obtain ⟨ds, hds, hstate⟩ := (foldlM_add_iff hadd).mp ⟨q, hq, rfl⟩
      refine ⟨ds, hds, ?_⟩
      obtain ⟨d, ds, hd, hrest, rfl⟩ := List.forall₂_cons_left_iff.mp hds
      exact bind_eq_ok.mpr ⟨q.state, hstate, rfl⟩
    · rintro ⟨ds, hds, hd⟩
      have hfold : ∃ s, (((i :: items).map origin).zip ds).foldlM
          (fun s (origin, d) => s.addDocument origin d) State.empty = .ok s ∧ s.document = d := by
        obtain ⟨d', ds', hd', hrest, rfl⟩ := List.forall₂_cons_left_iff.mp hds
        obtain ⟨s, hs, hdocument⟩ := bind_eq_ok.mp hd
        exact ⟨s, hs, Except.ok.inj hdocument⟩
      obtain ⟨s, hs, rfl⟩ := hfold
      obtain ⟨q, hq, rfl⟩ := (foldlM_add_iff hadd (p := .start)).mpr ⟨ds, hds, hs⟩
      exact ⟨q.finish, bind_eq_ok.mpr ⟨q, hq, rfl⟩, rfl⟩

end Items

theorem ofFiles_iff {files : List String} {d : Document} :
    (∃ m, ofFiles read files = .ok m ∧ m.document = d) ↔
      ∃ ds, List.Forall₂ (Reads read) files ds ∧ ofDocuments (files.zip ds) = .ok d := by
  have hadd : ∀ p file s, (∃ q, Progress.addFile read p file = .ok q ∧ q.state = s) ↔
      ∃ d, Reads read file d ∧ p.state.addDocument (id file) d = .ok s :=
    fun _ _ _ => addFile_iff
  have h := @merge_iff _ _ _ _ hadd files d
  rw [List.map_id] at h
  exact h

theorem ofSources_iff {sources : List (String × String)} {d : Document} :
    (∃ m, ofSources sources = .ok m ∧ m.document = d) ↔
      ∃ ds, List.Forall₂ (fun source d => IsTextOf d source.2) sources ds ∧
        ofDocuments ((sources.map (·.1)).zip ds) = .ok d :=
  @merge_iff _ Progress.addSource (·.1) (fun source d => IsTextOf d source.2)
    (fun _ _ _ => addSource_iff) sources d

/-- What the documents come from does not matter where they can be merged. -/
theorem ofDocuments_of_origins {documents others : List (String × Document)}
    (h : documents.map (·.2) = others.map (·.2)) {d : Document}
    (hd : ofDocuments documents = .ok d) : ofDocuments others = .ok d := by
  have hall : ∀ l : List (String × Document),
      allDefinitions l = (l.map (·.2)).flatMap (·.definitions) := by
    intro l
    rw [allDefinitions, List.flatMap_map]
  have hsame : allDefinitions others = allDefinitions documents := by rw [hall, hall, h]
  obtain ⟨hne, hcompatible⟩ := compatible_of_ofDocuments hd
  have hother : others ≠ [] := by
    rintro rfl
    exact hne (List.map_eq_nil_iff.mp h)
  rw [ofDocuments_of_compatible hne hcompatible] at hd
  rw [ofDocuments_of_compatible hother (hsame ▸ hcompatible), hsame, hd]

section

variable {read' : String → Except String String} {files files' : List String}

/-- Files with the same texts hold the same documents. -/
theorem reads_of_texts
    (h : List.Forall₂ (fun a b => ∀ text, read a = .ok text → read' b = .ok text) files files')
    {ds : List Document} (hds : List.Forall₂ (Reads read) files ds) :
    List.Forall₂ (Reads read') files' ds := by
  induction h generalizing ds with
  | nil =>
    obtain rfl := List.forall₂_nil_left_iff.mp hds
    exact .nil
  | cons htext hrest ih =>
    obtain ⟨d, ds, ⟨text, parsed, hread, hparsed, hdocument⟩, htail, rfl⟩ :=
      List.forall₂_cons_left_iff.mp hds
    exact .cons ⟨text, parsed, htext text hread, hparsed, hdocument⟩ (ih htail)

/-- Files with the same texts are merged to the same document. -/
theorem ofFiles_of_texts
    (h : List.Forall₂ (fun a b => ∀ text, read a = .ok text → read' b = .ok text) files files')
    {m : Merged} (hm : ofFiles read files = .ok m) :
    ∃ m', ofFiles read' files' = .ok m' ∧ m'.document = m.document := by
  obtain ⟨ds, hds, hd⟩ := ofFiles_iff.mp ⟨m, hm, rfl⟩
  have hds' := reads_of_texts h hds
  have hzip : (files.zip ds).map (·.2) = ds := List.map_snd_zip (Nat.le_of_eq hds.length_eq.symm)
  have hzip' : (files'.zip ds).map (·.2) = ds :=
    List.map_snd_zip (Nat.le_of_eq hds'.length_eq.symm)
  exact ofFiles_iff.mpr ⟨ds, hds', ofDocuments_of_origins (by rw [hzip, hzip']) hd⟩

end

end GraphSchema.Merge
