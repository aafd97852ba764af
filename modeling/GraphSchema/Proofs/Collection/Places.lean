import GraphSchema.Collection.Basic
import GraphSchema.Proofs.Fingerprint
import GraphSchema.Proofs.Run

/-!
# Recorded places

A collection records each file under the path of its place. As names are those of files, such a path
tells the place, so that a file is recorded in one spelling however the walk came there.
-/

namespace GraphSchema

theorem Path.components_segments {place : Place} (h : ∀ name ∈ place, IsEntryName name) :
    (segments (['/'].intercalate (place.map String.toList))).filterMap component? =
      place.map .name := by
  induction place with
  | nil => rfl
  | cons name place ih =>
    obtain ⟨hname, hplace⟩ := List.forall_mem_cons.mp h
    have hsegment : (segments name.toList).filterMap component? = [.name name] := by
      rw [segments_of_notMem hname.single, List.filterMap_cons, component?_of_isEntryName hname]
      rfl
    cases place with
    | nil =>
      rw [List.map_singleton, List.map_singleton, List.intercalate_singleton]
      exact hsegment
    | cons next rest =>
      rw [List.map_cons, List.map_cons, List.intercalate_cons_cons, List.append_assoc,
        List.singleton_append, segments_append, List.filterMap_append, hsegment, ← List.map_cons,
        ih hplace]
      rfl

namespace Place

theorem components_path {place : Place} (h : ∀ name ∈ place, Path.IsEntryName name) :
    Path.components place.path = .root :: place.map .name := by
  have hchars : place.path.toList = [] ++ '/' :: ['/'].intercalate (place.map String.toList) := by
    rw [path, String.toList_append, String.toList_intercalate]
    rfl
  rw [Path.components_eq, hchars, Path.segments_append, List.filterMap_append,
    Path.components_segments h]
  rfl

/-- A place is told by its path. -/
theorem eq_of_same {place other : Place} (h : ∀ name ∈ place, Path.IsEntryName name)
    (hother : ∀ name ∈ other, Path.IsEntryName name)
    (hsame : Path.same place.path other.path = true) : place = other := by
  rw [Path.same, beq_iff_eq, components_path h, components_path hother] at hsame
  exact List.map_injective_iff.mpr (fun a b => Path.Component.name.inj) (List.cons.inj hsame).2

end Place

/-- A path from the root down to a place, without dots and with single slashes. -/
def Path.IsCanonical (path : String) : Prop :=
  ∃ place : Place, (∀ name ∈ place, IsEntryName name) ∧ path = place.path

/-- A canonical path is spelled in one way. -/
theorem Path.IsCanonical.eq_of_same {a b : String} (ha : IsCanonical a) (hb : IsCanonical b)
    (h : same a b = true) : a = b := by
  obtain ⟨place, hplace, rfl⟩ := ha
  obtain ⟨other, hother, rfl⟩ := hb
  rw [Place.eq_of_same hplace hother h]

/-- All that stands in a tree stands under names that a file can have. -/
def FileTree.HasFileNames (t : FileTree) : Prop :=
  ∀ place, (t.node? place).isSome → ∀ name ∈ place, Path.IsEntryName name

/-- An ordered fingerprint of files under the paths of their places. -/
structure Fingerprint.Records (f : Fingerprint) (t : FileTree) : Prop where
  ordered : f.IsOrdered
  places : ∀ e ∈ f.entries, ∃ place, (t.node? place).isSome ∧ e.1 = Place.path place

theorem FileTree.isSome_of_mem_walkFrom {t : FileTree} {steps : Nat} {inside : List Ancestor}
    {path found : String} {place target : Place} {time : Int}
    (h : .file found target time ∈ t.walkFrom steps inside path place) :
    (t.node? target).isSome := by
  fun_induction walkFrom t steps inside path place with
  | case1 | case2 | case3 | case5 | case7 | case8 => exact absurd h (by simp)
  | case4 _ path place _ _ time hfile =>
    obtain ⟨-, rfl, -⟩ := Finding.file.inj (List.mem_singleton.mp h)
    rw [hfile]
    rfl
  | case6 _ _ _ _ _ _ _ ih =>
    obtain ⟨entry, -, hentry⟩ := List.mem_flatMap.mp h
    exact ih _ hentry
  | case9 _ _ _ _ _ _ _ _ _ ih => exact ih h

theorem FileTree.isSome_of_mem_walk {t : FileTree} {root found : String} {target : Place}
    {time : Int} (h : .file found target time ∈ t.walk root) : (t.node? target).isSome := by
  unfold walk at h
  split at h
  · exact absurd h (by simp)
  · exact isSome_of_mem_walkFrom h

namespace Collection

variable {t : FileTree} {extension : String} {c added : Collection}

theorem records_add (h : c.fingerprint.Records t) {finding : Finding}
    (hfinding : ∀ path place time, finding = .file path place time → (t.node? place).isSome)
    (hadd : c.add extension finding = .ok added) : added.fingerprint.Records t := by
  cases finding with
  | file path place time =>
    rw [add] at hadd
    split at hadd
    · obtain rfl := Except.ok.inj hadd
      refine ⟨h.ordered.insert _ _, fun e he => ?_⟩
      rcases Fingerprint.path_of_mem_insert he with hpath | ⟨known, hknown, hpath⟩
      · exact ⟨place, hfinding path place time rfl, hpath⟩
      · rw [← hpath]
        exact h.places known hknown
    · obtain rfl := Except.ok.inj hadd
      exact h
  | «sealed» path reason =>
    rw [add] at hadd
    split at hadd
    · exact absurd hadd throw_ne_ok
    · obtain rfl := Except.ok.inj hadd
      exact h
  | unreadable path depth reason =>
    rw [add] at hadd
    split at hadd
    · exact absurd hadd throw_ne_ok
    · obtain rfl := Except.ok.inj hadd
      exact h
  | loop path ancestor =>
    obtain rfl := Except.ok.inj hadd
    exact h

theorem records_addRoot (h : c.fingerprint.Records t) {root : String}
    (hadd : addRoot t extension c root = .ok added) : added.fingerprint.Records t := by
  refine foldlM_keeps (·.fingerprint.Records t) ?_ h hadd
  rintro finding hmem c added hc hfinding
  refine records_add hc ?_ hfinding
  rintro path place time rfl
  exact FileTree.isSome_of_mem_walk hmem

end Collection

/-- What is collected is recorded under the paths of its places, in order. -/
theorem FileTree.records_collect {t : FileTree} {s : SourceSettings} {c : Collection}
    (h : t.collect s = .ok c) : c.fingerprint.Records t := by
  have hempty : Collection.empty.fingerprint.Records t :=
    ⟨Fingerprint.isOrdered_empty, fun e he => absurd he List.not_mem_nil⟩
  refine foldlM_keeps (·.fingerprint.Records t) ?_ hempty h
  exact fun root _ c added hc hadd => Collection.records_addRoot hc hadd

/-- Fingerprints that say the same are one if their paths are canonical. -/
theorem Fingerprint.eq_of_same_of_isCanonical {f g : Fingerprint}
    (hf : ∀ e ∈ f.entries, Path.IsCanonical e.1) (hg : ∀ e ∈ g.entries, Path.IsCanonical e.1)
    (h : f.same g = true) : f = g := by
  obtain ⟨hlength, hpairs⟩ := List.forall₂_iff_zip.mp (forall₂_of_same h)
  have hentries : f.entries = g.entries := by
    refine List.forall₂_eq_eq_eq ▸ List.forall₂_iff_zip.mpr ⟨hlength, fun {p q} hpq => ?_⟩
    obtain ⟨hp, hq⟩ := List.of_mem_zip hpq
    obtain ⟨hsame, htime⟩ := hpairs hpq
    exact Prod.ext ((hf p hp).eq_of_same (hg q hq) hsame) htime
  cases f
  cases g
  exact congrArg Fingerprint.mk hentries

theorem Fingerprint.Records.forall_isCanonical {f : Fingerprint} {t : FileTree}
    (ht : t.HasFileNames) (hf : f.Records t) : ∀ e ∈ f.entries, Path.IsCanonical e.1 := by
  intro e he
  obtain ⟨place, hplace, hpath⟩ := hf.places e he
  exact ⟨place, ht place hplace, hpath⟩

/-- Fingerprints that say the same of files with real names are one. -/
theorem Fingerprint.eq_of_same {f g : Fingerprint} {t u : FileTree} (ht : t.HasFileNames)
    (hu : u.HasFileNames) (hf : f.Records t) (hg : g.Records u) (h : f.same g = true) : f = g :=
  eq_of_same_of_isCanonical (hf.forall_isCanonical ht) (hg.forall_isCanonical hu) h

end GraphSchema
