import GraphSchema.Proofs.Collection.Places

/-!
# Recorded times

A fingerprint tells of each file the time that was recorded last for it, in whatever order the
records came. Canonical paths are spelled in one way, so that fingerprints of such paths are one if
they tell the same.
-/

namespace GraphSchema

namespace Path

theorem Component.eq_of_compare {a b : Component} (h : Component.compare a b = .eq) : a = b := by
  obtain ⟨hrank, htext⟩ := Ordering.then_eq_eq.mp h
  have hranks := Std.LawfulEqOrd.eq_of_compare hrank
  have htexts := Std.LawfulEqOrd.eq_of_compare htext
  cases a <;> cases b <;> simp_all [Component.rank, Component.text]

instance : Std.LawfulEqCmp Component.compare where
  eq_of_compare := Component.eq_of_compare

/-- Paths that are not told apart by their order have the same components. -/
theorem compare_eq_iff {a b : String} : Path.compare a b = .eq ↔ same a b = true := by
  rw [same, beq_iff_eq, Path.compare]
  exact Std.LawfulEqCmp.compare_eq_iff_eq

theorem same_refl (a : String) : same a a = true := beq_self_eq_true _

theorem same_comm (a b : String) : same a b = same b a := by
  rw [same, same, Bool.beq_comm]

theorem same_congr {a b : String} (h : same a b = true) (c : String) : same a c = same b c := by
  rw [same, beq_iff_eq] at h
  rw [same, same, h]

end Path

namespace Fingerprint

variable {respell : String → String → String} {path : String} {time : UInt64}
  {entries : List (String × UInt64)} {f g : Fingerprint}

/-- The time that was recorded last for a path. -/
def lastTime? (entries : List (String × UInt64)) (path : String) : Option UInt64 :=
  (entries.reverse.find? fun e => Path.same e.1 path).map (·.2)

theorem lastTime?_cons (e : String × UInt64) (rest : List (String × UInt64)) (path : String) :
    lastTime? (e :: rest) path =
      (lastTime? rest path).or (if Path.same e.1 path then some e.2 else none) := by
  rw [lastTime?, List.reverse_cons, List.find?_append, Option.map_or, lastTime?]
  congr 1
  rw [List.find?_singleton]
  split <;> rfl

theorem find?_cons (e : String × UInt64) (rest : List (String × UInt64)) (path : String) :
    find? ⟨e :: rest⟩ path = if Path.same e.1 path then some e.2 else find? ⟨rest⟩ path := by
  rw [find?, List.find?_cons]
  split
  · next hsame => rw [if_pos hsame]; rfl
  · next hsame => rw [if_neg (by simp [hsame])]; rfl

/-- An inserted time is found under its path, and what is found under other paths stays. -/
theorem find?_insertEntry (hrespell : ∀ known new, Path.same new known = true →
    Path.same (respell known new) known = true) (wanted : String) :
    find? ⟨insertEntry respell path time entries⟩ wanted =
      if Path.same path wanted then some time else find? ⟨entries⟩ wanted := by
  induction entries with
  | nil => exact find?_cons ..
  | cons entry rest ih =>
    unfold insertEntry
    split
    · exact find?_cons ..
    · next heq =>
      have hknown := Path.compare_eq_iff.mp heq
      rw [find?_cons, find?_cons, Path.same_congr (hrespell _ _ hknown), Path.same_congr hknown]
      split <;> rfl
    · next hgt =>
      rw [find?_cons, find?_cons, ih]
      by_cases hentry : Path.same entry.1 wanted = true
      · -- What is looked for is the path of the entry, and so it is not the new one.
        have hother : ¬Path.same path wanted = true := by
          intro hpath
          rw [Path.same_comm] at hentry
          have hsame := (Path.same_congr hpath entry.1).trans hentry
          rw [Path.compare_eq_iff.mpr hsame] at hgt
          exact absurd hgt (by decide)
        rw [if_pos hentry, if_neg hother, if_pos hentry]
      · rw [if_neg hentry, if_neg hentry]

theorem find?_foldl (hrespell : ∀ known new, Path.same new known = true →
    Path.same (respell known new) known = true) (records : List (String × UInt64)) (path : String) :
    find? ⟨records.foldl (fun es e => insertEntry respell e.1 e.2 es) entries⟩ path =
      (lastTime? records path).or (find? ⟨entries⟩ path) := by
  induction records generalizing entries with
  | nil => rfl
  | cons e rest ih =>
    rw [List.foldl_cons, ih, find?_insertEntry hrespell, lastTime?_cons, Option.or_assoc]
    congr 1
    split <;> rfl

section

variable {Good : String → Prop}
  (hrespell : ∀ known new, Good known → Good new → Good (respell known new))

include hrespell in
theorem forall_insertEntry (hpath : Good path) (h : ∀ e ∈ entries, Good e.1) :
    ∀ e ∈ insertEntry respell path time entries, Good e.1 := by
  induction entries with
  | nil => exact List.forall_mem_singleton.mpr hpath
  | cons entry rest ih =>
    obtain ⟨hentry, hrest⟩ := List.forall_mem_cons.mp h
    unfold insertEntry
    split
    · exact List.forall_mem_cons.mpr ⟨hpath, h⟩
    · exact List.forall_mem_cons.mpr ⟨hrespell _ _ hentry hpath, hrest⟩
    · exact List.forall_mem_cons.mpr ⟨hentry, ih hrest⟩

include hrespell in
theorem forall_foldl (records : List (String × UInt64)) (hrecords : ∀ e ∈ records, Good e.1)
    (h : ∀ e ∈ entries, Good e.1) :
    ∀ e ∈ records.foldl (fun es e => insertEntry respell e.1 e.2 es) entries, Good e.1 := by
  induction records generalizing entries with
  | nil => exact h
  | cons record rest ih =>
    obtain ⟨hrecord, hrest⟩ := List.forall_mem_cons.mp hrecords
    exact ih hrest (forall_insertEntry hrespell hrecord h)

end

theorem insertAll_eq (f : Fingerprint) (records : List (String × UInt64)) :
    f.insertAll records = ⟨records.foldl (fun es e =>
      insertEntry (fun known _ => known) e.1 e.2 es) f.entries⟩ := by
  induction records generalizing f with
  | nil => rfl
  | cons e rest ih => exact ih (f.insert e.1 e.2)

/-- The fingerprints that come of recording entries one after the other. -/
inductive RecordedFrom (records : List (String × UInt64)) : Fingerprint → Prop
  | inserted : RecordedFrom records (empty.insertAll records)
  | collected : RecordedFrom records (ofList records)

namespace RecordedFrom

variable {records : List (String × UInt64)}

theorem isOrdered (h : RecordedFrom records f) : f.IsOrdered := by
  cases h with
  | inserted => exact isOrdered_empty.insertAll records
  | collected => exact isOrdered_ofList records

/-- Of several times for a path the last one is found. -/
theorem find?_eq (h : RecordedFrom records f) (path : String) :
    f.find? path = lastTime? records path := by
  have hnone : (lastTime? records path).or (find? ⟨[]⟩ path) = lastTime? records path :=
    Option.or_none
  rw [← hnone]
  cases h with
  | inserted =>
    rw [insertAll_eq]
    exact find?_foldl (fun _ _ _ => Path.same_refl _) records path
  | collected => exact find?_foldl (fun _ _ h => h) records path

theorem forall_entries (Good : String → Prop) (hrecords : ∀ e ∈ records, Good e.1)
    (h : RecordedFrom records f) : ∀ e ∈ f.entries, Good e.1 := by
  have hnone : ∀ e ∈ ([] : List (String × UInt64)), Good e.1 := List.forall_mem_nil _
  cases h with
  | inserted =>
    rw [insertAll_eq]
    exact forall_foldl (fun _ _ hknown _ => hknown) records hrecords hnone
  | collected => exact forall_foldl (fun _ _ _ hnew => hnew) records hrecords hnone

end RecordedFrom

theorem find?_of_mem (h : f.IsOrdered) {e : String × UInt64} (he : e ∈ f.entries) :
    f.find? e.1 = some e.2 := by
  obtain ⟨entries⟩ := f
  induction entries with
  | nil => exact absurd he List.not_mem_nil
  | cons entry rest ih =>
    obtain ⟨hfirst, hrest⟩ := List.pairwise_cons.mp h
    rw [find?_cons]
    rcases List.mem_cons.mp he with rfl | he
    · rw [if_pos (Path.same_refl _)]
    · have hother : ¬Path.same entry.1 e.1 = true := by
        intro hsame
        have hlt := hfirst e he
        rw [Path.compare_eq_iff.mpr hsame] at hlt
        exact absurd hlt (by decide)
      rw [if_neg hother]
      exact ih hrest he

theorem exists_mem_of_find? (h : f.find? path = some time) :
    ∃ e ∈ f.entries, Path.same e.1 path = true ∧ e.2 = time := by
  obtain ⟨e, he, rfl⟩ := Option.map_eq_some_iff.mp h
  have hsame : Path.same e.1 path = true := by simpa using List.find?_some he
  exact ⟨e, List.mem_of_find?_eq_some he, hsame, rfl⟩

/-- An ordered fingerprint whose paths are canonical. -/
structure IsCanonical (f : Fingerprint) : Prop where
  ordered : f.IsOrdered
  paths : ∀ e ∈ f.entries, Path.IsCanonical e.1

theorem IsCanonical.mem_iff (h : f.IsCanonical) {e : String × UInt64}
    (he : Path.IsCanonical e.1) : e ∈ f.entries ↔ f.find? e.1 = some e.2 := by
  refine ⟨find?_of_mem h.ordered, fun hfind => ?_⟩
  obtain ⟨known, hknown, hsame, htime⟩ := exists_mem_of_find? hfind
  have hpath := (h.paths known hknown).eq_of_same he hsame
  exact Prod.ext hpath htime ▸ hknown

theorem IsOrdered.nodup (h : f.IsOrdered) : f.entries.Nodup := by
  refine List.Pairwise.imp (fun {a b} hlt heq => ?_) h
  rw [heq, Path.compare_eq_iff.mpr (Path.same_refl _)] at hlt
  exact absurd hlt (by decide)

theorem IsOrdered.eq_of_mem_iff (hf : f.IsOrdered) (hg : g.IsOrdered)
    (h : ∀ e, e ∈ f.entries ↔ e ∈ g.entries) : f = g := by
  have hperm := (List.perm_ext_iff_of_nodup hf.nodup hg.nodup).mpr h
  have heq : f.entries = g.entries := by
    refine hperm.eq_of_pairwise (fun a b _ _ hab hba => ?_) hf hg
    rw [Std.OrientedCmp.gt_of_lt hab] at hba
    exact absurd hba (by decide)
  cases f
  cases g
  exact congrArg Fingerprint.mk heq

/-- Fingerprints of canonical paths are one if they tell the same times. -/
theorem IsCanonical.eq_iff (hf : f.IsCanonical) (hg : g.IsCanonical) :
    f = g ↔ ∀ path, f.find? path = g.find? path := by
  refine ⟨fun h path => h ▸ rfl, fun h => ?_⟩
  refine hf.ordered.eq_of_mem_iff hg.ordered fun e => ⟨fun he => ?_, fun he => ?_⟩
  · rw [hg.mem_iff (hf.paths e he), ← h]
    exact find?_of_mem hf.ordered he
  · rw [hf.mem_iff (hg.paths e he), h]
    exact find?_of_mem hg.ordered he

theorem IsCanonical.same_iff (hf : f.IsCanonical) (hg : g.IsCanonical) :
    f.same g = true ↔ f = g :=
  ⟨eq_of_same_of_isCanonical hf.paths hg.paths, fun h => h ▸ same_refl f⟩

theorem RecordedFrom.isCanonical {records : List (String × UInt64)} (h : RecordedFrom records f)
    (hrecords : ∀ e ∈ records, Path.IsCanonical e.1) : f.IsCanonical :=
  ⟨h.isOrdered, h.forall_entries Path.IsCanonical hrecords⟩

/-- What is recorded is found, if no path is recorded with two times. -/
theorem RecordedFrom.mem_iff {records : List (String × UInt64)} (h : RecordedFrom records f)
    (hrecords : ∀ e ∈ records, Path.IsCanonical e.1)
    (hunique : ∀ a ∈ records, ∀ b ∈ records, a.1 = b.1 → a.2 = b.2) {e : String × UInt64} :
    e ∈ f.entries ↔ e ∈ records := by
  have hf := h.isCanonical hrecords
  have hlast : ∀ {path time}, lastTime? records path = some time →
      ∃ last ∈ records, Path.same last.1 path = true ∧ last.2 = time := by
    intro path time htime
    obtain ⟨last, hlast, rfl⟩ := Option.map_eq_some_iff.mp htime
    exact ⟨last, List.mem_reverse.mp (List.mem_of_find?_eq_some hlast),
      by simpa using List.find?_some hlast, rfl⟩
  constructor
  · intro he
    have hfind := find?_of_mem hf.ordered he
    rw [h.find?_eq] at hfind
    obtain ⟨last, hmem, hsame, htime⟩ := hlast hfind
    have hpath := (hrecords last hmem).eq_of_same (hf.paths e he) hsame
    exact Prod.ext hpath htime ▸ hmem
  · intro he
    rw [hf.mem_iff (hrecords e he), h.find?_eq]
    obtain ⟨time, htime⟩ : ∃ time, lastTime? records e.1 = some time := by
      rw [← Option.isSome_iff_exists, lastTime?, Option.isSome_map, List.find?_isSome]
      exact ⟨e, List.mem_reverse.mpr he, Path.same_refl _⟩
    obtain ⟨last, hmem, hsame, rfl⟩ := hlast htime
    have hpath := (hrecords last hmem).eq_of_same (hrecords e he) hsame
    rw [htime, hunique last hmem e he hpath]

end Fingerprint

end GraphSchema
