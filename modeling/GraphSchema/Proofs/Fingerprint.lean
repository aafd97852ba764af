import GraphSchema.Cache.Snapshot
import GraphSchema.Proofs.Json.Members
import GraphSchema.Proofs.Path
import Mathlib.Data.List.Forall2

/-!
# Ordered fingerprints

Every fingerprint that is recorded is ordered by path, and an ordered fingerprint is read back from
its text.
-/

namespace GraphSchema.Fingerprint

open Std

/-- The entries stand in the order of their paths, and no path stands twice. -/
def IsOrdered (f : Fingerprint) : Prop :=
  f.entries.Pairwise fun a b => Path.compare a.1 b.1 = .lt

variable {respell : String → String → String} {path : String} {time : UInt64}
  {entries : List (String × UInt64)}

section

variable (hrespell : ∀ known new, Path.compare new known = .eq →
  Path.compare (respell known new) known = .eq)

include hrespell in
theorem before_insertEntry {first : String} (hfirst : Path.compare first path = .lt)
    (h : ∀ e ∈ entries, Path.compare first e.1 = .lt) :
    ∀ e ∈ insertEntry respell path time entries, Path.compare first e.1 = .lt := by
  induction entries with
  | nil => simpa [insertEntry] using hfirst
  | cons entry rest ih =>
    obtain ⟨hentry, hrest⟩ := List.forall_mem_cons.mp h
    unfold insertEntry
    split
    · exact List.forall_mem_cons.mpr ⟨hfirst, h⟩
    · next heq =>
      refine List.forall_mem_cons.mpr ⟨?_, hrest⟩
      exact TransCmp.lt_of_lt_of_eq hentry (OrientedCmp.eq_symm (hrespell _ _ heq))
    · exact List.forall_mem_cons.mpr ⟨hentry, ih hrest⟩

include hrespell in
theorem ordered_insertEntry (h : IsOrdered ⟨entries⟩) :
    IsOrdered ⟨insertEntry respell path time entries⟩ := by
  induction entries with
  | nil => exact List.pairwise_singleton _ _
  | cons entry rest ih =>
    obtain ⟨hentry, hrest⟩ := List.pairwise_cons.mp h
    unfold insertEntry
    split
    · next hlt =>
      refine List.pairwise_cons.mpr ⟨List.forall_mem_cons.mpr ⟨hlt, fun e he => ?_⟩, h⟩
      exact TransCmp.lt_trans hlt (hentry e he)
    · next heq =>
      refine List.pairwise_cons.mpr ⟨fun e he => ?_, hrest⟩
      exact TransCmp.lt_of_eq_of_lt (hrespell _ _ heq) (hentry e he)
    · next hgt =>
      have hlt := OrientedCmp.lt_of_gt hgt
      exact List.pairwise_cons.mpr ⟨before_insertEntry hrespell hlt hentry, ih hrest⟩

end

theorem isOrdered_empty : empty.IsOrdered := List.Pairwise.nil

theorem IsOrdered.insert {f : Fingerprint} (h : f.IsOrdered) (path : String) (time : UInt64) :
    (f.insert path time).IsOrdered :=
  ordered_insertEntry (fun _ _ _ => ReflCmp.compare_self) h

theorem IsOrdered.insertAll {f : Fingerprint} (h : f.IsOrdered) (entries : List (String × UInt64)) :
    (f.insertAll entries).IsOrdered := by
  induction entries generalizing f with
  | nil => exact h
  | cons entry rest ih => exact ih (h.insert entry.1 entry.2)

theorem isOrdered_ofList (entries : List (String × UInt64)) : (ofList entries).IsOrdered := by
  have hfold : ∀ known, IsOrdered ⟨known⟩ → IsOrdered ⟨entries.foldl (fun es e =>
      insertEntry (fun _ new => new) e.1 e.2 es) known⟩ := by
    induction entries with
    | nil => exact fun known h => h
    | cons entry rest ih => exact fun known h => ih _ (ordered_insertEntry (fun _ _ heq => heq) h)
  exact hfold [] List.Pairwise.nil

theorem insertEntry_last (h : ∀ e ∈ entries, Path.compare e.1 path = .lt) :
    insertEntry respell path time entries = entries ++ [(path, time)] := by
  induction entries with
  | nil => rfl
  | cons entry rest ih =>
    obtain ⟨hentry, hrest⟩ := List.forall_mem_cons.mp h
    rw [insertEntry, OrientedCmp.gt_of_lt hentry, ih hrest]
    rfl

/-- Entries that are in order already are recorded as they are. -/
theorem insertAll_ordered (before : List (String × UInt64))
    (h : IsOrdered ⟨before ++ entries⟩) : insertAll ⟨before⟩ entries = ⟨before ++ entries⟩ := by
  induction entries generalizing before with
  | nil => rw [List.append_nil]; rfl
  | cons entry rest ih =>
    have hlast : ∀ e ∈ before, Path.compare e.1 entry.1 = .lt := by
      intro e he
      exact (List.pairwise_append.mp h).2.2 e he entry (by simp)
    rw [List.append_cons] at h ⊢
    rw [← ih (before ++ [entry]) h, ← insertEntry_last hlast]
    rfl

theorem ofJson?_toJson {f : Fingerprint} (h : f.IsOrdered) : ofJson? f.toJson = some f := by
  have hread : ∀ e ∈ f.entries, (do
      return (e.1, UInt64.ofNat (← Json.naturalBelow? UInt64.size (.natural e.2.toNat))) :
        Option (String × UInt64)) = some e := by
    intro e _
    rw [Json.naturalBelow?, if_pos e.2.toNat_lt_size]
    exact congrArg (fun time => some (e.1, time)) (UInt64.ofNat_toNat ..)
  refine Option.bind_eq_some_iff.mpr ⟨f.entries, Json.mapM_read hread, ?_⟩
  exact congrArg some (insertAll_ordered [] h)

theorem isOrdered_of_ofJson? {j : Json} {f : Fingerprint} (h : ofJson? j = some f) :
    f.IsOrdered := by
  obtain ⟨members, -, h⟩ := Option.bind_eq_some_iff.mp h
  obtain ⟨entries, -, h⟩ := Option.bind_eq_some_iff.mp h
  obtain rfl := Option.some.inj h
  exact isOrdered_empty.insertAll entries

theorem same_refl (f : Fingerprint) : f.same f = true := by
  rw [same, Bool.and_eq_true, List.all_eq_true]
  refine ⟨beq_self_eq_true _, fun p hp => ?_⟩
  obtain ⟨i, hi, rfl⟩ := List.mem_iff_getElem.mp hp
  simp [Path.same]

/-- Equal fingerprints have the same times for the same files. -/
theorem forall₂_of_same {f g : Fingerprint} (h : f.same g = true) :
    List.Forall₂ (fun p q => Path.same p.1 q.1 = true ∧ p.2 = q.2) f.entries g.entries := by
  rw [same, Bool.and_eq_true, beq_iff_eq, List.all_eq_true] at h
  obtain ⟨hsize, hall⟩ := h
  rw [List.forall₂_iff_zip]
  refine ⟨hsize, fun {p q} hpq => ?_⟩
  have hentry := hall (p, q) hpq
  rwa [Bool.and_eq_true, beq_iff_eq] at hentry

/-- A path is recorded by insertion as it was known, or as it is given. -/
theorem path_of_mem_insert {f : Fingerprint} {e : String × UInt64}
    (he : e ∈ (f.insert path time).entries) : e.1 = path ∨ ∃ known ∈ f.entries, known.1 = e.1 := by
  have hentries : ∀ entries, e ∈ insertEntry (fun known _ => known) path time entries →
      e.1 = path ∨ ∃ known ∈ entries, known.1 = e.1 := by
    intro entries
    induction entries with
    | nil =>
      intro he
      exact .inl (congrArg Prod.fst (List.mem_singleton.mp he))
    | cons entry rest ih =>
      unfold insertEntry
      intro he
      split at he
      · rcases List.mem_cons.mp he with rfl | he
        · exact .inl rfl
        · exact .inr ⟨e, he, rfl⟩
      · rcases List.mem_cons.mp he with rfl | he
        · exact .inr ⟨entry, List.mem_cons_self, rfl⟩
        · exact .inr ⟨e, List.mem_cons_of_mem _ he, rfl⟩
      · rcases List.mem_cons.mp he with rfl | he
        · exact .inr ⟨_, List.mem_cons_self, rfl⟩
        · rcases ih he with hpath | ⟨known, hknown, hpath⟩
          · exact .inl hpath
          · exact .inr ⟨known, List.mem_cons_of_mem _ hknown, hpath⟩
  exact hentries f.entries he

end GraphSchema.Fingerprint
