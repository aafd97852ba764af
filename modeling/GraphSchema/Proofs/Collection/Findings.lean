import GraphSchema.Collection.Basic
import GraphSchema.Proofs.Collection.Visits
import GraphSchema.Proofs.Fingerprint.Recording
import GraphSchema.Proofs.Run

/-!
# What findings add

Every finding of a walk either is a fault, which ends a collection, or adds something of its own.
So a collection fails with the first fault among all the findings under its roots, and else is made
of what each of them adds.
-/

namespace GraphSchema

namespace Finding

variable {extension : String} {finding : Finding}

/-- The error that a finding ends a collection with. -/
def fault? (extension : String) (finding : Finding) : Option CollectError :=
  match Collection.empty.add extension finding with
  | .error e => some e
  | .ok _ => none

/-- What a finding adds to a collection. -/
def added (extension : String) (finding : Finding) : Collection :=
  (Collection.empty.add extension finding).toOption.getD .empty

/-- The entry that a finding adds to the fingerprint, if it adds one. -/
def records (extension : String) (finding : Finding) : List (String × UInt64) :=
  (finding.added extension).fingerprint.entries

/-- The warning about a finding, if there is one. -/
def warnings (extension : String) (finding : Finding) : List Diagnostic :=
  (finding.added extension).diagnostics

theorem add_eq (c : Collection) : c.add extension finding = match finding.fault? extension with
    | some e => .error e
    | none => .ok ⟨c.fingerprint.insertAll (finding.records extension),
        c.diagnostics ++ finding.warnings extension⟩ := by
  have hnone : c = ⟨c.fingerprint, c.diagnostics ++ []⟩ := by rw [List.append_nil]
  rw [warnings, records, fault?, added]
  cases finding with
  | file path place time =>
    rw [Collection.add, Collection.add]
    cases Collection.hasExtension extension path with
    | true =>
      show Except.ok (Collection.mk _ c.diagnostics) = .ok (Collection.mk _ (c.diagnostics ++ []))
      rw [List.append_nil]
      rfl
    | false => exact congrArg Except.ok hnone
  | «sealed» path reason =>
    rw [Collection.add, Collection.add]
    cases Collection.hasExtension extension path with
    | true => rfl
    | false => exact congrArg Except.ok hnone
  | unreadable path depth reason =>
    rw [Collection.add, Collection.add]
    cases decide (0 < depth) && Collection.hasExtension extension path <;> rfl
  | loop path ancestor => rfl

theorem fault?_sealed (path : String) (reason : FileError) :
    (Finding.sealed path reason).fault? extension =
      if Collection.hasExtension extension path then some ⟨path, reason⟩ else none := by
  rw [fault?, Collection.add]
  cases Collection.hasExtension extension path <;> rfl

theorem fault?_unreadable (path : String) (depth : Nat) (reason : FileError) :
    (Finding.unreadable path depth reason).fault? extension =
      if 0 < depth && Collection.hasExtension extension path then some ⟨path, reason⟩ else none := by
  rw [fault?, Collection.add]
  cases decide (0 < depth) && Collection.hasExtension extension path <;> rfl

/-- A finding is a fault if it is about a path with the extension of schema files, and this is a
file that is there or a path below a root. -/
theorem fault?_eq_some_iff {e : CollectError} : finding.fault? extension = some e ↔
    Collection.hasExtension extension e.path = true ∧ (finding = .sealed e.path e.reason ∨
      ∃ depth, 0 < depth ∧ finding = .unreadable e.path depth e.reason) := by
  obtain ⟨found, why⟩ := e
  cases finding with
  | file path place time =>
    rw [fault?, Collection.add]
    cases Collection.hasExtension extension path <;> simp [pure, Except.pure]
  | «sealed» path reason =>
    rw [fault?_sealed, Option.ite_none_right_eq_some]
    grind
  | unreadable path depth reason =>
    rw [fault?_unreadable, Option.ite_none_right_eq_some, Bool.and_eq_true, decide_eq_true_iff]
    constructor
    · rintro ⟨⟨hdepth, hextension⟩, heq⟩
      obtain ⟨rfl, rfl⟩ := CollectError.mk.inj (Option.some.inj heq)
      exact ⟨hextension, .inr ⟨depth, hdepth, rfl⟩⟩
    · rintro ⟨hextension, hsealed | ⟨_, hdepth, hfinding⟩⟩
      · exact absurd hsealed (by simp)
      · obtain ⟨rfl, rfl, rfl⟩ := Finding.unreadable.inj hfinding
        exact ⟨⟨hdepth, hextension⟩, rfl⟩
  | loop path ancestor =>
    have hnone : (loop path ancestor).fault? extension = none := rfl
    exact iff_of_false (by simp [hnone]) (by simp)

theorem mem_records_iff {e : String × UInt64} : e ∈ finding.records extension ↔
    ∃ path place time, finding = .file path place time ∧
      Collection.hasExtension extension path = true ∧ e = (place.path, stampOf time) := by
  have hnone : e ∉ Collection.empty.fingerprint.entries := List.not_mem_nil
  rw [records, added]
  cases finding with
  | file path place time =>
    rw [Collection.add]
    cases hextension : Collection.hasExtension extension path with
    | true =>
      refine List.mem_singleton.trans ⟨fun h => ⟨path, place, time, rfl, hextension, h⟩, ?_⟩
      rintro ⟨_, _, _, hfile, -, rfl⟩
      obtain ⟨-, rfl, rfl⟩ := Finding.file.inj hfile
      rfl
    | false =>
      refine iff_of_false hnone ?_
      rintro ⟨_, _, _, hfile, htrue, -⟩
      obtain ⟨rfl, -⟩ := Finding.file.inj hfile
      exact absurd (hextension.symm.trans htrue) (by decide)
  | «sealed» path reason =>
    rw [Collection.add]
    cases Collection.hasExtension extension path <;> exact iff_of_false hnone (by simp)
  | unreadable path depth reason =>
    rw [Collection.add]
    cases decide (0 < depth) && Collection.hasExtension extension path <;>
      exact iff_of_false hnone (by simp)
  | loop path ancestor => exact iff_of_false hnone (by simp)

theorem foldlM_add (findings : List Finding) (c : Collection) :
    findings.foldlM (Collection.add extension) c = match findings.findSome? (fault? extension) with
      | some e => .error e
      | none => .ok ⟨c.fingerprint.insertAll (findings.flatMap (records extension)),
          c.diagnostics ++ findings.flatMap (warnings extension)⟩ := by
  induction findings generalizing c with
  | nil =>
    rw [List.flatMap_nil, List.flatMap_nil, List.append_nil]
    rfl
  | cons finding rest ih =>
    rw [List.foldlM_cons, add_eq, List.findSome?_cons]
    cases finding.fault? extension with
    | some e => rfl
    | none =>
      refine (ih _).trans ?_
      rw [List.flatMap_cons, List.flatMap_cons, List.append_assoc, Fingerprint.insertAll,
        Fingerprint.insertAll, Fingerprint.insertAll, List.foldl_append]

end Finding

namespace FileTree

variable {t : FileTree} {s : SourceSettings} {c : Collection} {e : CollectError}

/-- All that the walks of some settings come by, one root after the other. -/
def findings (t : FileTree) (s : SourceSettings) : List Finding := s.directories.flatMap t.walk

theorem collect_eq : t.collect s =
    match (t.findings s).findSome? (Finding.fault? s.normalizedExtension) with
    | some e => .error e
    | none => .ok ⟨Fingerprint.empty.insertAll
          ((t.findings s).flatMap (Finding.records s.normalizedExtension)),
        (t.findings s).flatMap (Finding.warnings s.normalizedExtension)⟩ := by
  rw [collect, findings]
  exact (foldlM_flatMap ..).symm.trans (Finding.foldlM_add ..)

theorem collect_eq_error_iff : t.collect s = .error e ↔
    (t.findings s).findSome? (Finding.fault? s.normalizedExtension) = some e := by
  rw [collect_eq]
  split
  · next h => rw [h, Except.error.injEq, Option.some.injEq]
  · next h => simp [h]

theorem collect_eq_ok_iff : t.collect s = .ok c ↔
    (∀ finding ∈ t.findings s, finding.fault? s.normalizedExtension = none) ∧
      c = ⟨Fingerprint.empty.insertAll
          ((t.findings s).flatMap (Finding.records s.normalizedExtension)),
        (t.findings s).flatMap (Finding.warnings s.normalizedExtension)⟩ := by
  rw [collect_eq, ← List.findSome?_eq_none_iff]
  split
  · next h => simp [h]
  · next h => rw [Except.ok.injEq, eq_comm, and_iff_right h]

/-- A file is recorded under the path of its place, with the time of its last change. -/
theorem exists_file_of_mem_records (ht : t.HasRealNames) {extension : String}
    {finding : Finding} (hfinding : finding ∈ t.findings s) {entry : String × UInt64}
    (hentry : entry ∈ finding.records extension) : ∃ place content time,
      t.node? place = some (.file content time) ∧ entry = (place.path, stampOf time) := by
  obtain ⟨root, -, hmem⟩ := List.mem_flatMap.mp hfinding
  obtain ⟨path, place, time, rfl, -, rfl⟩ := Finding.mem_records_iff.mp hentry
  obtain ⟨-, content, hnode⟩ := tells_of_mem_walk ht hmem
  exact ⟨place, content, time, hnode, rfl⟩

/-- The entries of a fingerprint are all those that its findings add. -/
theorem mem_entries_iff (ht : t.HasRealNames) (h : t.collect s = .ok c)
    {entry : String × UInt64} : entry ∈ c.fingerprint.entries ↔
      ∃ finding ∈ t.findings s, entry ∈ finding.records s.normalizedExtension := by
  obtain ⟨-, rfl⟩ := collect_eq_ok_iff.mp h
  rw [← List.mem_flatMap]
  refine Fingerprint.RecordedFrom.inserted.mem_iff ?_ ?_
  · intro entry hentry
    obtain ⟨finding, hfinding, hentry⟩ := List.mem_flatMap.mp hentry
    obtain ⟨place, content, time, hnode, rfl⟩ := exists_file_of_mem_records ht hfinding hentry
    exact ⟨place, ht.hasFileNames place (Option.isSome_of_mem hnode), rfl⟩
  · intro entry hentry other hother hpath
    obtain ⟨finding, hfinding, hentry⟩ := List.mem_flatMap.mp hentry
    obtain ⟨another, hanother, hother⟩ := List.mem_flatMap.mp hother
    obtain ⟨place, content, time, hnode, rfl⟩ := exists_file_of_mem_records ht hfinding hentry
    obtain ⟨place', content', time', hnode', rfl⟩ := exists_file_of_mem_records ht hanother hother
    have hnames := ht.hasFileNames place (Option.isSome_of_mem hnode)
    have hnames' := ht.hasFileNames place' (Option.isSome_of_mem hnode')
    have hpaths : place.path = place'.path := hpath
    obtain rfl := Place.eq_of_same hnames hnames' (hpaths ▸ Path.same_refl _)
    obtain ⟨-, rfl⟩ := Node.file.inj (Option.some.inj (hnode.symm.trans hnode'))
    rfl

end FileTree

end GraphSchema
