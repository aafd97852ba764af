import GraphSchema.Proofs.Collection.Findings
import GraphSchema.Proofs.Collection.Reach

/-!
# Roots

What is collected under some roots is the union of what is collected under each of them. A root
under which all that stands is found from another root as well adds nothing to the fingerprint. This
is so for a root below another one, and for one that leads to the same place, as long as no limit on
paths keeps a walk from anything.
-/

namespace GraphSchema

open Collection (hasExtension)

/-- A collection is made of others, part by part. -/
structure Collection.IsUnionOf (c : Collection) (parts : List Collection) : Prop where
  entries : ∀ e, e ∈ c.fingerprint.entries ↔ ∃ part ∈ parts, e ∈ part.fingerprint.entries
  diagnostics : c.diagnostics = parts.flatMap (·.diagnostics)

/-- A fingerprint has files of a tree, and none of them twice. -/
structure Fingerprint.RecordsOnce (f : Fingerprint) (t : FileTree) : Prop where
  ordered : f.IsOrdered
  nodup : f.files.Nodup
  files : ∀ e ∈ f.entries, ∃ place content time, t.node? place = some (.file content time) ∧
    e = (Place.path place, stampOf time)

namespace FileTree

variable {t : FileTree} {s : SourceSettings} {c : Collection} {extension root other path base
  name : String} {directory place start : Place} {content : ByteArray} {time : Int}

/-- No limit on paths hinders the walk from a root: it visits all there is, and each file that it
cannot ask about is too deep in the tree to be asked about on any path. -/
structure IsUnhindered (t : FileTree) (root : String) : Prop where
  visitsAll : t.VisitsAll root
  deep : ∀ path reason, .sealed path reason ∈ t.walk root → Path.isOverlong path = false

/-- A root leads to the same place as a path below another root, which visits all there is. Of a file
also the names agree, as to whether it is a schema file. -/
structure Holds (t : FileTree) (extension root other : String) : Prop where
  visitsAll : t.VisitsAll root
  meets : ∃ path place, t.Below root path place ∧ t.locate other = .ok place ∧
    (t.entries? place = none → hasExtension extension path = hasExtension extension other)

/-- All that is collected under a root is collected under another one too: it is the same root, or
it leads to somewhere below that one. -/
def Covers (t : FileTree) (extension root other : String) : Prop :=
  root = other ∨ t.Holds extension root other

/-- No finding under a root ends a collection. -/
def IsFaultless (t : FileTree) (extension root : String) : Prop :=
  ∀ finding ∈ t.walk root, finding.fault? extension = none

section

variable (ht : t.HasRealNames) (hfaultless : t.IsFaultless extension root)

include hfaultless in
theorem IsFaultless.sealed_notMem (h : hasExtension extension path = true) (reason : FileError) :
    .sealed path reason ∉ t.walk root := by
  intro hmem
  have hfault := hfaultless _ hmem
  rw [Finding.fault?_sealed, if_pos h] at hfault
  exact absurd hfault (by simp)

include hfaultless in
theorem IsFaultless.unreadable_notMem (h : hasExtension extension path = true) {depth : Nat}
    (hdepth : 0 < depth) (reason : FileError) : .unreadable path depth reason ∉ t.walk root := by
  intro hmem
  have hfault := hfaultless _ hmem
  rw [Finding.fault?_unreadable, if_pos (by simp [hdepth, h])] at hfault
  exact absurd hfault (by simp)

include ht hfaultless

/-- Where nothing ends the collection, the entries that are named like schema files lead somewhere,
and the files among them are found. -/
theorem Explores.entry (h : t.Explores (t.walk root) directory)
    (hentry : (t.node? (directory ++ [name])).isSome)
    (hextension : hasExtension extension (Path.join base name) = true) :
    ∃ path place, t.locate path = .ok directory ∧ t.locate (Path.join path name) = .ok place ∧
      hasExtension extension (Path.join path name) = true ∧
      ∀ content time, t.node? place = some (.file content time) →
        .file (Path.join path name) place time ∈ t.walk root ∧
          Path.isOverlong place.path = false := by
  obtain ⟨path, inside, steps, hpath, hne, hinside, hwalk⟩ := h
  have hname := (ht.isFileName hentry).toIsEntryName
  have hext : hasExtension extension (Path.join path name) = true := by
    rw [hasExtension, Path.extension?_join _ hname] at hextension ⊢
    exact hextension
  specialize hwalk name hentry
  by_cases hlocate : ∃ place, t.locate (Path.join path name) = .ok place
  · obtain ⟨place, hplace⟩ := hlocate
    refine ⟨path, place, hpath, hplace, hext, fun content time hnode => ?_⟩
    rw [walkFrom_entry_file ht hpath hentry hplace hnode hinside] at hwalk
    split at hwalk
    · exact absurd (hwalk (List.mem_singleton_self _)) (hfaultless.sealed_notMem hext _)
    · next hfits => exact ⟨hwalk (List.mem_singleton_self _), by simpa using hfits⟩
  · rw [not_exists] at hlocate
    obtain ⟨reason, heq | ⟨heq, -⟩⟩ :=
      walkFrom_entry_error ht hpath hentry hlocate inside (steps + 1)
    · have hdepth : 0 < inside.length := List.length_pos_iff.mpr hne
      exact absurd (hwalk (heq ▸ List.mem_singleton_self _))
        (hfaultless.unreadable_notMem hext hdepth _)
    · exact absurd (hwalk (heq ▸ List.mem_singleton_self _)) (hfaultless.sealed_notMem hext _)

theorem Explores.exists_file (h : t.Explores (t.walk root) directory)
    (hbase : t.locate base = .ok directory) (hentry : (t.node? (directory ++ [name])).isSome)
    (hplace : t.locate (Path.join base name) = .ok place)
    (hnode : t.node? place = some (.file content time))
    (hextension : hasExtension extension (Path.join base name) = true) :
    ∃ found, .file found place time ∈ t.walk root ∧ hasExtension extension found = true ∧
      Path.isOverlong place.path = false := by
  obtain ⟨path, target, hpath, htarget, hext, hfile⟩ := h.entry ht hfaultless hentry hextension
  obtain rfl := locate_entry_inj ht hpath hbase hentry htarget hplace
  obtain ⟨hmem, hfits⟩ := hfile content time hnode
  exact ⟨_, hmem, hext, hfits⟩

variable (hvisits : t.VisitsAll root)

include hvisits

omit hfaultless in
theorem Below.explores (h : t.Below root path start)
    (hreach : Relation.ReflTransGen t.Leads start directory)
    (hentry : (t.node? (directory ++ [name])).isSome) : t.Explores (t.walk root) directory := by
  obtain ⟨top, htop, hstart⟩ := h.reaches
  obtain ⟨node, hnode⟩ := Option.isSome_iff_exists.mp hentry
  obtain ⟨entries, hentries, -⟩ := exists_entries?_of_node? hnode
  exact explores_walk ht hvisits htop (hstart.trans hreach) (Option.isSome_of_mem hentries)

/-- Each schema file below a root is found. -/
theorem Below.exists_file (h : t.Below root path place)
    (hnode : t.node? place = some (.file content time))
    (hextension : hasExtension extension path = true) :
    ∃ found, .file found place time ∈ t.walk root ∧ hasExtension extension found = true ∧
      Path.isOverlong place.path = false := by
  cases h with
  | root hplace =>
    have hwalk := walk_file hplace hnode
    split at hwalk
    · have hmem : .sealed root .nameTooLong ∈ t.walk root := hwalk ▸ List.mem_singleton_self _
      exact absurd hmem (hfaultless.sealed_notMem hextension _)
    · next hfits =>
      exact ⟨root, hwalk ▸ List.mem_singleton_self _, hextension, by simpa using hfits⟩
  | entry hbelow hentry hplace =>
    exact (hbelow.explores ht hvisits .refl hentry).exists_file ht hfaultless hbelow.locate hentry
      hplace hnode hextension

end

/-! ## Roots that cover each other -/

section

variable (ht : t.HasRealNames) (hholds : t.Holds extension root other)
  (hfaultless : t.IsFaultless extension root)

include ht hholds

theorem Holds.explores (hbelow : t.Below other path directory)
    (hentry : (t.node? (directory ++ [name])).isSome) : t.Explores (t.walk root) directory := by
  obtain ⟨way, start, hway, hstart, -⟩ := hholds.meets
  obtain ⟨top, htop, hreach⟩ := hbelow.reaches
  obtain rfl := Except.ok.inj (hstart.symm.trans htop)
  exact hway.explores ht hholds.visitsAll hreach hentry

include hfaultless

/-- Each schema file below a root is found from the root that holds it. -/
theorem Holds.exists_file (hbelow : t.Below other path place)
    (hnode : t.node? place = some (.file content time))
    (hextension : hasExtension extension path = true) :
    ∃ found, .file found place time ∈ t.walk root ∧ hasExtension extension found = true ∧
      Path.isOverlong place.path = false := by
  cases hbelow with
  | root hplace =>
    obtain ⟨way, start, hway, hstart, hagree⟩ := hholds.meets
    obtain rfl := Except.ok.inj (hstart.symm.trans hplace)
    have hfile : t.entries? start = none := by rw [entries?, hnode]
    exact hway.exists_file ht hfaultless hholds.visitsAll hnode
      ((hagree hfile).trans hextension)
  | entry hdirectory hentry hplace =>
    exact (hholds.explores ht hdirectory hentry).exists_file ht hfaultless hdirectory.locate hentry
      hplace hnode hextension

/-- What ends no collection under a root ends none under a root that it holds. -/
theorem Holds.isFaultless (hother : t.IsUnhindered other) : t.IsFaultless extension other := by
  intro finding hmem
  rw [← Option.not_isSome_iff_eq_none, Option.isSome_iff_exists]
  rintro ⟨⟨path, reason⟩, hfault⟩
  obtain ⟨hextension, rfl | ⟨depth, hdepth, rfl⟩⟩ := Finding.fault?_eq_some_iff.mp hfault
  · -- The file is too deep in the tree, and would end the collection from the other root too.
    have hfits := hother.deep path reason hmem
    obtain ⟨place, content, time, hbelow, hnode, hlong⟩ := tells_of_mem_walk ht hmem hfits
    obtain ⟨_, -, -, hshort⟩ := hholds.exists_file ht hfaultless hbelow hnode hextension
    exact absurd (hshort.symm.trans hlong) (by decide)
  · -- The link leads nowhere on this path, but it does so where the other root comes by it.
    obtain ⟨base, directory, name, rfl, hbelow, hentry⟩ := tells_of_mem_walk ht hmem hdepth
    obtain ⟨way, place, hway, hplace, -⟩ :=
      (hholds.explores ht hbelow hentry).entry ht hfaultless hentry hextension
    exact not_isDangling_entry ht hbelow.locate hway hentry hplace
      (hother.visitsAll _ depth reason hmem)

end

/-- What is recorded under a root is recorded under a root that covers it. -/
theorem Covers.exists_records (ht : t.HasRealNames) (hcovers : t.Covers extension root other)
    (hfaultless : t.IsFaultless extension root) {entry : String × UInt64}
    (h : ∃ finding ∈ t.walk other, entry ∈ finding.records extension) :
    ∃ finding ∈ t.walk root, entry ∈ finding.records extension := by
  rcases hcovers with rfl | hholds
  · exact h
  · obtain ⟨finding, hmem, hentry⟩ := h
    obtain ⟨path, place, time, rfl, hextension, rfl⟩ := Finding.mem_records_iff.mp hentry
    obtain ⟨hbelow, content, hnode⟩ := tells_of_mem_walk ht hmem
    obtain ⟨found, hfound, hext, -⟩ :=
      hholds.exists_file ht hfaultless hbelow hnode hextension
    exact ⟨_, hfound, Finding.mem_records_iff.mpr ⟨found, place, time, rfl, hext, rfl⟩⟩

/-! ## The union over the roots -/

theorem findings_single (root : String) :
    t.findings { s with directories := [root] } = t.walk root :=
  List.flatMap_singleton ..

theorem exists_collect_iff : (∃ c, t.collect s = .ok c) ↔
    ∀ root ∈ s.directories, t.IsFaultless s.normalizedExtension root := by
  constructor
  · rintro ⟨c, hc⟩ root hroot finding hmem
    exact (collect_eq_ok_iff.mp hc).1 finding (List.mem_flatMap.mpr ⟨root, hroot, hmem⟩)
  · intro h
    refine ⟨_, collect_eq_ok_iff.mpr ⟨fun finding hmem => ?_, rfl⟩⟩
    obtain ⟨root, hroot, hmem⟩ := List.mem_flatMap.mp hmem
    exact h root hroot finding hmem

theorem exists_collect_single_iff : (∃ c, t.collect { s with directories := [root] } = .ok c) ↔
    t.IsFaultless s.normalizedExtension root :=
  exists_collect_iff.trans List.forall_mem_singleton

theorem addRoot_eq_error_iff {e : CollectError} :
    Collection.addRoot t s.normalizedExtension c root = .error e ↔
      t.collect { s with directories := [root] } = .error e := by
  rw [Collection.addRoot, Finding.foldlM_add, collect_eq_error_iff, findings_single]
  show _ ↔ (t.walk root).findSome? (Finding.fault? s.normalizedExtension) = some e
  split
  · next h => rw [h, Except.error.injEq, Option.some.injEq]
  · next h => simp [h]

/-- A collection fails with the error of the first root that fails by itself. -/
theorem collect_eq_error_iff_first {e : CollectError} : t.collect s = .error e ↔
    ∃ before root after, s.directories = before ++ root :: after ∧
      (∀ first ∈ before, ∃ c, t.collect { s with directories := [first] } = .ok c) ∧
        t.collect { s with directories := [root] } = .error e := by
  have hbefore : ∀ before : List String,
      (∃ c, before.foldlM (Collection.addRoot t s.normalizedExtension) .empty = .ok c) ↔
        ∀ first ∈ before, ∃ c, t.collect { s with directories := [first] } = .ok c := by
    intro before
    simp only [exists_collect_single_iff]
    exact exists_collect_iff (s := { s with directories := before })
  rw [collect, foldlM_eq_error_iff]
  refine exists_congr fun before => exists_congr fun root => exists_congr fun after => ?_
  simp only [addRoot_eq_error_iff, exists_and_left, exists_and_right]
  rw [hbefore]

theorem mem_entries_iff_exists_root (ht : t.HasRealNames) (h : t.collect s = .ok c)
    {entry : String × UInt64} : entry ∈ c.fingerprint.entries ↔ ∃ root ∈ s.directories,
      ∃ finding ∈ t.walk root, entry ∈ finding.records s.normalizedExtension := by
  rw [mem_entries_iff ht h]
  constructor
  · rintro ⟨finding, hfinding, hentry⟩
    obtain ⟨root, hroot, hfinding⟩ := List.mem_flatMap.mp hfinding
    exact ⟨root, hroot, finding, hfinding, hentry⟩
  · rintro ⟨root, hroot, finding, hfinding, hentry⟩
    exact ⟨finding, List.mem_flatMap.mpr ⟨root, hroot, hfinding⟩, hentry⟩

/-- What is collected under one root, if nothing ends the collection. -/
def collected (t : FileTree) (extension root : String) : Collection :=
  ⟨Fingerprint.empty.insertAll ((t.walk root).flatMap (Finding.records extension)),
    (t.walk root).flatMap (Finding.warnings extension)⟩

theorem collect_single (h : t.IsFaultless s.normalizedExtension root) :
    t.collect { s with directories := [root] } = .ok (t.collected s.normalizedExtension root) := by
  rw [collect_eq_ok_iff, findings_single]
  exact ⟨h, rfl⟩

/-- A collection is made of those of its roots, in their order. -/
theorem exists_isUnionOf (ht : t.HasRealNames) (h : t.collect s = .ok c) : ∃ parts,
    List.Forall₂ (fun root part => t.collect { s with directories := [root] } = .ok part)
      s.directories parts ∧ c.IsUnionOf parts := by
  have hsingle : ∀ root ∈ s.directories, t.collect { s with directories := [root] } =
      .ok (t.collected s.normalizedExtension root) :=
    fun root hroot => collect_single (exists_collect_iff.mp ⟨c, h⟩ root hroot)
  refine ⟨s.directories.map (t.collected s.normalizedExtension), ?_, fun entry => ?_, ?_⟩
  · exact List.forall₂_map_right_iff.mpr (List.forall₂_same.mpr hsingle)
  · simp only [mem_entries_iff_exists_root ht h, List.mem_map, exists_exists_and_eq_and]
    refine exists_congr fun root => and_congr_right fun hroot => ?_
    rw [mem_entries_iff ht (hsingle root hroot), findings_single]
    rfl
  · obtain ⟨-, rfl⟩ := collect_eq_ok_iff.mp h
    rw [List.flatMap_map]
    exact List.flatMap_assoc

theorem recordsOnce_collect (ht : t.HasRealNames) (h : t.collect s = .ok c) :
    c.fingerprint.RecordsOnce t where
  ordered := (records_collect h).ordered
  nodup := by
    refine List.pairwise_map.mpr ((records_collect h).ordered.imp fun {a b} hlt heq => ?_)
    rw [heq, Path.compare_eq_iff.mpr (Path.same_refl _)] at hlt
    exact absurd hlt (by decide)
  files entry hentry := by
    obtain ⟨finding, hfinding, hentry⟩ := (mem_entries_iff ht h).mp hentry
    exact exists_file_of_mem_records ht hfinding hentry

section

variable (ht : t.HasRealNames) (h : t.collect s = .ok c) {others : List String}
  (hcovered : ∀ other ∈ others, ∃ root ∈ s.directories,
    t.Covers s.normalizedExtension root other)

include ht h hcovered

/-- Roots that cover each other give the same fingerprint. -/
theorem fingerprint_eq_of_covers (hcovers : ∀ root ∈ s.directories, ∃ other ∈ others,
    t.Covers s.normalizedExtension other root) {d : Collection}
    (hd : t.collect { s with directories := others } = .ok d) : d.fingerprint = c.fingerprint := by
  have hfaultless := exists_collect_iff.mp ⟨c, h⟩
  have hothers := exists_collect_iff.mp ⟨d, hd⟩
  refine (records_collect hd).ordered.eq_of_mem_iff (records_collect h).ordered fun entry => ?_
  rw [mem_entries_iff_exists_root ht hd, mem_entries_iff_exists_root ht h]
  constructor
  · rintro ⟨other, hother, hentry⟩
    obtain ⟨root, hroot, hcover⟩ := hcovered other hother
    exact ⟨root, hroot, hcover.exists_records ht (hfaultless root hroot) hentry⟩
  · rintro ⟨root, hroot, hentry⟩
    obtain ⟨other, hother, hcover⟩ := hcovers root hroot
    exact ⟨other, hother, hcover.exists_records ht (hothers other hother) hentry⟩

/-- Nothing ends a collection under roots that are covered, unless a limit on paths does. -/
theorem exists_collect_of_covers
    (hunhindered : ∀ other ∈ others, other ∈ s.directories ∨ t.IsUnhindered other) :
    ∃ d, t.collect { s with directories := others } = .ok d := by
  have hfaultless := exists_collect_iff.mp ⟨c, h⟩
  refine exists_collect_iff.mpr fun other hother => ?_
  rcases hunhindered other hother with hroot | hwalk
  · exact hfaultless other hroot
  · obtain ⟨root, hroot, rfl | hholds⟩ := hcovered other hother
    · exact hfaultless root hroot
    · exact hholds.isFaultless ht (hfaultless root hroot) hwalk

end

/-- Whether a finding is a file, or a directory that the walk is inside of. -/
def isVisit : Finding → Bool
  | .file _ _ _ => true
  | .loop _ _ => true
  | _ => false

theorem isUnhindered_of_all (h : (t.walk root).all isVisit = true) : t.IsUnhindered root where
  visitsAll path depth reason hmem := absurd (List.all_eq_true.mp h _ hmem) (by simp [isVisit])
  deep path reason hmem := absurd (List.all_eq_true.mp h _ hmem) (by simp [isVisit])

/-- The schema files under some roots. -/
def rootSettings (directories : List String) : SourceSettings := ⟨directories, ".graphql"⟩

/-- A directory below another one, with a link to this in it, and a link to it. -/
def nestedTree : FileTree :=
  ⟨[("alias", .link "/lib/sub"),
    ("lib", .directory [("a.graphql", .file .empty 7),
      ("sub", .directory [("b.graphql", .file .empty 8), ("up", .link "/lib")])])]⟩

/-- A directory with a link in it, and a link to it behind many others. -/
def chainedTree : FileTree :=
  ⟨[("lib", .directory [("sub", .link "/m2")]), ("m1", .link "/real"), ("m2", .link "/m1"),
    ("real", .directory [("a.graphql", .file .empty 7)]), ("l0", .link "/lib")] ++
    (List.range 38).map fun n => ("l" ++ toString (n + 1), .link ("/l" ++ toString n))⟩

/-- A file that is named like a schema file by a link to it. -/
def notesTree : FileTree :=
  ⟨[("alias.graphql", .link "/notes.txt"), ("notes.txt", .file .empty 7)]⟩

end FileTree

end GraphSchema
