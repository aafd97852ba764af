import GraphSchema.Proofs.Collection.Findings
import GraphSchema.Proofs.Collection.Reach
import GraphSchema.Proofs.Text.Scanning

/-!
# Extensions of schema files

The extension of a name is what follows its last dot. So a file that is named with an extension has
it exactly if there is no dot in this, and an extension with a dot is that of no file.
-/

namespace GraphSchema

namespace Path

variable {name stem extension : String}

theorem dot_notMem_of_extensionOfName? (h : extensionOfName? name = some extension) :
    '.' ∉ extension.toList := by
  rw [extensionOfName?, List.span_eq_takeWhile_dropWhile] at h
  dsimp only at h
  split at h
  · obtain rfl := Option.some.inj h
    rw [String.toList_ofList, List.mem_reverse]
    intro hmem
    exact absurd (List.all_eq_true.mp List.all_takeWhile _ hmem) (by decide)
  · exact absurd h (by simp)

theorem extensionOfName?_append (hstem : stem ≠ "") (h : '.' ∉ extension.toList) :
    extensionOfName? (stem ++ "." ++ extension) = some extension := by
  have hchars : (stem ++ "." ++ extension).toList.reverse =
      extension.toList.reverse ++ '.' :: stem.toList.reverse := by
    simp
  have hkeeps : ∀ c ∈ extension.toList.reverse, (c != '.') = true := by
    intro c hc
    rw [bne_iff_ne]
    rintro rfl
    exact h (List.mem_reverse.mp hc)
  have hreverse : stem.toList.reverse ≠ [] := by simpa using hstem
  obtain ⟨c, cs, hcs⟩ := List.exists_cons_of_ne_nil hreverse
  rw [extensionOfName?, hchars, Text.span_append hkeeps (by simp), hcs]
  show some (String.ofList extension.toList.reverse.reverse) = some extension
  rw [List.reverse_reverse, String.ofList_toList]

end Path

theorem Collection.dot_notMem_of_hasExtension {extension path : String}
    (h : hasExtension extension path = true) : '.' ∉ extension.toList := by
  obtain ⟨name, -, hname⟩ := Option.bind_eq_some_iff.mp (beq_iff_eq.mp h)
  exact Path.dot_notMem_of_extensionOfName? hname

theorem Collection.hasExtension_join {extension name base : String} (h : Path.IsEntryName name) :
    hasExtension extension (Path.join base name) =
      (Path.extensionOfName? name == some extension) := by
  rw [hasExtension, Path.extension?_join base h]

namespace FileTree

variable {t : FileTree} {s : SourceSettings} {c : Collection} {root name stem : String}
  {directory : Place} {content : ByteArray} {time : Int}

/-- A walk from a directory comes by each file in it, or tells that it cannot be asked about. -/
theorem mem_walk_of_file (hroot : t.locate root = .ok directory)
    (hnode : t.node? (directory ++ [name]) = some (.file content time)) :
    .file (Path.join root name) (directory ++ [name]) time ∈ t.walk root ∨
      .sealed (Path.join root name) .nameTooLong ∈ t.walk root := by
  obtain ⟨steps, hsteps, hwalk⟩ := exists_walk_eq hroot
  rw [size] at hsteps
  obtain ⟨left, rfl⟩ := Nat.exists_eq_add_of_le' (show 2 ≤ steps by omega)
  obtain ⟨entries, hentries, -⟩ := exists_entries?_of_node? hnode
  have hfits := (Path.check_eq_ok_iff.mp (check_of_locate hroot)).2.2
  have hsubset : t.walkFrom (left + 1) [⟨root, directory⟩] (Path.join root name)
      (directory ++ [name]) ⊆ t.walkFrom (left + 2) [] root directory :=
    walkFrom_directory hentries hfits (Option.isSome_of_mem hnode) (left + 1)
  rw [walkFrom, hnode] at hsubset
  dsimp only at hsubset
  rw [hwalk]
  split at hsubset
  · exact .inr (hsubset (List.mem_singleton_self _))
  · exact .inl (hsubset (List.mem_singleton_self _))

/-- A file in a root that is named with the extension of schema files is recorded exactly if there
is no dot in the extension. If there is one, nothing at all is recorded. -/
theorem mem_collect_iff (ht : t.HasRealNames) (hmem : root ∈ s.directories)
    (hroot : t.locate root = .ok directory) (hstem : stem ≠ "")
    (hnode : t.node? (directory ++ [stem ++ "." ++ s.normalizedExtension]) =
      some (.file content time)) (hcollect : t.collect s = .ok c) :
    ((Place.path (directory ++ [stem ++ "." ++ s.normalizedExtension]), stampOf time) ∈
        c.fingerprint.entries ↔ '.' ∉ s.normalizedExtension.toList) ∧
      ('.' ∈ s.normalizedExtension.toList → c.fingerprint = .empty) := by
  have hnone : '.' ∈ s.normalizedExtension.toList → c.fingerprint = .empty := by
    intro hdot
    obtain ⟨-, rfl⟩ := collect_eq_ok_iff.mp hcollect
    have hrecords : (t.findings s).flatMap (Finding.records s.normalizedExtension) = [] := by
      refine List.flatMap_eq_nil_iff.mpr fun finding _ => List.eq_nil_iff_forall_not_mem.mpr ?_
      intro entry hentry
      obtain ⟨path, place, time, -, hextension, -⟩ := Finding.mem_records_iff.mp hentry
      exact Collection.dot_notMem_of_hasExtension hextension hdot
    show Fingerprint.empty.insertAll _ = Fingerprint.empty
    rw [hrecords]
    rfl
  refine ⟨⟨?_, fun hdot => ?_⟩, hnone⟩
  · intro hentry hdot
    rw [hnone hdot] at hentry
    exact absurd hentry List.not_mem_nil
  · have hname := ht.isFileName (Option.isSome_of_mem hnode)
    have hextension : Collection.hasExtension s.normalizedExtension
        (Path.join root (stem ++ "." ++ s.normalizedExtension)) = true := by
      rw [Collection.hasExtension_join hname.toIsEntryName,
        Path.extensionOfName?_append hstem hdot, beq_self_eq_true]
    rcases mem_walk_of_file hroot hnode with hfile | hsealed
    · refine (mem_entries_iff ht hcollect).mpr ⟨_, List.mem_flatMap.mpr ⟨root, hmem, hfile⟩, ?_⟩
      exact Finding.mem_records_iff.mpr ⟨_, _, time, rfl, hextension, rfl⟩
    · have hfault := (collect_eq_ok_iff.mp hcollect).1 _
        (List.mem_flatMap.mpr ⟨root, hmem, hsealed⟩)
      rw [Finding.fault?_sealed, if_pos hextension] at hfault
      exact absurd hfault (by simp)

/-- A schema file, and a file whose name goes on after another dot. -/
def dottedTree : FileTree :=
  ⟨[("lib", .directory [("user.graphql", .file .empty 7), ("user.graphql.txt", .file .empty 8)])]⟩

/-- The files of one directory with an extension. -/
def librarySettings (extension : String) : SourceSettings := ⟨["/lib"], extension⟩

theorem mem_collect_iff_user : dottedTree.HasRealNames ∧
    "/lib" ∈ (librarySettings ".graphql").directories ∧ dottedTree.locate "/lib" = .ok ["lib"] ∧
    dottedTree.node? ["lib", "user.graphql"] = some (.file .empty 7) ∧
    ∃ c, dottedTree.collect (librarySettings ".graphql") = .ok c ∧
      (Place.path ["lib", "user.graphql"], stampOf 7) ∈ c.fingerprint.entries := by
  have hreal : dottedTree.HasRealNames := by decide +kernel
  have hmem : "/lib" ∈ (librarySettings ".graphql").directories := List.mem_singleton_self _
  have hroot : dottedTree.locate "/lib" = .ok ["lib"] := by rfl
  have hnode : dottedTree.node? ["lib", "user.graphql"] = some (.file .empty 7) := by rfl
  have hcollect : dottedTree.collect (librarySettings ".graphql") =
      .ok ⟨⟨[("/lib/user.graphql", 7)]⟩, []⟩ := by rfl
  have hextension : (librarySettings ".graphql").normalizedExtension = "graphql" := by
    decide +kernel
  have hdot : '.' ∉ (librarySettings ".graphql").normalizedExtension.toList := by
    rw [hextension]
    decide
  have hname : "user" ++ "." ++ (librarySettings ".graphql").normalizedExtension =
      "user.graphql" := by
    rw [hextension]
    rfl
  refine ⟨hreal, hmem, hroot, hnode, _, hcollect, ?_⟩
  rw [← hname] at hnode ⊢
  exact (mem_collect_iff hreal hmem hroot (by decide) hnode hcollect).1.mpr hdot

/-- An extension with a dot inside is accepted, and no file is ever found with it. -/
theorem not_mem_collect_of_valid : ¬∀ (t : FileTree) (config : Config) (root stem : String)
    (directory : Place) (content : ByteArray) (time : Int) (c : Collection), t.HasRealNames →
      config.firstInvalid? = none → root ∈ config.schema.directories →
        t.locate root = .ok directory → stem ≠ "" →
          t.node? (directory ++ [stem ++ "." ++ config.schema.normalizedExtension]) =
            some (.file content time) → t.collect config.schema = .ok c →
          (Place.path (directory ++ [stem ++ "." ++ config.schema.normalizedExtension]),
            stampOf time) ∈ c.fingerprint.entries := by
  intro h
  have hcollect : dottedTree.collect (librarySettings "graphql.txt") = .ok .empty := by rfl
  have hmem := h dottedTree { schema := librarySettings "graphql.txt" } "/lib" "user" ["lib"]
    .empty 8 .empty (by decide +kernel) (by decide +kernel) (List.mem_singleton_self _) rfl
    (by decide) rfl hcollect
  exact absurd hmem List.not_mem_nil

end FileTree

end GraphSchema
