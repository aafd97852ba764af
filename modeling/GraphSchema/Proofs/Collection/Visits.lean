import GraphSchema.Collection.Walk
import GraphSchema.Proofs.Collection.Places
import GraphSchema.Proofs.Files.Following

/-!
# Visits

A walk comes by what stands below its root: by files that a path from the root leads to, and by
entries of directories that such a path leads to. What it says of an entry depends on where the path
of the entry leads.
-/

namespace GraphSchema

/-- All that stands in a tree stands under names that a file system takes. -/
def FileTree.HasRealNames (t : FileTree) : Prop :=
  ∀ place, (t.node? place).isSome → ∀ name ∈ place, Path.IsFileName name

theorem FileTree.HasRealNames.hasFileNames {t : FileTree} (ht : t.HasRealNames) :
    t.HasFileNames :=
  fun place hplace name hname => (ht place hplace name hname).toIsEntryName

namespace FileTree

variable {t : FileTree} {root path base name : String} {directory place target : Place}
  {node : Node}

theorem exists_entries?_of_node? (h : t.node? (directory ++ [name]) = some node) :
    ∃ entries, t.entries? directory = some entries ∧ entries.lookup name = some node := by
  have hfind : ∀ (directory : Place) (top : List (String × Node)),
      Node.find? top (directory ++ [name]) = some node →
        ∃ entries, Node.find? top directory = some (.directory entries) := by
    intro directory
    induction directory with
    | nil => exact fun top _ => ⟨top, rfl⟩
    | cons d rest ih =>
      intro top htop
      rw [List.cons_append, Node.find?] at htop
      rw [Node.find?]
      split at htop
      · exact ih _ htop
      · rw [if_neg (by simp)] at htop
        exact absurd htop (by simp)
      · exact absurd htop (by simp)
  obtain ⟨entries, hentries⟩ := hfind directory t.entries h
  have hdirectory := entries?_eq_some_iff.mpr hentries
  exact ⟨entries, hdirectory, (node?_concat hdirectory name).symm.trans h⟩

theorem isSome_node?_of_mem {entries : List (String × Node)}
    (hentries : t.entries? directory = some entries) (h : (name, node) ∈ entries) :
    (t.node? (directory ++ [name])).isSome := by
  rw [node?_concat hentries, List.lookup_isSome_iff]
  exact ⟨(name, node), h, beq_self_eq_true name⟩

theorem HasRealNames.isFileName (ht : t.HasRealNames)
    (hentry : (t.node? (directory ++ [name])).isSome) : Path.IsFileName name :=
  ht _ hentry name (by simp)

section

variable (ht : t.HasRealNames) (hpath : t.locate path = .ok directory)

include ht hpath

theorem standing_entry (hnode : t.node? (directory ++ [name]) = some node)
    (hfits : Path.isOverlong (Path.join path name) = false) :
    t.standing (Path.join path name) = .ok (directory ++ [name]) := by
  obtain ⟨entries, hentries, hlookup⟩ := exists_entries?_of_node? hnode
  exact standing_join hpath hentries (ht.isFileName (Option.isSome_of_mem hnode)) hfits hlookup

theorem locate_entry (hnode : t.node? (directory ++ [name]) = some node)
    (hlink : ∀ target, node ≠ .link target)
    (hfits : Path.isOverlong (Path.join path name) = false) :
    t.locate (Path.join path name) = .ok (directory ++ [name]) := by
  obtain ⟨entries, hentries, hlookup⟩ := exists_entries?_of_node? hnode
  exact locate_join hpath hentries (ht.isFileName (Option.isSome_of_mem hnode)) hfits hlookup hlink

/-- An entry leads to one place at most, on whatever path its directory is reached. -/
theorem locate_entry_inj (hbase : t.locate base = .ok directory)
    (hentry : (t.node? (directory ++ [name])).isSome)
    (hplace : t.locate (Path.join path name) = .ok place)
    (htarget : t.locate (Path.join base name) = .ok target) : place = target := by
  obtain ⟨node, hnode⟩ := Option.isSome_iff_exists.mp hentry
  obtain ⟨entries, hentries, -⟩ := exists_entries?_of_node? hnode
  exact locate_join_inj hpath hbase hentries (ht.isFileName hentry) hplace htarget

/-- An entry that is no link leads to its own place, if it leads anywhere. -/
theorem place_eq_of_locate_entry (hnode : t.node? (directory ++ [name]) = some node)
    (hlink : ∀ target, node ≠ .link target)
    (hplace : t.locate (Path.join path name) = .ok place) : place = directory ++ [name] := by
  have hfits := (Path.check_eq_ok_iff.mp (check_of_locate hplace)).2.2
  exact Except.ok.inj (hplace.symm.trans (locate_entry ht hpath hnode hlink hfits))

end

/-- The paths that go on from a root by entries of directories, and the places that they lead to. -/
inductive Below (t : FileTree) (root : String) : String → Place → Prop
  | root {place : Place} (hplace : t.locate root = .ok place) : Below t root root place
  | entry {path name : String} {directory place : Place} (hbelow : Below t root path directory)
      (hentry : (t.node? (directory ++ [name])).isSome)
      (hplace : t.locate (Path.join path name) = .ok place) :
      Below t root (Path.join path name) place

theorem Below.locate (h : t.Below root path place) : t.locate path = .ok place := by
  cases h with
  | root hplace => exact hplace
  | entry _ _ hplace => exact hplace

/-! ## What a walk tells -/

/-- What a finding says of what stands below a root. A path that can be told of, but not visited,
goes on from a directory by an entry. -/
def Tells (t : FileTree) (root : String) : Finding → Prop
  | .file path place time =>
      t.Below root path place ∧ ∃ content, t.node? place = some (.file content time)
  | .sealed path _ => Path.isOverlong path = false → ∃ place content time,
      t.Below root path place ∧ t.node? place = some (.file content time) ∧
        Path.isOverlong place.path = true
  | .unreadable path depth _ => 0 < depth → ∃ base directory name, path = Path.join base name ∧
      t.Below root base directory ∧ (t.node? (directory ++ [name])).isSome
  | .loop _ _ => True

/-- What holds of each path that a walk from a root visits, of the place that it visits it at, and
of the number of directories that it is inside of. -/
structure Visited (t : FileTree) (root : String) (depth : Nat) (path : String) (place : Place) :
    Prop where
  below : ∀ target, t.locate path = .ok target → t.Below root path target
  leads : ∀ node, t.node? place = some node → (∀ target, node ≠ .link target) →
    Path.isOverlong path = false → t.locate path = .ok place
  entry : 0 < depth → ∃ base directory name, path = Path.join base name ∧
    t.Below root base directory ∧ (t.node? (directory ++ [name])).isSome

theorem visited_root (h : t.standing root = .ok place) : t.Visited root 0 root place where
  below _ htarget := .root htarget
  leads node hnode hlink _ := locate_of_standing h fun target htarget =>
    hlink target (Option.some.inj (hnode.symm.trans htarget))
  entry h := absurd h (by simp)

theorem visited_entry (ht : t.HasRealNames) (h : t.Below root path directory)
    (hentry : (t.node? (directory ++ [name])).isSome) (depth : Nat) :
    t.Visited root depth (Path.join path name) (directory ++ [name]) where
  below _ hplace := .entry h hentry hplace
  leads _ hnode hlink hfits := locate_entry ht h.locate hnode hlink hfits
  entry _ := ⟨path, directory, name, rfl, h, hentry⟩

theorem Visited.follow {depth : Nat} (h : t.Visited root depth path place)
    (htarget : t.locate path = .ok target) : t.Visited root depth path target where
  below := h.below
  leads _ _ _ _ := htarget
  entry := h.entry

theorem tells_of_mem_walkFrom (ht : t.HasRealNames) {steps : Nat} {inside : List Ancestor}
    (h : t.Visited root inside.length path place) {finding : Finding}
    (hmem : finding ∈ t.walkFrom steps inside path place) : t.Tells root finding := by
  fun_induction walkFrom t steps inside path place with
  | case1 => exact absurd hmem List.not_mem_nil
  | case2 | case5 | case7 =>
    obtain rfl := List.mem_singleton.mp hmem
    exact h.entry
  | case3 _ path place _ content time hnode hlong =>
    obtain rfl := List.mem_singleton.mp hmem
    intro hfits
    rw [hfits, Bool.false_or] at hlong
    have hleads := h.leads _ hnode (by simp) hfits
    exact ⟨place, content, time, h.below place hleads, hnode, hlong⟩
  | case4 _ path place _ content time hnode hlong =>
    obtain rfl := List.mem_singleton.mp hmem
    have hfits : Path.isOverlong path = false := by simp_all
    exact ⟨h.below place (h.leads _ hnode (by simp) hfits), content, hnode⟩
  | case6 _ path place _ entries hnode hfits ih =>
    obtain ⟨⟨name, node⟩, hentry, hmem⟩ := List.mem_flatMap.mp hmem
    have hbelow := h.below place (h.leads _ hnode (by simp) (by simpa using hfits))
    have hsome := isSome_node?_of_mem (entries?_eq_some_iff.mpr hnode) hentry
    exact ih name (visited_entry ht hbelow hsome _) hmem
  | case8 =>
    obtain rfl := List.mem_singleton.mp hmem
    exact trivial
  | case9 _ _ _ _ _ _ _ htarget _ ih => exact ih (h.follow htarget) hmem

/-- What a walk comes by stands below its root. -/
theorem tells_of_mem_walk (ht : t.HasRealNames) {finding : Finding}
    (hmem : finding ∈ t.walk root) : t.Tells root finding := by
  rw [walk] at hmem
  split at hmem
  · obtain rfl := List.mem_singleton.mp hmem
    exact fun habsurd => absurd habsurd (by simp)
  · next hstanding => exact tells_of_mem_walkFrom ht (visited_root hstanding) hmem

/-! ## What a walk comes by at an entry -/

section

variable {inside : List Ancestor}

theorem walkFrom_file {content : ByteArray} {time : Int}
    (hnode : t.node? place = some (.file content time)) (hfits : Path.isOverlong path = false)
    (steps : Nat) : t.walkFrom (steps + 1) inside path place =
      if Path.isOverlong place.path then [.sealed path .nameTooLong]
      else [.file path place time] := by
  rw [walkFrom, hnode]
  dsimp only
  rw [hfits, Bool.false_or]

theorem walkFrom_directory {entries : List (String × Node)}
    (hentries : t.entries? place = some entries) (hfits : Path.isOverlong path = false)
    (hentry : (t.node? (place ++ [name])).isSome) (steps : Nat) :
    t.walkFrom steps (⟨path, place⟩ :: inside) (Path.join path name) (place ++ [name]) ⊆
      t.walkFrom (steps + 1) inside path place := by
  rw [node?_concat hentries, List.lookup_isSome_iff] at hentry
  obtain ⟨⟨_, node⟩, hnode, hname⟩ := hentry
  obtain rfl := beq_iff_eq.mp hname
  intro finding hmem
  rw [walkFrom, entries?_eq_some_iff.mp hentries]
  dsimp only
  rw [if_neg (by simp [hfits])]
  exact List.mem_flatMap.mpr ⟨(_, node), hnode, hmem⟩

theorem walkFrom_link {link : String} (hnode : t.node? place = some (.link link))
    (htarget : t.locate path = .ok target) (hout : ∀ a ∈ inside, a.place ≠ target) (steps : Nat) :
    t.walkFrom (steps + 1) inside path place = t.walkFrom steps inside path target := by
  have hfind : inside.find? (·.place = target) = none := by
    rw [List.find?_eq_none]
    exact fun a ha => by simpa using hout a ha
  rw [walkFrom, hnode]
  dsimp only
  rw [htarget]
  dsimp only
  rw [hfind]

variable (ht : t.HasRealNames) (hpath : t.locate path = .ok directory)
  (hentry : (t.node? (directory ++ [name])).isSome)

include ht hpath hentry

/-- A walk goes on from where the path of an entry leads, unless it is inside of this. -/
theorem walkFrom_entry (hplace : t.locate (Path.join path name) = .ok place)
    (hout : ∀ a ∈ inside, a.place ≠ place) (steps : Nat) :
    ∃ left, steps ≤ left ∧
      t.walkFrom (steps + 1) inside (Path.join path name) (directory ++ [name]) =
        t.walkFrom left inside (Path.join path name) place := by
  obtain ⟨node, hnode⟩ := Option.isSome_iff_exists.mp hentry
  by_cases hlink : ∃ link, node = .link link
  · obtain ⟨link, rfl⟩ := hlink
    exact ⟨steps, Nat.le_refl steps, walkFrom_link hnode hplace hout steps⟩
  · rw [not_exists] at hlink
    rw [place_eq_of_locate_entry ht hpath hnode hlink hplace]
    exact ⟨steps + 1, Nat.le_succ steps, rfl⟩

theorem walkFrom_entry_file {content : ByteArray} {time : Int}
    (hplace : t.locate (Path.join path name) = .ok place)
    (hnode : t.node? place = some (.file content time))
    (hinside : ∀ a ∈ inside, (t.entries? a.place).isSome) (steps : Nat) :
    t.walkFrom (steps + 2) inside (Path.join path name) (directory ++ [name]) =
      if Path.isOverlong place.path then [.sealed (Path.join path name) .nameTooLong]
      else [.file (Path.join path name) place time] := by
  have hout : ∀ a ∈ inside, a.place ≠ place := by
    rintro a ha rfl
    have hdirectory := hinside a ha
    rw [entries?, hnode] at hdirectory
    exact absurd hdirectory (by simp)
  have hfits := (Path.check_eq_ok_iff.mp (check_of_locate hplace)).2.2
  obtain ⟨left, hleft, hwalk⟩ := walkFrom_entry ht hpath hentry hplace hout (steps + 1)
  obtain ⟨rest, rfl⟩ := Nat.exists_eq_add_of_le' (Nat.le_of_add_left_le hleft)
  rw [hwalk, walkFrom_file hnode hfits]

/-- An entry whose path leads nowhere is told of. -/
theorem walkFrom_entry_error (hplace : ∀ place, t.locate (Path.join path name) ≠ .ok place)
    (inside : List Ancestor) (steps : Nat) : ∃ reason,
    t.walkFrom (steps + 1) inside (Path.join path name) (directory ++ [name]) =
        [.unreadable (Path.join path name) inside.length reason] ∨
      t.walkFrom (steps + 1) inside (Path.join path name) (directory ++ [name]) =
        [.sealed (Path.join path name) reason] ∧
      ∃ content time, t.node? (directory ++ [name]) = some (.file content time) := by
  obtain ⟨node, hnode⟩ := Option.isSome_iff_exists.mp hentry
  have hlong : (∀ link, node ≠ .link link) → Path.isOverlong (Path.join path name) = true := by
    intro hlink
    rw [← Bool.not_eq_false]
    exact fun hfits => hplace _ (locate_entry ht hpath hnode hlink hfits)
  rw [walkFrom, hnode]
  cases node with
  | file content time =>
    refine ⟨.nameTooLong, .inr ⟨?_, content, time, rfl⟩⟩
    exact if_pos (by rw [hlong (by simp), Bool.true_or])
  | directory entries => exact ⟨.nameTooLong, .inl (if_pos (hlong (by simp)))⟩
  | link link =>
    cases hlocate : t.locate (Path.join path name) with
    | error reason => exact ⟨reason, .inl rfl⟩
    | ok place => exact absurd hlocate (hplace place)

end

end FileTree

end GraphSchema
