import GraphSchema.Proofs.Collection.Visits
import Mathlib.Data.List.Perm.Subperm
import Mathlib.Logic.Relation

/-!
# Reach

A walk never goes into a directory that it is inside of, and yet it comes into every directory that
its root leads to: whatever way leads there, the way can be cut short until it enters no directory
twice. The walk's steps are enough, since no way of this kind has more directories than the tree has
nodes. What can keep a walk from a directory is a path that is too long or goes through too many
links.
-/

namespace GraphSchema

namespace Node

mutual

/-- The places from a node on downwards, seen from it. -/
def places : Node → List Place
  | .directory entries => [] :: placesOfEntries entries
  | .file _ _ => [[]]
  | .link _ => [[]]

/-- The places among entries and below them. -/
def placesOfEntries : List (String × Node) → List Place
  | [] => []
  | (name, n) :: r => (places n).map (name :: ·) ++ placesOfEntries r

end

mutual

theorem length_places : (n : Node) → (places n).length = size n
  | .directory entries => by
    rw [places, size, List.length_cons, length_placesOfEntries entries]
  | .file _ _ => rfl
  | .link _ => rfl

theorem length_placesOfEntries : (entries : List (String × Node)) →
    (placesOfEntries entries).length = sizeOfEntries entries
  | [] => rfl
  | (_, n) :: r => by
    rw [placesOfEntries, sizeOfEntries, List.length_append, List.length_map, length_places n,
      length_placesOfEntries r]

end

theorem nil_mem_places (n : Node) : [] ∈ places n := by
  cases n <;> simp [places]

theorem cons_mem_placesOfEntries {entries : List (String × Node)} {name : String} {n : Node}
    {place : Place} (h : entries.lookup name = some n) (hplace : place ∈ places n) :
    name :: place ∈ placesOfEntries entries := by
  induction entries with
  | nil => exact absurd h (by simp)
  | cons entry rest ih =>
    obtain ⟨k, v⟩ := entry
    rw [placesOfEntries, List.mem_append]
    rw [List.lookup_cons] at h
    split at h
    · next hname =>
      obtain rfl := beq_iff_eq.mp hname
      obtain rfl := Option.some.inj h
      exact .inl (List.mem_map_of_mem hplace)
    · exact .inr (ih h)

theorem mem_places_of_find? {entries : List (String × Node)} {place : Place} {n : Node}
    (h : find? entries place = some n) : place ∈ places (.directory entries) := by
  induction place generalizing entries with
  | nil => exact nil_mem_places _
  | cons name rest ih =>
    rw [places]
    refine List.mem_cons_of_mem _ ?_
    rw [find?] at h
    split at h
    · next hlookup => exact cons_mem_placesOfEntries hlookup (ih h)
    · next hlookup =>
      split at h
      · next hrest =>
        rw [List.isEmpty_iff.mp hrest]
        exact cons_mem_placesOfEntries hlookup (nil_mem_places _)
      · exact absurd h (by simp)
    · exact absurd h (by simp)

end Node

/-- From one end of a way to the other one comes without coming back to the start. -/
theorem exists_step_away {α : Type} {r : α → α → Prop} {a x : α}
    (h : Relation.ReflTransGen r a x) :
    a = x ∨ ∃ b, r a b ∧ b ≠ a ∧ Relation.ReflTransGen (fun c d => r c d ∧ d ≠ a) b x := by
  induction h with
  | refl => exact .inl rfl
  | @tail c d hac hcd ih =>
    by_cases hd : d = a
    · exact .inl hd.symm
    · right
      rcases ih with rfl | ⟨b, hb, hne, hbc⟩
      · exact ⟨d, hcd, hd, .refl⟩
      · exact ⟨b, hb, hne, hbc.tail ⟨hcd, hd⟩⟩

namespace FileTree

variable {t : FileTree} {root path base name : String} {directory place target : Place}

/-- No more things stand in a tree than it has nodes. -/
theorem length_le_size {places : List Place} (hnodup : places.Nodup)
    (h : ∀ place ∈ places, (t.node? place).isSome) : places.length ≤ t.size := by
  have hsubset : places ⊆ Node.places (.directory t.entries) := by
    intro place hplace
    obtain ⟨n, hn⟩ := Option.isSome_iff_exists.mp (h place hplace)
    exact Node.mem_places_of_find? hn
  calc places.length ≤ (Node.places (.directory t.entries)).length :=
        (hnodup.subperm hsubset).length_le
    _ = t.size := Node.length_places _

theorem hasRealNames_iff : t.HasRealNames ↔
    ∀ place ∈ Node.places (.directory t.entries), (t.node? place).isSome →
      ∀ name ∈ place, Path.IsFileName name := by
  refine ⟨fun h place _ => h place, fun h place hsome => h place ?_ hsome⟩
  obtain ⟨node, hnode⟩ := Option.isSome_iff_exists.mp hsome
  exact Node.mem_places_of_find? hnode

instance : Decidable t.HasRealNames := decidable_of_iff _ hasRealNames_iff.symm

/-- A walk is inside of fewer directories than the tree has nodes, as long as it comes into none of
them again. -/
theorem length_lt_size {inside : List Ancestor} (hdirectory : (t.entries? directory).isSome)
    (hinside : ∀ a ∈ inside, (t.entries? a.place).isSome)
    (hnodup : (directory :: inside.map (·.place)).Nodup) : inside.length < t.size := by
  have hsome : ∀ place, (t.entries? place).isSome → (t.node? place).isSome := by
    intro place hplace
    obtain ⟨entries, hentries⟩ := Option.isSome_iff_exists.mp hplace
    exact Option.isSome_of_mem (entries?_eq_some_iff.mp hentries)
  have hlength := length_le_size hnodup <| List.forall_mem_cons.mpr ⟨hsome directory hdirectory,
    List.forall_mem_map.mpr fun a ha => hsome a.place (hinside a ha)⟩
  rwa [List.length_cons, List.length_map] at hlength

/-- A directory has an entry that leads to a place, on some path to the directory. -/
def Leads (t : FileTree) (directory place : Place) : Prop :=
  ∃ path name, t.locate path = .ok directory ∧ (t.node? (directory ++ [name])).isSome ∧
    t.locate (Path.join path name) = .ok place

theorem Below.reaches (h : t.Below root path place) : ∃ start, t.locate root = .ok start ∧
    Relation.ReflTransGen t.Leads start place := by
  induction h with
  | root hplace => exact ⟨_, hplace, .refl⟩
  | entry hbelow hentry hplace ih =>
    obtain ⟨start, hstart, hreach⟩ := ih
    exact ⟨start, hstart, hreach.tail ⟨_, _, hbelow.locate, hentry, hplace⟩⟩

/-- What stands at a path is a link that leads nowhere, on no path at all. -/
def IsDangling (t : FileTree) (path : String) : Prop :=
  ∃ place, t.standing path = .ok place ∧
    ∀ other target, t.standing other = .ok place → t.locate other ≠ .ok target

theorem isSome_entries?_of_leads (h : t.Leads directory place) : (t.entries? directory).isSome := by
  obtain ⟨path, name, -, hentry, -⟩ := h
  obtain ⟨node, hnode⟩ := Option.isSome_iff_exists.mp hentry
  obtain ⟨entries, hentries, -⟩ := exists_entries?_of_node? hnode
  exact Option.isSome_of_mem hentries

theorem isSome_entries?_of_reaches (h : Relation.ReflTransGen t.Leads place target)
    (htarget : (t.entries? target).isSome) : (t.entries? place).isSome := by
  rcases h.cases_head with rfl | ⟨_, hfirst, -⟩
  · exact htarget
  · exact isSome_entries?_of_leads hfirst

/-- Findings that have all that a walk comes by at the entries of a directory. -/
def Explores (t : FileTree) (findings : List Finding) (directory : Place) : Prop :=
  ∃ path inside steps, t.locate path = .ok directory ∧ inside ≠ [] ∧
    (∀ a ∈ inside, (t.entries? a.place).isSome) ∧
      ∀ name, (t.node? (directory ++ [name])).isSome →
        t.walkFrom (steps + 2) inside (Path.join path name) (directory ++ [name]) ⊆ findings

section

variable (ht : t.HasRealNames)

include ht

theorem not_isDangling_entry (hpath : t.locate path = .ok directory)
    (hbase : t.locate base = .ok directory) (hentry : (t.node? (directory ++ [name])).isSome)
    (hplace : t.locate (Path.join base name) = .ok place) :
    ¬t.IsDangling (Path.join path name) := by
  rintro ⟨entry, hstanding, hnowhere⟩
  obtain ⟨node, hnode⟩ := Option.isSome_iff_exists.mp hentry
  have hfits := (Path.check_eq_ok_iff.mp (check_of_standing hstanding)).2.2
  have hbasefits := (Path.check_eq_ok_iff.mp (check_of_locate hplace)).2.2
  obtain rfl := Except.ok.inj (hstanding.symm.trans (standing_entry ht hpath hnode hfits))
  exact hnowhere _ place (standing_entry ht hbase hnode hbasefits) hplace

variable {findings : List Finding} {inside : List Ancestor} {steps : Nat}
  (hclear : ∀ path depth reason, .unreadable path depth reason ∈ findings → t.IsDangling path)

include hclear

/-- A walk at the entries of a directory comes into each directory that one of them leads to. -/
theorem enters_of_leads (hpath : t.locate path = .ok directory) (hleads : t.Leads directory target)
    (htarget : (t.entries? target).isSome) (hout : ∀ a ∈ inside, a.place ≠ target)
    (hentries : ∀ name, (t.node? (directory ++ [name])).isSome →
      t.walkFrom (steps + 1) inside (Path.join path name) (directory ++ [name]) ⊆ findings) :
    ∃ name left, steps ≤ left ∧ t.locate (Path.join path name) = .ok target ∧
      t.walkFrom left inside (Path.join path name) target ⊆ findings := by
  obtain ⟨base, name, hbase, hentry, hplace⟩ := hleads
  have hwalk := hentries name hentry
  by_cases hlocate : ∃ place, t.locate (Path.join path name) = .ok place
  · obtain ⟨place, hlocate⟩ := hlocate
    obtain rfl := locate_entry_inj ht hpath hbase hentry hlocate hplace
    obtain ⟨left, hleft, heq⟩ := walkFrom_entry ht hpath hentry hlocate hout steps
    exact ⟨name, left, hleft, hlocate, heq ▸ hwalk⟩
  · rw [not_exists] at hlocate
    obtain ⟨reason, heq | ⟨-, content, time, hfile⟩⟩ :=
      walkFrom_entry_error ht hpath hentry hlocate inside steps
    · have hmem := hwalk (heq ▸ List.mem_singleton_self _)
      exact absurd (hclear _ _ _ hmem) (not_isDangling_entry ht hpath hbase hentry hplace)
    · obtain rfl := place_eq_of_locate_entry ht hbase hfile (by simp) hplace
      rw [entries?, hfile] at htarget
      exact absurd htarget (by simp)

/-- A walk that has enough steps left for all directories that it is not inside of explores each one
that it can reach without coming back. -/
theorem explores_of_reaches (free : Nat) (hpath : t.locate path = .ok directory)
    (hdirectory : (t.entries? directory).isSome)
    (hinside : ∀ a ∈ inside, (t.entries? a.place).isSome)
    (hnodup : (directory :: inside.map (·.place)).Nodup) (hfree : t.size ≤ inside.length + free)
    (hsteps : 2 * free + 1 ≤ steps) (hwalk : t.walkFrom steps inside path directory ⊆ findings)
    (hreach : Relation.ReflTransGen (fun a b => t.Leads a b ∧ b ∉ inside.map (·.place))
      directory target) (htarget : (t.entries? target).isSome) : t.Explores findings target := by
  -- Every directory that the walk comes into is one more that it is inside of, and takes two steps
  -- at most: one down an entry, and one through a link.
  induction free generalizing inside path directory steps with
  | zero =>
    have hlength := length_lt_size hdirectory hinside hnodup
    omega
  | succ free ih =>
    obtain ⟨left, rfl⟩ := Nat.exists_eq_add_of_le' (show 3 ≤ steps by omega)
    have hfits := (Path.check_eq_ok_iff.mp (check_of_locate hpath)).2.2
    obtain ⟨entries, hentries⟩ := Option.isSome_iff_exists.mp hdirectory
    have hall : ∀ name, (t.node? (directory ++ [name])).isSome →
        t.walkFrom (left + 2) (⟨path, directory⟩ :: inside) (Path.join path name)
          (directory ++ [name]) ⊆ findings := by
      intro name hentry finding hmem
      exact hwalk (walkFrom_directory hentries hfits hentry (left + 2) hmem)
    have hinside' : ∀ a ∈ Ancestor.mk path directory :: inside, (t.entries? a.place).isSome :=
      List.forall_mem_cons.mpr ⟨hdirectory, hinside⟩
    rcases exists_step_away hreach with rfl | ⟨next, ⟨hleads, hnew⟩, hne, hrest⟩
    · exact ⟨path, _, left, hpath, List.cons_ne_nil _ _, hinside', hall⟩
    · have hnext : (t.entries? next).isSome := isSome_entries?_of_reaches
          (Relation.ReflTransGen.mono (fun _ _ hab => hab.1.1) _ _ hrest) htarget
      have hout : ∀ a ∈ Ancestor.mk path directory :: inside, a.place ≠ next := by
        refine List.forall_mem_cons.mpr ⟨Ne.symm hne, ?_⟩
        rintro a ha rfl
        exact hnew (List.mem_map_of_mem ha)
      obtain ⟨name, more, hmore, hlocate, hwalk⟩ :=
        enters_of_leads ht hclear hpath hleads hnext hout hall
      refine ih hlocate hnext hinside' ?_ ?_ (by omega) hwalk ?_
      · refine List.nodup_cons.mpr ⟨?_, hnodup⟩
        exact List.not_mem_cons_of_ne_of_not_mem hne hnew
      · rw [List.length_cons]
        omega
      · refine Relation.ReflTransGen.mono (fun a b hab => ⟨hab.1.1, ?_⟩) _ _ hrest
        rw [List.map_cons, List.mem_cons, not_or]
        exact ⟨hab.2, hab.1.2⟩

end

/-- The walk from a root goes on from where the root leads. -/
theorem exists_walk_eq (hroot : t.locate root = .ok place) :
    ∃ steps, 2 * t.size + 1 ≤ steps ∧ t.walk root = t.walkFrom steps [] root place := by
  have hsteps : 2 * t.size + 1 + 1 ≤ t.walkSteps := calc
    2 * t.size + 1 + 1 = (t.size + 1) * 2 := by omega
    _ ≤ (t.size + 1) * (t.size + 2) := Nat.mul_le_mul_left _ (Nat.le_add_left 2 t.size)
  rcases standing_of_locate hroot with hstanding | ⟨entry, link, hstanding, hlink⟩
  · exact ⟨t.walkSteps, by omega, by rw [walk, hstanding]⟩
  · obtain ⟨steps, hsucc⟩ := Nat.exists_eq_add_of_le' (Nat.le_of_add_left_le hsteps)
    refine ⟨steps, by omega, ?_⟩
    rw [walk, hstanding]
    dsimp only
    rw [hsucc, walkFrom_link hlink hroot (by simp)]

theorem walk_file {content : ByteArray} {time : Int} (hroot : t.locate root = .ok place)
    (hnode : t.node? place = some (.file content time)) :
    t.walk root = if Path.isOverlong place.path then [.sealed root .nameTooLong]
      else [.file root place time] := by
  obtain ⟨steps, hsteps, hwalk⟩ := exists_walk_eq hroot
  obtain ⟨left, rfl⟩ := Nat.exists_eq_add_of_le' (Nat.le_of_add_left_le hsteps)
  have hfits := (Path.check_eq_ok_iff.mp (check_of_locate hroot)).2.2
  rw [hwalk, walkFrom_file hnode hfits]

/-- The walk from a root visits all there is: what it cannot visit are links that lead nowhere. -/
def VisitsAll (t : FileTree) (root : String) : Prop :=
  ∀ path depth reason, .unreadable path depth reason ∈ t.walk root → t.IsDangling path

/-- A walk that visits all there is explores every directory that its root leads to. -/
theorem explores_walk (ht : t.HasRealNames) (hvisits : t.VisitsAll root)
    (hroot : t.locate root = .ok place) (hreach : Relation.ReflTransGen t.Leads place target)
    (htarget : (t.entries? target).isSome) : t.Explores (t.walk root) target := by
  obtain ⟨steps, hsteps, hwalk⟩ := exists_walk_eq hroot
  have hall : Relation.ReflTransGen (fun a b => t.Leads a b ∧
      b ∉ ([] : List Ancestor).map (·.place)) place target :=
    Relation.ReflTransGen.mono (fun _ _ hab => ⟨hab, List.not_mem_nil⟩) _ _ hreach
  exact explores_of_reaches ht hvisits t.size hroot (isSome_entries?_of_reaches hreach htarget)
    (List.forall_mem_nil _) (List.nodup_singleton _) (Nat.le_add_left _ _) hsteps
    (hwalk ▸ List.Subset.refl _) hall htarget

end FileTree

end GraphSchema
