import GraphSchema.Proofs.Files.Following

/-!
# Files that are written

A file that is put where no directory and no link stands leaves every way through the tree as it
was, since only directories and links make the ways. So a path leads to the file that was written
to it, through all links, and the file is read as the text that was written.
-/

namespace GraphSchema

namespace Node

variable {entries inner : List (String × Node)} {name : String}

theorem lookup_cons (k : String) (node : Node) (r : List (String × Node)) (x : String) :
    ((k, node) :: r).lookup x = if x = k then some node else r.lookup x := by
  rw [List.lookup_cons]
  by_cases hx : x = k
  · simp [hx]
  · simp [hx, beq_false_of_ne hx]

theorem lookup_insertEntry (name : String) (node : Node) (entries : List (String × Node))
    (x : String) :
    (insertEntry name node entries).lookup x =
      if x = name then some node else entries.lookup x := by
  induction entries with
  | nil => exact lookup_cons name node [] x
  | cons e r ih =>
    obtain ⟨k, v⟩ := e
    rw [insertEntry]
    split
    · next hk =>
      subst hk
      simp only [lookup_cons]
      split_ifs <;> rfl
    · next hk =>
      split
      · exact lookup_cons name node _ x
      · rw [lookup_cons, lookup_cons, ih]
        by_cases hx : x = k
        · rw [if_pos hx, if_neg (hx ▸ hk), if_pos hx]
        · rw [if_neg hx, if_neg hx]

/-- Where a node leads on to: a directory to its entries, a link to its target. -/
def onward? : Node → Option (Option String)
  | file _ _ => none
  | directory _ => some none
  | link target => some (some target)

theorem onward?_eq_none_iff {node : Option Node} : node.bind onward? = none ↔
    (∀ entries, node ≠ some (.directory entries)) ∧ ∀ target, node ≠ some (.link target) := by
  rcases node with _ | ⟨content, time⟩ | inner | target <;> simp [onward?]

/-- Nothing is reached below what leads nowhere. -/
theorem find?_onward_none (h : (entries.lookup name).bind onward? = none) (rest : Place) :
    (find? entries (name :: rest)).bind onward? = none := by
  have hdirectory := (onward?_eq_none_iff.mp h).1
  rw [find?]
  split
  · next hlookup => exact absurd hlookup (hdirectory _)
  · next hlookup =>
    split
    · rwa [hlookup] at h
    · rfl
  · rfl

/-- A node that leads nowhere on, in place of one that does not either or of none, changes no
way. -/
theorem onward_setBelow {node : Node} (hnode : node.onward? = none) {directory : Place}
    (hdirectory : find? entries directory = some (.directory inner))
    (hbefore : (inner.lookup name).bind onward? = none) (place : Place) :
    (find? (setBelow name (some node) entries directory) place).bind onward? =
      (find? entries place).bind onward? := by
  induction directory generalizing entries place with
  | nil =>
    obtain rfl := Node.directory.inj (Option.some.inj hdirectory)
    cases place with
    | nil => rfl
    | cons x place =>
      by_cases hx : x = name
      · subst hx
        have hafter : ((insertEntry x node entries).lookup x).bind onward? = none := by
          simpa [lookup_insertEntry] using hnode
        exact (find?_onward_none hafter place).trans (find?_onward_none hbefore place).symm
      · rw [setBelow, setEntry, find?, find?, lookup_insertEntry, if_neg hx]
  | cons d directory ih =>
    obtain ⟨below, hlookup, hbelow⟩ := exists_lookup_of_find? hdirectory
    rw [setBelow, hlookup]
    cases place with
    | nil => rfl
    | cons x place =>
      dsimp only
      rw [find?, find?, lookup_insertEntry]
      by_cases hx : x = d
      · subst hx
        rw [if_pos rfl, hlookup]
        exact ih hbelow place
      · rw [if_neg hx]

theorem find?_setBelow_self (name : String) (node : Node) {directory : Place}
    (hdirectory : find? entries directory = some (.directory inner)) :
    ∃ after, find? (setBelow name (some node) entries directory) directory =
      some (.directory after) ∧ after.lookup name = some node := by
  induction directory generalizing entries with
  | nil => exact ⟨insertEntry name node entries, rfl, by rw [lookup_insertEntry, if_pos rfl]⟩
  | cons d directory ih =>
    obtain ⟨below, hlookup, hbelow⟩ := exists_lookup_of_find? hdirectory
    rw [setBelow, hlookup]
    dsimp only
    rw [find?, lookup_insertEntry, if_pos rfl]
    exact ih hbelow

end Node

namespace FileTree

variable {t u : FileTree} {links : Nat} {here directory : Place} {steps : List String}
  {slash : Bool} {e : PathEnd} {name : String} {entries : List (String × Node)}

/-- Whether two trees have the same directories and the same links, at the same places. -/
def SameWays (t u : FileTree) : Prop :=
  ∀ place, (u.node? place).bind Node.onward? = (t.node? place).bind Node.onward?

/-- Nothing is followed from a place that is no directory. -/
theorem advance_of_none (h : t.entries? here = none) (steps : List String) :
    t.advance here steps = .failed .notDirectory := by
  cases steps <;> rw [advance, h]

namespace SameWays

theorem link_iff (h : SameWays t u) (place : Place) (target : String) :
    u.node? place = some (.link target) ↔ t.node? place = some (.link target) := by
  have hlink : ∀ node : Option Node,
      node = some (.link target) ↔ node.bind Node.onward? = some (some target) := by
    rintro (_ | ⟨content, time⟩ | inner | other) <;> simp [Node.onward?]
  rw [hlink, hlink, h place]

theorem exists_entries? (h : SameWays t u) {place : Place} {entries : List (String × Node)}
    (hentries : t.entries? place = some entries) : ∃ after, u.entries? place = some after := by
  have hway := h place
  rw [entries?_eq_some_iff.mp hentries] at hway
  rcases hnode : u.node? place with _ | ⟨content, time⟩ | after | target
  · simp [hnode, Node.onward?] at hway
  · simp [hnode, Node.onward?] at hway
  · exact ⟨after, entries?_eq_some_iff.mpr hnode⟩
  · simp [hnode, Node.onward?] at hway

/-- Segments that can be followed lead to the same place or link. -/
theorem advance_eq (h : SameWays t u)
    (hfollowed : ∀ reason, t.advance here steps ≠ .failed reason) :
    u.advance here steps = t.advance here steps := by
  fun_induction advance t here steps with
  | case2 | case3 | case6 | case7 => exact absurd rfl (hfollowed _)
  | case1 here entries hentries =>
    obtain ⟨after, hafter⟩ := h.exists_entries? hentries
    rw [advance, hafter]
  | case4 here rest entries hentries ih =>
    obtain ⟨after, hafter⟩ := h.exists_entries? hentries
    rw [advance, hafter]
    exact ih hfollowed
  | case5 here rest entries hentries _ ih =>
    obtain ⟨after, hafter⟩ := h.exists_entries? hentries
    rw [advance, hafter]
    exact ih hfollowed
  | case8 here s rest entries hentries hhere hup hfits target hlink =>
    obtain ⟨after, hafter⟩ := h.exists_entries? hentries
    have hsame := (h.link_iff (here ++ [s]) target).mpr ((node?_concat hentries s).trans hlink)
    rw [node?_concat hafter] at hsame
    simp only [advance, hafter, if_neg hhere, if_neg hup, if_neg hfits, hsame]
  | case9 here s rest entries hentries hhere hup hfits node hother hnode ih =>
    obtain ⟨after, hafter⟩ := h.exists_entries? hentries
    -- What follows is found in a directory, and there is none but where there was one.
    cases hbelow : t.entries? (here ++ [s]) with
    | none => exact absurd (advance_of_none hbelow rest) (hfollowed _)
    | some below =>
      obtain ⟨onward, honward⟩ := h.exists_entries? hbelow
      have hsame := entries?_eq_some_iff.mp honward
      rw [node?_concat hafter] at hsame
      simp only [advance, hafter, if_neg hhere, if_neg hup, if_neg hfits, hsame]
      exact ih hfollowed

/-- A path that can be followed ends at the same place. -/
theorem resolves (h : SameWays t u) (hends : t.Resolves links here steps slash e) :
    u.Resolves links here steps slash e := by
  induction hends with
  | through hadvance _ ih => exact .through ((h.advance_eq (by simp [hadvance])).trans hadvance) ih
  | arrived hadvance hlast =>
    exact .arrived ((h.advance_eq (by simp [hadvance])).trans hadvance) hlast
  | followed hadvance hlast hfits hlink _ ih =>
    have hsame := (h.advance_eq (by simp [hadvance])).trans hadvance
    exact .followed hsame hlast hfits ((h.link_iff _ _).mpr hlink) ih
  | found hadvance hlast hfits hnode =>
    have hsame := (h.advance_eq (by simp [hadvance])).trans hadvance
    exact .found hsame hlast hfits fun target hlink => hnode target ((h.link_iff _ _).mp hlink)

end SameWays

/-- Where a path ends at a name, this stands in a directory and is no link. -/
theorem Resolves.ends (h : t.Resolves links here steps slash e) (hname : e.name? = some name) :
    (∃ entries, t.entries? e.directory = some entries) ∧
      ∀ target, t.node? e.place ≠ some (.link target) := by
  induction h with
  | through _ _ ih => exact ih hname
  | arrived => exact absurd hname (by simp)
  | followed _ _ _ _ _ ih => exact ih hname
  | found hadvance _ _ hnode =>
    obtain rfl := Option.some.inj hname
    exact ⟨exists_entries?_of_arrived hadvance, hnode⟩

/-- A file that is put where no directory and no link stands leaves the ways as they were. -/
theorem sameWays_put (hentries : t.entries? directory = some entries)
    (hbefore : (t.node? (directory ++ [name])).bind Node.onward? = none) (content : ByteArray)
    (time : Int) : SameWays t (t.put directory name (.file content time)) := by
  rw [node?_concat hentries] at hbefore
  exact Node.onward_setBelow rfl (entries?_eq_some_iff.mp hentries) hbefore

theorem node?_put_self (hentries : t.entries? directory = some entries) (name : String)
    (node : Node) : (t.put directory name node).node? (directory ++ [name]) = some node := by
  obtain ⟨after, hafter, hlookup⟩ := Node.find?_setBelow_self name node
    (entries?_eq_some_iff.mp hentries)
  exact (node?_concat (entries?_eq_some_iff.mpr hafter) name).trans hlookup

theorem exists_put_of_write {path : String} {content : ByteArray} {time : Int}
    (h : t.write path content time = .ok u) : ∃ e name, t.resolve .file path = .ok e ∧
      e.name? = some name ∧ (∀ entries, t.node? e.place ≠ some (.directory entries)) ∧
        u = t.put e.directory name (.file content time) := by
  obtain ⟨e, he, h⟩ := bind_eq_ok.mp h
  obtain ⟨node, hnode, h⟩ := bind_eq_ok.mp h
  have hstands : node = t.node? e.place := by
    rw [nodeAt] at hnode
    split at hnode
    · exact absurd hnode throw_ne_ok
    · exact (Except.ok.inj hnode).symm
  split at h
  · exact absurd h throw_ne_ok
  · exact absurd h throw_ne_ok
  · next name hname hother =>
    refine ⟨e, name, he, hname, fun entries hentries => ?_, (Except.ok.inj h).symm⟩
    exact hother entries (hstands.trans hentries)

/-- A path leads to the file that was written to it. -/
theorem find_of_write {path : String} {content : ByteArray} {time : Int}
    (h : t.write path content time = .ok u) : u.find path = .ok (.file content time) := by
  obtain ⟨e, name, he, hname, hdirectory, rfl⟩ := exists_put_of_write h
  obtain ⟨⟨⟩, hcheck, hresolve⟩ := bind_eq_ok.mp he
  obtain ⟨hends, -, hslash⟩ := resolves_of_resolveFrom hresolve nofun
  obtain ⟨⟨entries, hentries⟩, hlink⟩ := hends.ends hname
  have hplace : e.place = e.directory ++ [name] := by
    rw [PathEnd.place, hname]
    rfl
  have hbefore := Node.onward?_eq_none_iff.mpr ⟨hdirectory, hlink⟩
  have hfile := node?_put_self hentries name (.file content time)
  rw [← hplace] at hfile
  rw [hplace] at hbefore
  have hways := sameWays_put hentries hbefore content time
  have hlocate : (t.put e.directory name (.file content time)).locate path = .ok e.place := by
    have hafter := (hways.resolves hends).resolveFrom_eq
    refine locate_eq_ok_iff.mpr
      ⟨e, bind_eq_ok.mpr ⟨(), hcheck, hafter⟩, rfl, _, hfile, fun habsurd => ?_⟩
    rw [hslash rfl (by simp [hname])] at habsurd
    exact absurd habsurd (by simp)
  exact bind_eq_ok.mpr ⟨e.place, hlocate, by rw [hfile]; rfl⟩

/-- A text that is written to a path is read from it. -/
theorem readText_of_write {path text : String} {time : Int}
    (h : t.write path text.toUTF8 time = .ok u) : u.readText path = .ok text := by
  have htext : String.fromUTF8? text.toUTF8 = some text := dif_pos text.isValidUTF8
  refine bind_eq_ok.mpr ⟨_, find_of_write h, ?_⟩
  dsimp only
  rw [htext]
  rfl

end FileTree

end GraphSchema
