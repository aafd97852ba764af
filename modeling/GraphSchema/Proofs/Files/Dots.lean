import GraphSchema.Proofs.Files.Following

/-!
# Paths that end in dots

A path whose last segment is `.` or `..` ends in a directory and names no entry of it, whatever
links it goes through. So nothing is ever moved to such a path.
-/

namespace GraphSchema.FileTree

open GraphSchema.Path (isDots frontSteps lastName?)

variable {t : FileTree} {steps rest : List String} {s : String}

/-- What is left behind a link comes behind the name that the link stands at. -/
theorem exists_eq_append_of_link {here directory : Place} {target : String}
    (h : t.advance here steps = .link directory target rest) :
    ∃ front name, steps = front ++ name :: rest ∧ isDots name = false := by
  fun_induction advance t here steps with
  | case1 | case2 | case3 | case6 | case7 => exact absurd h (by simp)
  | case4 _ _ _ _ ih =>
    obtain ⟨front, name, rfl, hname⟩ := ih h
    exact ⟨"." :: front, name, rfl, hname⟩
  | case5 _ _ _ _ _ ih =>
    obtain ⟨front, name, rfl, hname⟩ := ih h
    exact ⟨".." :: front, name, rfl, hname⟩
  | case8 _ name _ _ _ hhere hup =>
    obtain ⟨-, -, rfl⟩ := Advance.link.inj h
    exact ⟨[], name, rfl, by simp [isDots, hhere, hup]⟩
  | case9 _ first _ _ _ _ _ _ _ _ _ ih =>
    obtain ⟨front, name, rfl, hname⟩ := ih h
    exact ⟨first :: front, name, rfl, hname⟩

/-- The segments that are left behind a link still end in the dots. -/
theorem getLast?_of_link (hdots : isDots s = true) (hs : steps.getLast? = some s)
    {here directory : Place} {target : String}
    (h : t.advance here steps = .link directory target rest) :
    rest.getLast? = some s := by
  obtain ⟨front, name, rfl, hname⟩ := exists_eq_append_of_link h
  cases rest with
  | nil =>
    obtain rfl : name = s := by simpa using hs
    exact absurd (hname.symm.trans hdots) (by simp)
  | cons first others => simpa using hs

theorem name?_of_dots (hdots : isDots s = true) (hs : steps.getLast? = some s) {links : Nat}
    {here : Place} {slash : Bool} {e : PathEnd}
    (h : t.resolveFrom .entry links here steps slash = .ok e) : e.name? = none := by
  have hlast : ∀ {steps}, steps.getLast? = some s → lastName? steps = none := by
    intro steps hs
    simp [lastName?, hs, hdots]
  fun_induction resolveFrom t .entry links here steps slash with
  | case1 | case2 | case6 | case7 | case8 => exact absurd h (by simp)
  | case3 here steps _ _ _ _ hlink _ ih =>
    have hfront : frontSteps steps = steps := by simp [frontSteps, hs, hdots]
    rw [hfront] at hlink
    refine ih ?_ h
    rw [hlast hs, Option.toList_none, List.append_nil, List.getLast?_append,
      getLast?_of_link hdots hs hlink]
    rfl
  | case4 => exact Except.ok.inj h ▸ rfl
  | case5 _ _ _ _ _ _ _ hname => exact absurd ((hlast hs).symm.trans hname) (by simp)
  | case9 | case10 => exact absurd rfl ‹PathUse.entry ≠ .entry›

/-- A move to a path that ends in dots fails. -/
theorem rename_dots (hdots : isDots s = true) {source target : String}
    (hs : (Path.steps target).getLast? = some s) (u : FileTree) :
    t.rename source target ≠ .ok u := by
  intro h
  unfold rename at h
  split at h
  · obtain ⟨_, hthrow, -⟩ := bind_eq_ok.mp h
    exact throw_ne_ok hthrow
  · obtain ⟨a, -, h⟩ := bind_eq_ok.mp h
    obtain ⟨b, hb, h⟩ := bind_eq_ok.mp h
    obtain ⟨-, -, hb⟩ := bind_eq_ok.mp hb
    rw [name?_of_dots hdots hs hb] at h
    cases ha : a.name? with
    | none =>
      rw [ha] at h
      exact throw_ne_ok h
    | some name =>
      rw [ha] at h
      exact throw_ne_ok h

end GraphSchema.FileTree
