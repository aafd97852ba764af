import GraphSchema.Files.Operations
import GraphSchema.Proofs.Path
import GraphSchema.Proofs.Run

/-!
# Paths and places

A path that goes on from a directory by a name of an entry ends at that entry, however the directory
is reached. What the entry leads to is then the same on every path that can be followed at all: only
the limits on the length of a path and on its links tell such paths apart.
-/

namespace GraphSchema

namespace Path

/-- A name that a file system takes. -/
structure IsFileName (name : String) : Prop extends IsEntryName name where
  fits : isTooLong name = false
  zeroFree : hasZero name = false

variable {name : String}

instance : Decidable (IsFileName name) :=
  decidable_of_iff (name.toList ≠ [] ∧ '/' ∉ name.toList ∧ isDots name = false ∧
    isTooLong name = false ∧ hasZero name = false)
    ⟨fun ⟨hne, hsingle, hdots, hfits, hzero⟩ => ⟨⟨hne, hsingle, hdots⟩, hfits, hzero⟩,
      fun h => ⟨h.nonempty, h.single, h.ordinary, h.fits, h.zeroFree⟩⟩

theorem steps_join (base : String) (h : IsEntryName name) :
    steps (join base name) = steps base ++ [name] := by
  have hkept : (segments name.toList).filter (!·.isEmpty) = [name.toList] := by
    rw [segments_of_notMem h.single]
    simp [h.nonempty]
  have hsegments : (segments (join base name).toList).filter (!·.isEmpty) =
      (segments base.toList).filter (!·.isEmpty) ++ [name.toList] := by
    rw [toList_join base h.single]
    rcases lead_cases base with ⟨hb, hl⟩ | ⟨hb, hl⟩ | ⟨cs, -, hl, hb⟩
    · rw [hl, hb, List.nil_append, hkept]
      rfl
    · rw [hl, hb, ← List.nil_append ['/'], List.append_assoc, List.singleton_append,
        segments_append, List.filter_append, hkept]
      rfl
    · rw [hl, List.append_assoc, List.singleton_append, segments_append, List.filter_append, hkept]
      rcases hb with hb | hb
      · rw [hb]
      · have hslash := segments_append cs []
        rw [hb, hslash, List.filter_append]
        simp [segments]
  rw [steps, hsegments, List.map_append, List.map_singleton, String.ofList_toList]
  rfl

theorem endsInSlash_join (base : String) (h : IsEntryName name) :
    endsInSlash (join base name) = false := by
  obtain ⟨cs, c, hchars⟩ := (List.eq_nil_or_concat' name.toList).resolve_left h.nonempty
  have hc : c ≠ '/' := by
    rintro rfl
    exact h.single (by rw [hchars]; simp)
  rw [endsInSlash, toList_join base h.single, hchars, ← List.append_assoc, List.getLast?_concat]
  simpa using hc

theorem frontSteps_append (steps : List String) (h : isDots name = false) :
    frontSteps (steps ++ [name]) = steps := by
  simp [frontSteps, h]

theorem lastName?_append (steps : List String) (h : isDots name = false) :
    lastName? (steps ++ [name]) = some name := by
  simp [lastName?, h]

/-- A path's segments are those that are followed before its end, and the name there. -/
theorem frontSteps_append_lastName? (steps : List String) :
    frontSteps steps ++ (lastName? steps).toList = steps := by
  rcases List.eq_nil_or_concat' steps with rfl | ⟨front, s, rfl⟩
  · rfl
  · cases hdots : isDots s with
    | true => simp [frontSteps, lastName?, hdots]
    | false => rw [frontSteps_append _ hdots, lastName?_append _ hdots]; rfl

theorem isDots_of_lastName? {steps : List String} (h : lastName? steps = some name) :
    isDots name = false := by
  simpa using (Option.filter_eq_some_iff.mp h).2

theorem check_eq_ok_iff {path : String} : check path = .ok () ↔
    hasZero path = false ∧ path.isEmpty = false ∧ isOverlong path = false := by
  unfold check
  split
  · next h => simp [h, throw_ne_ok]
  · next h =>
    split
    · next h' => simp [h', throw_ne_ok]
    · next h' =>
      split
      · next h'' => simp [h'', throw_ne_ok]
      · next h'' => simp_all [pure, Except.pure]

end Path

/-- The way to a directory goes through directories. -/
theorem Node.exists_lookup_of_find? {entries inner : List (String × Node)} {d : String}
    {place : Place} (h : find? entries (d :: place) = some (.directory inner)) :
    ∃ below, entries.lookup d = some (.directory below) ∧
      find? below place = some (.directory inner) := by
  rw [find?] at h
  split at h
  · next below hlookup => exact ⟨below, hlookup, h⟩
  · next hother hlookup =>
    split at h
    · exact absurd (Option.some.inj h) (hother inner)
    · exact absurd h (by simp)
  · exact absurd h (by simp)

namespace FileTree

variable {t : FileTree}

theorem entries?_eq_some_iff {place : Place} {entries : List (String × Node)} :
    t.entries? place = some entries ↔ t.node? place = some (.directory entries) := by
  unfold entries?
  split
  · next h => simp [h]
  · next h =>
    refine ⟨fun habsurd => absurd habsurd (by simp), fun hnode => absurd hnode (h entries)⟩

theorem node?_concat {directory : Place} {entries : List (String × Node)}
    (h : t.entries? directory = some entries) (name : String) :
    t.node? (directory ++ [name]) = entries.lookup name := by
  have hfind : ∀ (place : Place) (top : List (String × Node)),
      Node.find? top place = some (.directory entries) →
        Node.find? top (place ++ [name]) = entries.lookup name := by
    intro place
    induction place with
    | nil =>
      intro top htop
      obtain rfl := Node.directory.inj (Option.some.inj htop)
      rw [List.nil_append, Node.find?]
      split
      · next hlookup => exact hlookup.symm
      · next hlookup => exact hlookup.symm
      · next hlookup => exact hlookup.symm
    | cons d rest ih =>
      intro top htop
      obtain ⟨below, hlookup, hbelow⟩ := Node.exists_lookup_of_find? htop
      rw [List.cons_append, Node.find?, hlookup]
      exact ih below hbelow
  exact hfind directory t.entries (entries?_eq_some_iff.mp h)

theorem exists_entries?_of_arrived {here directory : Place} {steps : List String}
    (h : t.advance here steps = .arrived directory) : ∃ es, t.entries? directory = some es := by
  fun_induction advance t here steps with
  | case1 here es hes =>
    obtain rfl := Advance.arrived.inj h
    exact ⟨es, hes⟩
  | case2 | case3 | case6 | case7 | case8 => exact absurd h (by simp)
  | case4 _ _ _ _ ih => exact ih h
  | case5 _ _ _ _ _ ih => exact ih h
  | case9 _ _ _ _ _ _ _ _ _ _ _ ih => exact ih h

/-- What is left to follow behind a link, or from a directory on, is put behind what was left. -/
theorem advance_append (here : Place) (steps more : List String) :
    t.advance here (steps ++ more) = match t.advance here steps with
      | .arrived directory => t.advance directory more
      | .link directory target rest => .link directory target (rest ++ more)
      | .failed reason => .failed reason := by
  induction steps generalizing here with
  | nil =>
    cases hes : t.entries? here with
    | none => cases more <;> simp [advance, hes]
    | some es => simp [advance, hes]
  | cons s rest ih =>
    rw [List.cons_append, advance, advance]
    cases t.entries? here with
    | none => rfl
    | some es =>
      dsimp only
      split
      · exact ih here
      · split
        · exact ih here.parent
        · split
          · rfl
          · cases es.lookup s with
            | none => rfl
            | some node =>
              cases node with
              | link target => rfl
              | file content time => exact ih _
              | directory inner => exact ih _

/-- A name is looked up in the directory that is arrived at. -/
theorem advance_name {directory : Place} {entries : List (String × Node)}
    (h : t.entries? directory = some entries) {name : String} (hdots : Path.isDots name = false)
    (hfits : Path.isTooLong name = false) :
    t.advance directory [name] = match entries.lookup name with
      | none => .failed .missing
      | some (.link target) => .link directory target []
      | some _ => t.advance (directory ++ [name]) [] := by
  have hnames : name ≠ "." ∧ name ≠ ".." := by simpa [Path.isDots] using hdots
  cases hlookup : entries.lookup name with
  | none => simp [advance, h, hnames, hfits, hlookup]
  | some node => cases node <;> simp [advance, h, hnames, hfits, hlookup]

/-- Segments as a whole lead on by the name at their end. -/
theorem advance_last {here directory : Place} {steps : List String} {name : String}
    (hadvance : t.advance here (Path.frontSteps steps) = .arrived directory)
    (hlast : Path.lastName? steps = some name) (hfits : Path.isTooLong name = false) :
    t.advance here steps = match t.node? (directory ++ [name]) with
      | none => .failed .missing
      | some (.link target) => .link directory target []
      | some _ => t.advance (directory ++ [name]) [] := by
  obtain ⟨entries, hentries⟩ := exists_entries?_of_arrived hadvance
  have hsteps := Path.frontSteps_append_lastName? steps
  rw [hlast, Option.toList_some] at hsteps
  conv_lhs => rw [← hsteps, advance_append, hadvance]
  rw [node?_concat hentries]
  exact advance_name hentries (Path.isDots_of_lastName? hlast) hfits

/-- A name alone is looked for where it is seen from. -/
theorem advance_frontSteps_singleton {directory : Place} {entries : List (String × Node)}
    (h : t.entries? directory = some entries) {name : String}
    (hdots : Path.isDots name = false) :
    t.advance directory (Path.frontSteps [name]) = .arrived directory := by
  rw [← List.nil_append [name], Path.frontSteps_append _ hdots, advance, h]

/-- The ways in which segments lead, through so many links at most, to where they end. -/
inductive Resolves (t : FileTree) : Nat → Place → List String → Bool → PathEnd → Prop
  /-- A link stands in the way. -/
  | through {links : Nat} {here directory : Place} {steps rest : List String} {slash : Bool}
      {target : String} {e : PathEnd}
      (hadvance : t.advance here (Path.frontSteps steps) = .link directory target rest)
      (hrest : Resolves t links (linkBase directory target)
        (Path.steps target ++ rest ++ (Path.lastName? steps).toList) slash e) :
      Resolves t (links + 1) here steps slash e
  | arrived {links : Nat} {here directory : Place} {steps : List String} {slash : Bool}
      (hadvance : t.advance here (Path.frontSteps steps) = .arrived directory)
      (hlast : Path.lastName? steps = none) :
      Resolves t links here steps slash ⟨directory, none, slash⟩
  /-- A link stands at the end. -/
  | followed {links : Nat} {here directory : Place} {steps : List String} {slash : Bool}
      {name target : String} {e : PathEnd}
      (hadvance : t.advance here (Path.frontSteps steps) = .arrived directory)
      (hlast : Path.lastName? steps = some name) (hfits : Path.isTooLong name = false)
      (hlink : t.node? (directory ++ [name]) = some (.link target))
      (hrest : Resolves t links (linkBase directory target) (Path.steps target)
        (slash || Path.endsInSlash target) e) :
      Resolves t (links + 1) here steps slash e
  | found {links : Nat} {here directory : Place} {steps : List String} {slash : Bool}
      {name : String}
      (hadvance : t.advance here (Path.frontSteps steps) = .arrived directory)
      (hlast : Path.lastName? steps = some name) (hfits : Path.isTooLong name = false)
      (hnode : ∀ target, t.node? (directory ++ [name]) ≠ some (.link target)) :
      Resolves t links here steps slash ⟨directory, some name, slash⟩

section

variable {links : Nat} {here directory : Place} {steps : List String} {slash : Bool} {e : PathEnd}
  {name : String}

/-- Whatever the use, a path is followed in one way to where it ends. Only an entry that a call is
about may be a link there, or have a name that is too long. -/
theorem resolves_of_resolveFrom {use : PathUse}
    (h : t.resolveFrom use links here steps slash = .ok e)
    (hentry : use = .entry → e.name?.any Path.isTooLong = false ∧
      ∀ target, t.node? e.place ≠ some (.link target)) :
    t.Resolves links here steps slash e ∧ (use = .entry → e.slash = slash) ∧
      (use = .file → e.name? ≠ none → e.slash = false) := by
  fun_induction resolveFrom t use links here steps slash with
  | case1 | case2 | case6 | case7 | case8 => exact absurd h (by simp)
  | case3 _ _ _ _ _ _ hadvance _ ih =>
    obtain ⟨hrest, hslash⟩ := ih h
    exact ⟨.through hadvance hrest, hslash⟩
  | case4 _ _ _ _ _ hadvance hlast =>
    obtain rfl := Except.ok.inj h
    exact ⟨.arrived hadvance hlast, fun _ => rfl, fun _ hname => absurd rfl hname⟩
  | case5 _ _ _ _ _ hadvance _ hlast huse =>
    obtain rfl := Except.ok.inj h
    obtain ⟨hfits, hlink⟩ := hentry huse
    exact ⟨.found hadvance hlast (by simpa using hfits) hlink, fun _ => rfl,
      fun hfile => absurd (huse.symm.trans hfile) (by simp)⟩
  | case9 _ _ _ _ hadvance _ hlast huse _ hfits _ hlink _ ih =>
    obtain ⟨hrest, -, hslash⟩ := ih h
    exact ⟨.followed hadvance hlast (by simpa using hfits) hlink hrest,
      fun habsurd => absurd habsurd huse, hslash⟩
  | case10 _ _ slash _ _ hadvance _ hlast huse hslash hfits hnode =>
    obtain rfl := Except.ok.inj h
    refine ⟨.found hadvance hlast (by simpa using hfits) hnode,
      fun habsurd => absurd habsurd huse, fun hfile _ => ?_⟩
    exact Bool.eq_false_iff.mpr fun habsurd => hslash ⟨hfile, habsurd⟩

theorem Resolves.resolveFrom_eq (h : t.Resolves links here steps slash e) :
    t.resolveFrom .target links here steps slash = .ok e := by
  induction h with
  | through hadvance _ ih =>
    rw [resolveFrom, hadvance]
    exact ih
  | arrived hadvance hlast => rw [resolveFrom, hadvance, hlast]
  | followed hadvance hlast hfits hlink _ ih =>
    rw [resolveFrom, hadvance, hlast]
    dsimp only
    rw [if_neg (by simp), if_neg (by simp), if_neg (by simpa using hfits), hlink]
    exact ih
  | found hadvance hlast hfits hnode =>
    rw [resolveFrom, hadvance, hlast]
    dsimp only
    rw [if_neg (by simp), if_neg (by simp), if_neg (by simpa using hfits)]
    split
    · next hlink => exact absurd hlink (hnode _)
    · rfl

/-- What is reached is reached when more links are allowed. -/
theorem Resolves.mono {more : Nat} (h : t.Resolves links here steps slash e)
    (hmore : links ≤ more) : t.Resolves more here steps slash e := by
  induction h generalizing more with
  | through hadvance _ ih =>
    obtain ⟨more, rfl⟩ := Nat.exists_eq_add_one.mpr (Nat.zero_lt_of_lt hmore)
    exact .through hadvance (ih (Nat.le_of_succ_le_succ hmore))
  | arrived hadvance hlast => exact .arrived hadvance hlast
  | followed hadvance hlast hfits hlink _ ih =>
    obtain ⟨more, rfl⟩ := Nat.exists_eq_add_one.mpr (Nat.zero_lt_of_lt hmore)
    exact .followed hadvance hlast hfits hlink (ih (Nat.le_of_succ_le_succ hmore))
  | found hadvance hlast hfits hnode => exact .found hadvance hlast hfits hnode

/-- Where segments lead does not depend on the number of links that are allowed. -/
theorem Resolves.eq {more : Nat} {other : PathEnd} (h : t.Resolves links here steps slash e)
    (hother : t.Resolves more here steps slash other) : e = other := by
  have hleft := (h.mono (Nat.le_max_left links more)).resolveFrom_eq
  have hright := (hother.mono (Nat.le_max_right links more)).resolveFrom_eq
  exact Except.ok.inj (hleft.symm.trans hright)

/-- Behind a directory a name alone is left to follow. -/
theorem resolveFrom_append_arrived (h : t.advance here steps = .arrived directory)
    (hdots : Path.isDots name = false) (use : PathUse) :
    t.resolveFrom use links here (steps ++ [name]) false =
      t.resolveFrom use links directory [name] false := by
  obtain ⟨entries, hentries⟩ := exists_entries?_of_arrived h
  have hdirectory := advance_frontSteps_singleton hentries hdots
  have hlast : Path.lastName? [name] = some name := Path.lastName?_append [] hdots
  rw [resolveFrom, Path.frontSteps_append _ hdots, Path.lastName?_append _ hdots, h]
  conv_rhs => rw [resolveFrom, hdirectory, hlast]

theorem resolveFrom_append_link {target : String} {rest : List String}
    (h : t.advance here steps = .link directory target rest)
    (hdots : Path.isDots name = false) (use : PathUse) :
    t.resolveFrom use (links + 1) here (steps ++ [name]) false =
      t.resolveFrom use links (linkBase directory target) (Path.steps target ++ rest ++ [name])
        false := by
  rw [resolveFrom, Path.frontSteps_append _ hdots, Path.lastName?_append _ hdots, h]
  rfl

/-- A name behind segments that lead to a directory is looked for in the directory. -/
theorem Resolves.append (h : t.Resolves links here steps slash e)
    {entries : List (String × Node)} (hentries : t.entries? e.place = some entries)
    (hdots : Path.isDots name = false) :
    ∃ left, ∀ use, t.resolveFrom use links here (steps ++ [name]) false =
      t.resolveFrom use left e.place [name] false := by
  induction h with
  | @through links here directory steps rest slash target e hadvance _ ih =>
    obtain ⟨left, hleft⟩ := ih hentries
    have hlink : t.advance here steps =
        .link directory target (rest ++ (Path.lastName? steps).toList) := by
      conv_lhs => rw [← Path.frontSteps_append_lastName? steps, advance_append, hadvance]
    refine ⟨left, fun use => ?_⟩
    rw [resolveFrom_append_link hlink hdots, ← hleft use]
    simp only [List.append_assoc]
  | @arrived links here directory steps slash hadvance hlast =>
    have harrived : t.advance here steps = .arrived directory := by
      have hsteps := Path.frontSteps_append_lastName? steps
      rw [hlast, Option.toList_none, List.append_nil] at hsteps
      rw [← hadvance, hsteps]
    refine ⟨links, fun use => ?_⟩
    rw [resolveFrom_append_arrived harrived hdots, PathEnd.place, Option.toList_none,
      List.append_nil]
  | @followed links here directory steps slash last target e hadvance hlast hfits hlink _ ih =>
    obtain ⟨left, hleft⟩ := ih hentries
    have hall : t.advance here steps = .link directory target [] := by
      rw [advance_last hadvance hlast hfits, hlink]
    refine ⟨left, fun use => ?_⟩
    rw [resolveFrom_append_link hall hdots, List.append_nil]
    exact hleft use
  | @found links here directory steps slash last hadvance hlast hfits hnode =>
    have hplace : PathEnd.place ⟨directory, some last, slash⟩ = directory ++ [last] := rfl
    rw [hplace] at hentries ⊢
    have harrived : t.advance here steps = .arrived (directory ++ [last]) := by
      rw [advance_last hadvance hlast hfits, entries?_eq_some_iff.mp hentries]
      dsimp only
      rw [advance, hentries]
    exact ⟨links, fun use => resolveFrom_append_arrived harrived hdots use⟩

/-- A path that is followed for itself ends where it does when a link at its end is followed, or at
such a link. -/
theorem Resolves.entry (h : t.Resolves links here steps slash e) :
    (t.resolveFrom .entry links here steps slash = .ok e ∧ e.name?.any Path.isTooLong = false) ∨
      ∃ directory name target, t.resolveFrom .entry links here steps slash =
        .ok ⟨directory, some name, slash⟩ ∧ Path.isTooLong name = false ∧
          t.node? (directory ++ [name]) = some (.link target) := by
  induction h with
  | through hadvance _ ih =>
    rw [resolveFrom, hadvance]
    exact ih
  | arrived hadvance hlast =>
    rw [resolveFrom, hadvance, hlast]
    exact .inl ⟨rfl, rfl⟩
  | followed hadvance hlast hfits hlink _ _ =>
    rw [resolveFrom, hadvance, hlast]
    exact .inr ⟨_, _, _, rfl, hfits, hlink⟩
  | found hadvance hlast hfits =>
    rw [resolveFrom, hadvance, hlast]
    exact .inl ⟨rfl, by simpa using hfits⟩

end

/-! ## Paths -/

section

variable {path other name : String} {directory place target : Place} {entries : List (String × Node)}

theorem locate_eq_ok_iff : t.locate path = .ok place ↔
    ∃ e, t.resolve .target path = .ok e ∧ e.place = place ∧ ∃ node, t.node? place = some node ∧
      (e.slash = true → ∃ entries, node = .directory entries) := by
  unfold locate
  rw [bind_eq_ok]
  refine exists_congr fun e => and_congr_right fun _ => ?_
  cases hnode : t.node? e.place with
  | none =>
    refine ⟨fun h => absurd h throw_ne_ok, ?_⟩
    rintro ⟨rfl, node, hplace, -⟩
    exact absurd (hnode.symm.trans hplace) (by simp)
  | some node =>
    have hat : e.place = place → ∀ other, t.node? place = some other → node = other := by
      rintro rfl other hother
      exact Option.some.inj (hnode.symm.trans hother)
    cases node with
    | directory entries =>
      refine ⟨fun h => ?_, fun h => congrArg Except.ok h.1⟩
      obtain rfl := Except.ok.inj h
      exact ⟨rfl, _, hnode, fun _ => ⟨entries, rfl⟩⟩
    | _ =>
      dsimp only
      split
      · next hslash =>
        refine ⟨fun h => absurd h throw_ne_ok, ?_⟩
        rintro ⟨hplace, other, hother, hdirectory⟩
        obtain ⟨entries, rfl⟩ := hdirectory hslash
        exact absurd (hat hplace _ hother) (by simp)
      · next hslash =>
        refine ⟨fun h => ?_, fun h => congrArg Except.ok h.1⟩
        obtain rfl := Except.ok.inj h
        exact ⟨rfl, _, hnode, fun habsurd => absurd habsurd hslash⟩

theorem check_of_locate (h : t.locate path = .ok place) : Path.check path = .ok () := by
  obtain ⟨e, he, -⟩ := locate_eq_ok_iff.mp h
  obtain ⟨u, hcheck, -⟩ := bind_eq_ok.mp he
  exact hcheck

theorem check_of_standing (h : t.standing path = .ok place) : Path.check path = .ok () := by
  rw [standing] at h
  split at h
  · exact check_of_locate h
  · obtain ⟨e, he, -⟩ := bind_eq_ok.mp h
    obtain ⟨u, hcheck, -⟩ := bind_eq_ok.mp he
    exact hcheck

theorem resolves_of_locate (h : t.locate path = .ok place) : ∃ e, e.place = place ∧
    t.Resolves linkLimit [] (Path.steps path) (Path.endsInSlash path) e := by
  obtain ⟨e, he, hplace, -⟩ := locate_eq_ok_iff.mp h
  obtain ⟨u, -, hresolve⟩ := bind_eq_ok.mp he
  exact ⟨e, hplace, (resolves_of_resolveFrom hresolve nofun).1⟩

theorem hasZero_join (hpath : Path.hasZero path = false) (hname : Path.IsFileName name) :
    Path.hasZero (Path.join path name) = false := by
  have hzero := hname.zeroFree
  unfold Path.hasZero at hpath hzero ⊢
  rw [Path.toList_join path hname.single]
  unfold Path.lead
  split <;> simp_all

/-- The path of an entry is followed from the directory on, wherever the path of this came from. -/
theorem resolve_join (h : t.locate path = .ok directory)
    (hentries : t.entries? directory = some entries) (hname : Path.IsFileName name)
    (hfits : Path.isOverlong (Path.join path name) = false) :
    ∃ left, ∀ use, t.resolve use (Path.join path name) =
      t.resolveFrom use left directory [name] false := by
  obtain ⟨e, rfl, he⟩ := resolves_of_locate h
  obtain ⟨left, hleft⟩ := he.append hentries hname.ordinary
  have hcheck : Path.check (Path.join path name) = .ok () := by
    have hzero := hasZero_join (Path.check_eq_ok_iff.mp (check_of_locate h)).1 hname
    refine Path.check_eq_ok_iff.mpr ⟨hzero, ?_, hfits⟩
    rw [← Bool.not_eq_true, String.isEmpty_iff]
    intro hempty
    have hchars := Path.toList_join path hname.single
    rw [hempty] at hchars
    exact hname.nonempty (List.append_eq_nil_iff.mp hchars.symm).2
  refine ⟨left, fun use => ?_⟩
  rw [resolve, hcheck, Path.steps_join path hname.toIsEntryName,
    Path.endsInSlash_join path hname.toIsEntryName]
  exact hleft use

theorem resolveFrom_name (hentries : t.entries? directory = some entries)
    (hname : Path.IsFileName name) (left : Nat) :
    t.resolveFrom .entry left directory [name] false = .ok ⟨directory, some name, false⟩ ∧
      ((∀ target, entries.lookup name ≠ some (.link target)) →
        t.resolveFrom .target left directory [name] false = .ok ⟨directory, some name, false⟩) := by
  have harrived := advance_frontSteps_singleton hentries hname.ordinary
  have hlast : Path.lastName? [name] = some name := Path.lastName?_append [] hname.ordinary
  constructor
  · rw [resolveFrom, harrived, hlast]
    rfl
  · intro hlink
    refine (Resolves.found harrived hlast hname.fits fun target htarget => ?_).resolveFrom_eq
    exact hlink target ((node?_concat hentries name).symm.trans htarget)

/-- An entry stands at the path that goes on by its name. -/
theorem standing_join (h : t.locate path = .ok directory)
    (hentries : t.entries? directory = some entries) (hname : Path.IsFileName name)
    (hfits : Path.isOverlong (Path.join path name) = false) {node : Node}
    (hnode : entries.lookup name = some node) :
    t.standing (Path.join path name) = .ok (directory ++ [name]) := by
  obtain ⟨left, hleft⟩ := resolve_join h hentries hname hfits
  have hat : t.nodeAt ⟨directory, some name, false⟩ = .ok (some node) := by
    rw [nodeAt, if_neg (by simp [hname.fits])]
    exact congrArg Except.ok ((node?_concat hentries name).trans hnode)
  rw [standing, if_neg (by simp [Path.endsInSlash_join path hname.toIsEntryName])]
  refine bind_eq_ok.mpr ⟨_, (hleft .entry).trans (resolveFrom_name hentries hname left).1, ?_⟩
  exact bind_eq_ok.mpr ⟨_, hat, rfl⟩

/-- What is no link is where its path leads. -/
theorem locate_join (h : t.locate path = .ok directory)
    (hentries : t.entries? directory = some entries) (hname : Path.IsFileName name)
    (hfits : Path.isOverlong (Path.join path name) = false) {node : Node}
    (hnode : entries.lookup name = some node) (hlink : ∀ target, node ≠ .link target) :
    t.locate (Path.join path name) = .ok (directory ++ [name]) := by
  obtain ⟨left, hleft⟩ := resolve_join h hentries hname hfits
  have hresolve := (resolveFrom_name hentries hname left).2 fun target htarget =>
    hlink target (Option.some.inj (hnode.symm.trans htarget))
  have hplace := (node?_concat hentries name).trans hnode
  exact locate_eq_ok_iff.mpr
    ⟨_, (hleft .target).trans hresolve, rfl, node, hplace, fun h => absurd h (by simp)⟩

/-- An entry leads to the same place on every path on which it can be followed. -/
theorem locate_join_inj (h : t.locate path = .ok directory) (hother : t.locate other = .ok directory)
    (hentries : t.entries? directory = some entries) (hname : Path.IsFileName name)
    (hplace : t.locate (Path.join path name) = .ok place)
    (htarget : t.locate (Path.join other name) = .ok target) : place = target := by
  have hends : ∀ {base : String} {place : Place}, t.locate base = .ok directory →
      t.locate (Path.join base name) = .ok place →
        ∃ left e, e.place = place ∧ t.Resolves left directory [name] false e := by
    intro base place hbase hjoin
    have hfits := (Path.check_eq_ok_iff.mp (check_of_locate hjoin)).2.2
    obtain ⟨left, hleft⟩ := resolve_join hbase hentries hname hfits
    obtain ⟨e, he, hplace, -⟩ := locate_eq_ok_iff.mp hjoin
    rw [hleft .target] at he
    exact ⟨left, e, hplace, (resolves_of_resolveFrom he nofun).1⟩
  obtain ⟨_, _, rfl, he⟩ := hends h hplace
  obtain ⟨_, _, rfl, hother⟩ := hends hother htarget
  exact congrArg PathEnd.place (he.eq hother)

/-- A path leads to the place that it stands at, if this is no link. -/
theorem locate_of_standing (h : t.standing path = .ok place)
    (hlink : ∀ target, t.node? place ≠ some (.link target)) : t.locate path = .ok place := by
  unfold standing at h
  split at h
  · exact h
  · next hslash =>
    obtain ⟨e, hresolve, h⟩ := bind_eq_ok.mp h
    obtain ⟨node?, hat, h⟩ := bind_eq_ok.mp h
    rw [nodeAt] at hat
    split at hat
    · exact absurd hat throw_ne_ok
    · next hfits =>
      obtain rfl := Except.ok.inj hat
      split at h
      · exact absurd h throw_ne_ok
      · next hnode =>
        obtain rfl := Except.ok.inj h
        obtain ⟨u, hcheck, hfrom⟩ := bind_eq_ok.mp hresolve
        obtain ⟨hends, hsame, -⟩ :=
          resolves_of_resolveFrom hfrom fun _ => ⟨by simpa using hfits, hlink⟩
        obtain ⟨node, hnode⟩ := Option.ne_none_iff_exists'.mp (by simpa using hnode)
        have htarget : t.resolve .target path = .ok e :=
          bind_eq_ok.mpr ⟨u, hcheck, hends.resolveFrom_eq⟩
        refine locate_eq_ok_iff.mpr ⟨e, htarget, rfl, node, hnode, fun habsurd => ?_⟩
        exact absurd ((hsame rfl).symm.trans habsurd) hslash

/-- A path that leads to a place stands at the place, or at a link. -/
theorem standing_of_locate (h : t.locate path = .ok place) :
    t.standing path = .ok place ∨ ∃ entry target, t.standing path = .ok entry ∧
      t.node? entry = some (.link target) := by
  unfold standing
  split
  · exact .inl h
  · obtain ⟨e, rfl, he⟩ := resolves_of_locate h
    obtain ⟨_, -, _, node, hnode, -⟩ := locate_eq_ok_iff.mp h
    have hresolve : ∀ e, t.resolveFrom .entry linkLimit [] (Path.steps path)
        (Path.endsInSlash path) = .ok e → t.resolve .entry path = .ok e :=
      fun e he => bind_eq_ok.mpr ⟨_, check_of_locate h, he⟩
    rcases he.entry with ⟨hentry, hfits⟩ | ⟨directory, name, target, hentry, hfits, hlink⟩
    · left
      have hat : t.nodeAt e = .ok (some node) := by
        rw [nodeAt, if_neg (by simp [hfits]), hnode]
        rfl
      exact bind_eq_ok.mpr ⟨e, hresolve _ hentry, bind_eq_ok.mpr ⟨_, hat, rfl⟩⟩
    · right
      have hat : t.nodeAt ⟨directory, some name, Path.endsInSlash path⟩ =
          .ok (some (.link target)) := by
        rw [nodeAt, if_neg (by simp [hfits])]
        exact congrArg Except.ok hlink
      refine ⟨_, target, bind_eq_ok.mpr ⟨_, hresolve _ hentry, ?_⟩, hlink⟩
      exact bind_eq_ok.mpr ⟨_, hat, rfl⟩

end

end FileTree

end GraphSchema
