import GraphSchema.Files.Resolve
import Mathlib.Data.List.Basic

/-!
# Joined paths

The path of an entry of a directory has the components of the directory, and then the name of the
entry. This holds however the path of the directory is spelled.
-/

namespace GraphSchema.Path

open Std

instance : TransCmp Component.compare :=
  inferInstanceAs (TransCmp (compareLex (compareOn Component.rank) (compareOn Component.text)))

instance : TransCmp Path.compare where
  eq_swap {a b} :=
    @OrientedCmp.eq_swap _ (List.compareLex Component.compare) _ (components a) (components b)
  isLE_trans {a b c} := @TransCmp.isLE_trans _ (List.compareLex Component.compare) _
    (components a) (components b) (components c)

theorem segments_ne_nil (cs : List Char) : segments cs ≠ [] := by
  cases cs with
  | nil => simp [segments]
  | cons c cs =>
    rw [segments]
    split
    · simp
    · split <;> simp

theorem segments_append (cs ds : List Char) :
    segments (cs ++ '/' :: ds) = segments cs ++ segments ds := by
  induction cs with
  | nil => rfl
  | cons c cs ih =>
    rw [List.cons_append, segments, ih, segments]
    split
    · rfl
    · obtain ⟨s, ss, hs⟩ := List.exists_cons_of_ne_nil (segments_ne_nil cs)
      rw [hs]
      rfl

theorem segments_of_notMem {cs : List Char} (h : '/' ∉ cs) : segments cs = [cs] := by
  induction cs with
  | nil => rfl
  | cons c cs ih =>
    rw [List.mem_cons, not_or] at h
    rw [segments, if_neg (Ne.symm h.1), ih h.2]

/-- The component that a path starts with for what stands at its front. -/
def start (cs : List Char) : List Component :=
  if cs.head? == some '/' then [.root]
  else if (segments cs).head? == some ['.'] then [.here]
  else []

theorem components_eq (path : String) :
    components path = start path.toList ++ (segments path.toList).filterMap component? := by
  unfold components start isAbsolute
  dsimp only
  split
  · rfl
  · split <;> rfl

theorem start_append {cs : List Char} (h : cs ≠ []) (ds : List Char) :
    start (cs ++ '/' :: ds) = start cs := by
  obtain ⟨c, cs, rfl⟩ := List.exists_cons_of_ne_nil h
  obtain ⟨s, ss, hs⟩ := List.exists_cons_of_ne_nil (segments_ne_nil (c :: cs))
  unfold start
  rw [segments_append, hs]
  rfl

theorem components_append {cs : List Char} (h : cs ≠ []) (ds : List Char) :
    components (String.ofList (cs ++ '/' :: ds)) =
      components (String.ofList cs) ++ (segments ds).filterMap component? := by
  simp only [components_eq, String.toList_ofList, start_append h, segments_append,
    List.filterMap_append, List.append_assoc]

/-- What is trimmed from the end of a path does not count. -/
theorem components_trimReversed (cs : List Char) :
    components (String.ofList (trimReversed cs).reverse) =
      components (String.ofList cs.reverse) := by
  induction cs using trimReversed.induct with
  | case1 => rfl
  | case2 r hr ih =>
    have hne : r.reverse ≠ [] := by
      intro h
      exact hr (List.reverse_eq_nil_iff.mp h)
    have hslash := components_append hne []
    rw [trimReversed, ih, List.reverse_cons, hslash]
    · exact (List.append_nil _).symm
    · exact hr
  | case3 r ih =>
    rw [trimReversed, ih, List.reverse_cons, List.reverse_cons, List.reverse_cons]
    rcases List.eq_nil_or_concat r.reverse with h | ⟨s, c, h⟩
    · rw [h]
      rfl
    · have hne : r.reverse ≠ [] := by simp [h]
      have hslash := components_append hne []
      have hdot := components_append hne ['.']
      rw [hslash, List.append_assoc]
      exact hdot.symm
  | case4 cs h1 h2 h3 => rw [trimReversed] <;> assumption

/-- The characters of a path in front of the name of an entry. -/
def lead (base : String) : List Char :=
  if base.isEmpty || base.toList.getLast? == some '/' then base.toList else base.toList ++ ['/']

/-- A text that names an entry of a directory. -/
structure IsEntryName (name : String) : Prop where
  nonempty : name.toList ≠ []
  single : '/' ∉ name.toList
  ordinary : isDots name = false

theorem IsEntryName.append_tmp {name : String} (h : IsEntryName name) :
    IsEntryName (name ++ ".tmp") where
  nonempty := by simp
  single := by simpa using h.single
  ordinary := by
    have hlong : ∀ short : String, short.length < 4 → name ++ ".tmp" ≠ short := by
      intro short hshort heq
      have hlength := congrArg String.length heq
      rw [String.length_append] at hlength
      have htmp : ".tmp".length = 4 := rfl
      omega
    simp [isDots, hlong "." (by decide), hlong ".." (by decide)]

theorem toList_join (base : String) {name : String} (h : '/' ∉ name.toList) :
    (join base name).toList = lead base ++ name.toList := by
  have hrelative : isAbsolute name = false := by
    unfold isAbsolute
    cases hname : name.toList with
    | nil => rfl
    | cons c cs =>
      rw [hname, List.mem_cons, not_or] at h
      simpa using Ne.symm h.1
  rw [join, hrelative, lead]
  split
  · rename_i habsurd
    exact absurd habsurd (by simp)
  · split <;> simp

/-- A path starts with nothing, with a slash, or with characters and a slash behind them. -/
theorem lead_cases (base : String) :
    (base.toList = [] ∧ lead base = []) ∨ (base.toList = ['/'] ∧ lead base = ['/']) ∨
      ∃ cs, cs ≠ [] ∧ lead base = cs ++ ['/'] ∧
        (base.toList = cs ∨ base.toList = cs ++ ['/']) := by
  unfold lead
  rcases List.eq_nil_or_concat base.toList with h | ⟨cs, c, h⟩
  · left
    have hempty : base = "" := String.toList_inj.mp (h.trans rfl)
    rw [hempty]
    exact ⟨rfl, rfl⟩
  · right
    have hempty : base.isEmpty = false := by
      cases hcase : base.isEmpty with
      | false => rfl
      | true =>
        rw [String.isEmpty_iff.mp hcase] at h
        exact absurd h (by simp)
    by_cases hc : c = '/'
    · subst hc
      rw [if_pos (by rw [h]; simp), h]
      by_cases hcs : cs = []
      · left
        rw [hcs]
        exact ⟨rfl, rfl⟩
      · right
        exact ⟨cs, hcs, by simp, .inr (by simp)⟩
    · right
      have hlast : ¬(base.isEmpty || base.toList.getLast? == some '/') = true := by
        rw [hempty, h]
        simpa using hc
      rw [if_neg hlast]
      exact ⟨base.toList, by simp [h], rfl, .inl rfl⟩

variable {name : String}

theorem component?_of_isEntryName (h : IsEntryName name) :
    component? name.toList = some (.name name) := by
  have hdots := h.ordinary
  have hdot : name.toList ≠ ['.'] := by
    intro heq
    rw [String.toList_inj.mp (heq.trans (show ['.'] = ".".toList from rfl))] at hdots
    exact absurd hdots (by decide)
  have hup : name.toList ≠ ['.', '.'] := by
    intro heq
    rw [String.toList_inj.mp (heq.trans (show ['.', '.'] = "..".toList from rfl))] at hdots
    exact absurd hdots (by decide)
  rw [component?, if_neg (by simp [h.nonempty, hdot]), if_neg hup, String.ofList_toList]

/-- The path of an entry ends in its name, wherever the entry stands. -/
theorem components_join (base : String) (h : IsEntryName name) :
    components (join base name) = components base ++ [.name name] := by
  have hname : (segments name.toList).filterMap component? = [.name name] := by
    rw [segments_of_notMem h.single, List.filterMap_cons, component?_of_isEntryName h]
    rfl
  have hjoin : join base name = String.ofList (lead base ++ name.toList) := by
    rw [← toList_join base h.single, String.ofList_toList]
  have hbase : components base = components (String.ofList base.toList) := by
    rw [String.ofList_toList]
  rw [hjoin, hbase]
  rcases lead_cases base with ⟨hb, hl⟩ | ⟨hb, hl⟩ | ⟨cs, hcs, hl, hb⟩
  · have hstart : start name.toList = [] := by
      have hordinary := component?_of_isEntryName h
      unfold start
      rw [segments_of_notMem h.single]
      split
      · next habsolute =>
        have hmem := List.mem_of_head? (by simpa using habsolute)
        exact absurd hmem h.single
      · split
        · next hhere =>
          have hdot : name.toList = ['.'] := by simpa using hhere
          rw [hdot] at hordinary
          exact absurd hordinary (by simp [component?])
        · rfl
    rw [hl, hb, components_eq, List.nil_append, String.toList_ofList, hstart, hname]
    rfl
  · rw [hl, hb, components_eq, String.toList_ofList]
    show [Component.root] ++ (segments ([] ++ '/' :: name.toList)).filterMap component? = _
    rw [segments_append, List.filterMap_append, hname]
    rfl
  · have hentry := components_append hcs name.toList
    rw [hl, List.append_assoc, List.singleton_append, hentry, hname]
    rcases hb with hb | hb
    · rw [hb]
    · have hslash := components_append hcs []
      rw [hb, hslash]
      exact congrArg (· ++ _) (List.append_nil _).symm

theorem fileName?_join (base : String) (h : IsEntryName name) :
    fileName? (join base name) = some name := by
  rw [fileName?, components_join base h, List.getLast?_concat]

/-- The path of an entry has the extension of its name. -/
theorem extension?_join (base : String) (h : IsEntryName name) :
    extension? (join base name) = extensionOfName? name := by
  rw [extension?, fileName?_join base h]
  rfl

theorem trimReversed_name (h : IsEntryName name) (cs : List Char) :
    trimReversed (name.toList.reverse ++ cs) = name.toList.reverse ++ cs := by
  have hdots := h.ordinary
  obtain ⟨c, r, hr⟩ := List.exists_cons_of_ne_nil
    (fun he => h.nonempty (List.reverse_eq_nil_iff.mp he))
  have hslash : '/' ∉ c :: r := by
    rw [← hr]
    simpa using h.single
  rw [hr, List.cons_append]
  unfold trimReversed
  split
  · exact absurd hslash (by simp_all)
  · exact absurd hslash (by simp_all)
  · next rest heq =>
    obtain ⟨rfl, htail⟩ := List.cons.inj heq
    -- A dot in front of a slash would be the whole name.
    cases r with
    | cons d r =>
      rw [List.cons_append] at htail
      exact absurd (by simp [(List.cons.inj htail).1]) hslash
    | nil =>
      have hdot : name = "." := by
        apply String.toList_inj.mp
        rw [← List.reverse_inj, hr]
        rfl
      rw [hdot] at hdots
      exact absurd hdots (by decide)
  · rfl

theorem dropWhile_name (h : IsEntryName name) (base : String) :
    (name.toList.reverse ++ (lead base).reverse).dropWhile (· != '/') = (lead base).reverse := by
  have hname : ∀ c ∈ name.toList.reverse, (c != '/') = true := by
    intro c hc
    have hne : c ≠ '/' := fun heq => h.single (heq ▸ List.mem_reverse.mp hc)
    simpa using hne
  rw [List.dropWhile_append_of_pos hname]
  rcases lead_cases base with ⟨-, hl⟩ | ⟨-, hl⟩ | ⟨cs, -, hl, -⟩
  · rw [hl]
    rfl
  · rw [hl]
    rfl
  · rw [hl, List.reverse_append]
    rfl

theorem trimReversed_lead (base : String) :
    trimReversed (lead base).reverse = trimReversed base.toList.reverse := by
  rcases lead_cases base with ⟨hb, hl⟩ | ⟨hb, hl⟩ | ⟨cs, hcs, hl, hb⟩
  · rw [hl, hb]
  · rw [hl, hb]
  · have hne : cs.reverse ≠ [] := fun he => hcs (List.reverse_eq_nil_iff.mp he)
    have hslash : trimReversed (lead base).reverse = trimReversed cs.reverse := by
      rw [hl, List.reverse_append, List.reverse_singleton, List.singleton_append, trimReversed]
      exact hne
    rcases hb with hb | hb
    · rw [hslash, hb]
    · rw [hl, hb]

theorem parent?_join (base : String) (h : IsEntryName name) :
    parent? (join base name) = some (String.ofList (trimReversed base.toList.reverse).reverse) := by
  have hne : name.toList.reverse ≠ [] := fun he => h.nonempty (List.reverse_eq_nil_iff.mp he)
  rw [parent?, toList_join base h.single, List.reverse_append, trimReversed_name h]
  split
  · next heq => exact absurd (List.append_eq_nil_iff.mp heq).1 hne
  · next heq =>
    obtain ⟨c, r, hr⟩ := List.exists_cons_of_ne_nil hne
    have hmem : '/' ∈ name.toList.reverse := by
      rw [hr, List.cons_append] at heq
      rw [hr, (List.cons.inj heq).1]
      simp
    exact absurd (List.mem_reverse.mp hmem) h.single
  · rw [dropWhile_name h, trimReversed_lead]

/-- Another name in place of the last one stands in the same directory. -/
theorem components_withFileName (base : String) (h : IsEntryName name) {other : String}
    (hother : IsEntryName other) :
    components (withFileName (join base name) other) = components base ++ [.name other] := by
  rw [withFileName, fileName?_join base h, parent?_join base h]
  show components (join (String.ofList _) other) = _
  rw [components_join _ hother, components_trimReversed, List.reverse_reverse,
    String.ofList_toList]

/-- The segments that are followed to an entry end in its name, dots included. -/
theorem getLast?_steps_join (base : String) (hne : name.toList ≠ []) (h : '/' ∉ name.toList) :
    (steps (join base name)).getLast? = some name := by
  have hsegments : ∃ before, segments (join base name).toList = before ++ [name.toList] := by
    rw [toList_join base h]
    rcases lead_cases base with ⟨-, hl⟩ | ⟨-, hl⟩ | ⟨cs, -, hl, -⟩
    · exact ⟨[], by rw [hl, List.nil_append, segments_of_notMem h, List.nil_append]⟩
    · exact ⟨segments [], by rw [← segments_of_notMem h, ← segments_append, hl]; rfl⟩
    · refine ⟨segments cs, ?_⟩
      rw [← segments_of_notMem h, ← segments_append, hl, List.append_assoc,
        List.singleton_append]
  obtain ⟨before, hbefore⟩ := hsegments
  have hkept : [name.toList].filter (!·.isEmpty) = [name.toList] := by simp [hne]
  rw [steps, hbefore, List.filter_append, hkept, List.map_append, List.map_singleton,
    List.getLast?_concat, String.ofList_toList]

theorem notMem_of_mem_segments {cs segment : List Char} (h : segment ∈ segments cs) :
    '/' ∉ segment := by
  induction cs generalizing segment with
  | nil =>
    rw [List.mem_singleton.mp h]
    exact List.not_mem_nil
  | cons c cs ih =>
    rw [segments] at h
    split at h
    · rcases List.mem_cons.mp h with rfl | h
      · exact List.not_mem_nil
      · exact ih h
    · next hc =>
      obtain ⟨s, ss, hs⟩ := List.exists_cons_of_ne_nil (segments_ne_nil cs)
      rw [hs] at h ih
      rcases List.mem_cons.mp h with rfl | h
      · rw [List.mem_cons, not_or]
        exact ⟨Ne.symm hc, ih List.mem_cons_self⟩
      · exact ih (List.mem_cons_of_mem s h)

/-- Whatever stands as a name in a path names an entry. -/
theorem isEntryName_of_mem_components {path : String} (h : .name name ∈ components path) :
    IsEntryName name := by
  rw [components_eq, List.mem_append] at h
  rcases h with h | h
  · unfold start at h
    split at h
    · exact absurd h (by simp)
    · split at h <;> exact absurd h (by simp)
  · obtain ⟨segment, hsegment, hname⟩ := List.mem_filterMap.mp h
    unfold component? at hname
    split at hname
    · exact absurd hname (by simp)
    · next hcounts =>
      split at hname
      · exact absurd hname (by simp)
      · next hup =>
        obtain rfl := Component.name.inj (Option.some.inj hname)
        rw [not_or] at hcounts
        constructor
        · rw [String.toList_ofList]
          exact hcounts.1
        · rw [String.toList_ofList]
          exact notMem_of_mem_segments hsegment
        · have hdot : String.ofList segment ≠ "." := fun heq => hcounts.2 (by
            rw [← String.toList_ofList (l := segment), heq]; rfl)
          have hdots : String.ofList segment ≠ ".." := fun heq => hup (by
            rw [← String.toList_ofList (l := segment), heq]; rfl)
          simp [isDots, hdot, hdots]

/-- With another name at its end a path is another path. -/
theorem components_withFileName_ne {path other : String} (hother : IsEntryName other)
    (hne : fileName? path ≠ some other) :
    components (withFileName path other) ≠ components path := by
  intro heq
  apply hne
  have hlast : ∀ base, components (join base other) = components path →
      fileName? path = some other := by
    intro base hbase
    rw [fileName?, ← hbase, components_join base hother, List.getLast?_concat]
  unfold withFileName at heq
  split at heq
  · exact hlast _ heq
  · exact hlast _ heq

end GraphSchema.Path
