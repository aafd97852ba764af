import GraphSchema.Proofs.Merge.Documents
import Mathlib.Data.List.Nodup

/-!
# Unions of definitions

A union holds of every class, and of every root type, what the definitions that it is made of hold,
each once. Whether definitions are compatible hangs on what they hold, and not on its order or on
how often it is there. So a union stands for its definitions wherever these are merged further.
-/

namespace GraphSchema.Merge

section Lists

variable {α : Type} [DecidableEq α]

theorem eraseDups_filter (p : α → Bool) (l : List α) :
    (l.filter p).eraseDups = l.eraseDups.filter p := by
  cases l with
  | nil => rfl
  | cons a l =>
    have hrest := eraseDups_filter p (l.filter fun b => !b == a)
    rw [List.filter_filter] at hrest
    by_cases ha : p a = true
    · rw [List.filter_cons_of_pos ha, List.eraseDups_cons, List.eraseDups_cons,
        List.filter_cons_of_pos ha, ← hrest, List.filter_filter]
      simp only [Bool.and_comm]
    · rw [List.filter_cons_of_neg ha, List.eraseDups_cons, List.filter_cons_of_neg ha, ← hrest]
      congr 1
      apply List.filter_congr
      intro b _
      by_cases hb : b = a
      · simp [hb, ha]
      · simp [hb]
termination_by l.length
decreasing_by exact Nat.lt_succ_of_le (List.length_filter_le _ _)

theorem nodup_eraseDups (l : List α) : l.eraseDups.Nodup := by
  cases l with
  | nil => exact List.nodup_nil
  | cons a l =>
    rw [List.eraseDups_cons]
    apply List.nodup_cons.mpr
    exact ⟨by simp [List.mem_eraseDups], nodup_eraseDups _⟩
termination_by l.length
decreasing_by exact Nat.lt_succ_of_le (List.length_filter_le _ _)

theorem eraseDups_of_nodup {l : List α} (h : l.Nodup) : l.eraseDups = l := by
  induction l with
  | nil => rfl
  | cons a l ih =>
    obtain ⟨ha, hl⟩ := List.nodup_cons.mp h
    have hfilter : (l.filter fun b => !b == a) = l := by
      apply List.filter_eq_self.mpr
      intro b hb
      have hne : b ≠ a := fun heq => ha (heq ▸ hb)
      simpa using hne
    rw [List.eraseDups_cons, hfilter, ih hl]

/-- Items that are there already add nothing. -/
theorem eraseDups_append_of_subset {l m : List α} (h : m ⊆ l) :
    (l ++ m).eraseDups = l.eraseDups := by
  have hnone : m.removeAll l = [] := by
    rw [List.removeAll, List.filter_eq_nil_iff]
    intro a ha
    simpa using h ha
  rw [List.eraseDups_append, hnone, List.eraseDups_nil, List.append_nil]

theorem eraseDups_append_eraseDups (l m : List α) :
    (l.eraseDups ++ m.eraseDups).eraseDups = (l ++ m).eraseDups := by
  have hkeep : ∀ b ∈ m, (!l.eraseDups.elem b) = !l.elem b := by
    intro b _
    simp [List.mem_eraseDups]
  rw [List.eraseDups_append, List.eraseDups_append, eraseDups_of_nodup (nodup_eraseDups l)]
  congr 1
  rw [List.removeAll, List.removeAll, ← List.filter_congr hkeep, eraseDups_filter,
    eraseDups_filter, eraseDups_of_nodup (nodup_eraseDups m)]

theorem perm_eraseDups {l m : List α} (h : ∀ a, a ∈ l ↔ a ∈ m) :
    l.eraseDups.Perm m.eraseDups := by
  rw [List.perm_ext_iff_of_nodup (nodup_eraseDups l) (nodup_eraseDups m)]
  intro a
  rw [List.mem_eraseDups, List.mem_eraseDups, h a]

end Lists

section

variable {ds es : List Definition}

/-- What holds all that others hold is compatible only if they are. -/
theorem Compatible.mono (h : Compatible es) (hplain : ∀ c, plain c ds ⊆ plain c es)
    (hfields : ∀ k, contributed k ds ⊆ contributed k es) : Compatible ds where
  definitions c d hd e he := h.definitions c d (hplain c hd) e (hplain c he)
  fields k f hf g hg := h.fields k f (hfields k hf) g (hfields k hg)
  rootNames k d hd hn := by
    have hnone := h.rootNames k d (hplain _ hd) hn
    exact List.eq_nil_of_subset_nil (hnone ▸ hfields k)

theorem compatible_congr (hplain : ∀ c d, d ∈ plain c ds ↔ d ∈ plain c es)
    (hfields : ∀ k f, f ∈ contributed k ds ↔ f ∈ contributed k es) :
    Compatible ds ↔ Compatible es :=
  ⟨fun h => h.mono (fun c d => (hplain c d).mpr) fun k f => (hfields k f).mpr,
    fun h => h.mono (fun c d => (hplain c d).mp) fun k f => (hfields k f).mp⟩

/-- A union hangs on the definitions of each class and the fields of each root type. -/
theorem union_congr (hplain : ∀ c, (plain c ds).eraseDups = (plain c es).eraseDups)
    (hfields : ∀ k, (contributed k ds).eraseDups = (contributed k es).eraseDups) :
    union ds = union es := by
  have hroots : (rootObject? · ds) = (rootObject? · es) := by
    funext k
    rw [rootObject?, rootObject?, hfields k]
  rw [union, union, hplain, hplain, hplain, hroots]

end

variable (ds : List Definition)

theorem rootKind?_rootObject {k : OperationKind} {d : Definition} (h : rootObject? k ds = some d) :
    d.rootKind? = some k := by
  unfold rootObject? at h
  split at h
  · exact absurd h (by simp)
  · obtain rfl := Option.some.inj h
    exact OperationKind.ofTypeName?_eq_some_iff.mpr rfl

theorem objectFields_rootObject (k : OperationKind) :
    (rootObject? k ds).toList.flatMap (fun d => d.objectFields?.getD []) =
      (contributed k ds).eraseDups := by
  cases h : (contributed k ds).eraseDups <;> simp [rootObject?, h, Definition.objectFields?]

/-- The root types of a kind. -/
def roots (k : OperationKind) (ds : List Definition) : List Definition :=
  ds.filter fun d => d.rootKind? = some k

theorem plain_plain (c c' : DefinitionClass) :
    plain c (plain c' ds).eraseDups = if c' = c then (plain c ds).eraseDups else [] := by
  have hmem : ∀ d ∈ (plain c' ds).eraseDups, d.rootKind? = none ∧ d.definitionClass = c' := by
    intro d hd
    simpa using (List.mem_filter.mp (List.mem_eraseDups.mp hd)).2
  split
  · next hc =>
    subst hc
    exact List.filter_eq_self.mpr fun d hd => by simpa using hmem d hd
  · next hc =>
    apply List.filter_eq_nil_iff.mpr
    intro d hd
    simpa [hmem d hd] using hc

theorem roots_plain (k : OperationKind) (c : DefinitionClass) :
    roots k (plain c ds).eraseDups = [] := by
  apply List.filter_eq_nil_iff.mpr
  intro d hd
  have hnone := (List.mem_filter.mp (List.mem_eraseDups.mp hd)).2
  simp_all

theorem roots_rootObjects (k : OperationKind) :
    roots k (OperationKind.all.filterMap (rootObject? · ds)) = (rootObject? k ds).toList := by
  have hroots : ∀ k', roots k (rootObject? k' ds).toList =
      if k' = k then (rootObject? k ds).toList else [] := by
    intro k'
    cases h : rootObject? k' ds with
    | none => split <;> simp_all [roots]
    | some d =>
      have hkind := rootKind?_rootObject ds h
      split
      · next hk =>
        subst hk
        simp [roots, h, hkind]
      · next hk => simp [roots, hkind, hk]
  have hsplit : OperationKind.all.filterMap (rootObject? · ds) = (rootObject? .query ds).toList ++
      ((rootObject? .mutation ds).toList ++ (rootObject? .subscription ds).toList) := by
    cases hq : rootObject? .query ds <;> cases hm : rootObject? .mutation ds <;>
      cases hs : rootObject? .subscription ds <;>
        simp [OperationKind.all, hq, hm, hs]
  rw [hsplit, roots, List.filter_append, List.filter_append]
  show roots k _ ++ (roots k _ ++ roots k _) = _
  rw [hroots, hroots, hroots]
  cases k <;> simp

/-- The root types of a union are those that are made of the fields. -/
theorem roots_union (k : OperationKind) :
    roots k (union ds).definitions = (rootObject? k ds).toList := by
  simp only [union, roots, List.filter_append]
  show roots k _ ++ roots k _ ++ roots k _ ++ roots k _ = _
  rw [roots_plain, roots_plain, roots_plain, roots_rootObjects]
  simp

theorem plain_rootObjects (c : DefinitionClass) :
    plain c (OperationKind.all.filterMap (rootObject? · ds)) = [] := by
  apply List.filter_eq_nil_iff.mpr
  intro d hd
  obtain ⟨k, -, hk⟩ := List.mem_filterMap.mp hd
  simp [rootKind?_rootObject ds hk]

/-- A union has each definition of a class once. -/
theorem plain_union (c : DefinitionClass) :
    plain c (union ds).definitions = (plain c ds).eraseDups := by
  simp only [union, plain_append, plain_plain, plain_rootObjects]
  cases c <;> simp

/-- A union has each field of a root type once. -/
theorem contributed_union (k : OperationKind) :
    contributed k (union ds).definitions = (contributed k ds).eraseDups := by
  show (roots k (union ds).definitions).flatMap _ = _
  rw [roots_union, objectFields_rootObject]

section

variable {ds : List Definition}

/-- Where a named type that is no root type has the name of one, there is none. -/
theorem rootObject?_of_named (hc : Compatible ds) {d : Definition} {k : OperationKind}
    (hd : d ∈ (union ds).definitions) (hname : d.name = k.typeName)
    (hclass : d.definitionClass = .namedType) (hkind : d.rootKind? = none) :
    rootObject? k ds = none := by
  have hplain : d ∈ plain .namedType (union ds).definitions :=
    mem_plain.mpr ⟨hd, hkind, hclass⟩
  rw [plain_union, List.mem_eraseDups] at hplain
  rw [rootObject?, hc.rootNames k d hplain hname]
  rfl

theorem rootObject?_of_mem {d : Definition} {k : OperationKind}
    (hd : d ∈ (union ds).definitions) (hkind : d.rootKind? = some k) :
    rootObject? k ds = some d := by
  have hmem : d ∈ roots k (union ds).definitions := List.mem_filter.mpr ⟨hd, by simpa using hkind⟩
  rw [roots_union] at hmem
  simpa using hmem

/-- A named type of a union is a root type if another one with its name is. -/
theorem Compatible.rootKind?_of_name (hc : Compatible ds) {d e : Definition} {k : OperationKind}
    (hd : d ∈ (union ds).definitions) (he : e ∈ (union ds).definitions)
    (hkind : e.rootKind? = some k) (hname : d.name = e.name)
    (hclass : d.definitionClass = .namedType) : d.rootKind? = some k := by
  have hroot := (Definition.rootKind?_eq_some_iff.mp hkind).2
  cases hother : d.rootKind? with
  | none =>
    have hnone := rootObject?_of_named hc hd (hname.trans hroot) hclass hother
    rw [rootObject?_of_mem he hkind] at hnone
    exact absurd hnone (by simp)
  | some k' =>
    have hk' := (Definition.rootKind?_eq_some_iff.mp hother).2
    have hsame := OperationKind.ofTypeName?_eq_some_iff.mpr (hname.trans hroot)
    rw [OperationKind.ofTypeName?_eq_some_iff.mpr hk'] at hsame
    exact hsame

/-- Within a class a union has one definition of a name, the root types among them. -/
theorem Compatible.eq_of_name (hc : Compatible ds) {d e : Definition}
    (hd : d ∈ (union ds).definitions) (he : e ∈ (union ds).definitions)
    (hclass : d.definitionClass = e.definitionClass) (hname : d.name = e.name) : d = e := by
  cases hkind : e.rootKind? with
  | some k =>
    have hnamed := Definition.definitionClass_of_objectFields?
      (Definition.rootKind?_eq_some_iff.mp hkind).1
    have hother := hc.rootKind?_of_name hd he hkind hname (hclass.trans hnamed)
    exact Option.some.inj ((rootObject?_of_mem hd hother).symm.trans (rootObject?_of_mem he hkind))
  | none =>
    cases hother : d.rootKind? with
    | some k =>
      have hnamed := Definition.definitionClass_of_objectFields?
        (Definition.rootKind?_eq_some_iff.mp hother).1
      have hsame := hc.rootKind?_of_name he hd hother hname.symm (hclass.symm.trans hnamed)
      rw [hkind] at hsame
      exact absurd hsame (by simp)
    | none =>
      have hplain : ∀ x ∈ (union ds).definitions, x.rootKind? = none →
          x ∈ plain x.definitionClass ds := by
        intro x hx hx'
        rw [← List.mem_eraseDups, ← plain_union]
        exact mem_plain.mpr ⟨hx, hx', rfl⟩
      exact hc.definitions _ d (hplain d hd hother) e (hclass ▸ hplain e he hkind) hname

theorem nodup_union (ds : List Definition) : (union ds).definitions.Nodup := by
  have hplain : ∀ c, ∀ d ∈ (plain c ds).eraseDups, d.rootKind? = none ∧ d.definitionClass = c :=
    fun c d hd => (mem_plain.mp (List.mem_eraseDups.mp hd)).2
  have hroots : ∀ d ∈ OperationKind.all.filterMap (rootObject? · ds), d.rootKind? ≠ none := by
    intro d hd
    obtain ⟨k, -, hk⟩ := List.mem_filterMap.mp hd
    simp [rootKind?_rootObject ds hk]
  have hclasses : ∀ c c', c ≠ c' →
      (plain c ds).eraseDups.Disjoint (plain c' ds).eraseDups := fun c c' hne d hd hd' =>
    hne ((hplain c d hd).2.symm.trans (hplain c' d hd').2)
  have hapart : ∀ c, (plain c ds).eraseDups.Disjoint
      (OperationKind.all.filterMap (rootObject? · ds)) := fun c d hd hd' =>
    hroots d hd' (hplain c d hd).1
  have hnodup : (OperationKind.all.filterMap (rootObject? · ds)).Nodup := by
    refine List.Nodup.filterMap (fun k k' d hk hk' => ?_) (by decide)
    have hkind := rootKind?_rootObject ds hk
    rw [rootKind?_rootObject ds hk'] at hkind
    exact (Option.some.inj hkind).symm
  refine List.Nodup.append (List.Nodup.append (List.Nodup.append (nodup_eraseDups _)
    (nodup_eraseDups _) ?_) (nodup_eraseDups _) ?_) hnodup ?_
  · exact hclasses _ _ (by decide)
  · exact List.disjoint_append_left.mpr
      ⟨hclasses _ _ (by decide), hclasses _ _ (by decide)⟩
  · exact List.disjoint_append_left.mpr
      ⟨List.disjoint_append_left.mpr ⟨hapart _, hapart _⟩, hapart _⟩

/-- Definitions of a union that are all of one class have different names. -/
theorem Compatible.nodup_names (hc : Compatible ds) {p : Definition → Bool} {c : DefinitionClass}
    (hp : ∀ d, p d = true → d.definitionClass = c) :
    (((union ds).definitions.filter p).map (·.name)).Nodup := by
  refine List.Nodup.map_on (fun d hd e he hname => ?_) ((nodup_union ds).filter p)
  obtain ⟨hd, hpd⟩ := List.mem_filter.mp hd
  obtain ⟨he, hpe⟩ := List.mem_filter.mp he
  exact hc.eq_of_name hd he ((hp d hpd).trans (hp e hpe).symm) hname

/-- A root type of a union declares no field twice. -/
theorem Compatible.nodup_fields (hc : Compatible ds) {d : Definition} {k : OperationKind}
    (hd : d ∈ (union ds).definitions) (hkind : d.rootKind? = some k) :
    ((d.outputFields?.getD []).map (·.name)).Nodup := by
  have hroot := rootObject?_of_mem hd hkind
  have hfields : d.outputFields?.getD [] = (contributed k ds).eraseDups := by
    unfold rootObject? at hroot
    split at hroot
    · exact absurd hroot (by simp)
    · obtain rfl := Option.some.inj hroot
      rfl
  rw [hfields]
  refine List.Nodup.map_on (fun f hf g hg hname => ?_) (nodup_eraseDups _)
  exact hc.fields k f (List.mem_eraseDups.mp hf) g (List.mem_eraseDups.mp hg) hname

end

/-- Only compatible documents are merged, and to their union. -/
theorem union_of_ofDocuments {documents : List (String × Document)} {m : Document}
    (h : ofDocuments documents = .ok m) :
    documents ≠ [] ∧ Compatible (allDefinitions documents) ∧
      m = union (allDefinitions documents) := by
  obtain ⟨hne, hc⟩ := compatible_of_ofDocuments h
  rw [ofDocuments_of_compatible hne hc] at h
  exact ⟨hne, hc, (Except.ok.inj h).symm⟩

end GraphSchema.Merge
