import GraphSchema.Merge.State

/-!
# Compatible definitions

When definitions can be merged, and what they are merged to, said of all of them
together and without any order of work. Objects with the name of a root type are
not definitions of their own here: only their fields count.
-/

namespace GraphSchema.Merge

/-- The definitions of a class that are no root types. -/
def plain (c : DefinitionClass) (ds : List Definition) : List Definition :=
  ds.filter fun d => d.rootKind? = none ∧ d.definitionClass = c

/-- The fields that root types contribute to an operation kind. -/
def contributed (k : OperationKind) (ds : List Definition) : List Field :=
  (ds.filter fun d => d.rootKind? = some k).flatMap fun d => d.objectFields?.getD []

/-- No two of the definitions disagree. -/
structure Compatible (ds : List Definition) : Prop where
  /-- Within a class, a name is defined in one way only. -/
  definitions : ∀ c, ∀ d ∈ plain c ds, ∀ e ∈ plain c ds, d.name = e.name → d = e
  /-- Within a root type, a field is declared in one way only. -/
  fields : ∀ k, ∀ f ∈ contributed k ds, ∀ g ∈ contributed k ds, f.name = g.name → f = g
  /-- A root type that has a field has its name to itself. -/
  rootNames : ∀ k, ∀ d ∈ plain .namedType ds, d.name = k.typeName → contributed k ds = []

/-- The object that stands for a root type, if there is a field for it. -/
def rootObject? (k : OperationKind) (ds : List Definition) : Option Definition :=
  match (contributed k ds).eraseDups with
  | [] => none
  | fields => some ⟨k.typeName, none, [], .object [] fields⟩

/-- Compatible definitions in one document, each once and where it was first seen. -/
def union (ds : List Definition) : Document :=
  ⟨(plain .scalar ds).eraseDups ++ (plain .namedType ds).eraseDups ++
    (plain .inputObject ds).eraseDups ++ OperationKind.all.filterMap (rootObject? · ds)⟩

section

variable (ds es : List Definition) (d : Definition)

theorem mem_plain {ds : List Definition} {d : Definition} {c : DefinitionClass} :
    d ∈ plain c ds ↔ d ∈ ds ∧ d.rootKind? = none ∧ d.definitionClass = c := by
  simp [plain]

@[simp] theorem plain_append (c : DefinitionClass) :
    plain c (ds ++ es) = plain c ds ++ plain c es := List.filter_append ..

@[simp] theorem contributed_append (k : OperationKind) :
    contributed k (ds ++ es) = contributed k ds ++ contributed k es := by
  simp [contributed, List.filter_append]

theorem plain_of_rootKind {k : OperationKind} (h : d.rootKind? = some k) (c : DefinitionClass) :
    plain c [d] = [] := by
  simp [plain, h]

theorem plain_of_plain (h : d.rootKind? = none) (c : DefinitionClass) :
    plain c [d] = if d.definitionClass = c then [d] else [] := by
  by_cases hc : d.definitionClass = c <;> simp [plain, h, hc]

theorem contributed_of_rootKind {k : OperationKind} (h : d.rootKind? = some k)
    (other : OperationKind) :
    contributed other [d] = if k = other then d.objectFields?.getD [] else [] := by
  by_cases hk : k = other <;> simp [contributed, h, hk]

theorem contributed_of_plain (h : d.rootKind? = none) (k : OperationKind) :
    contributed k [d] = [] := by
  simp [contributed, h]

end

section

variable {ds es : List Definition} {d : Definition}

/-- What is compatible stays so when definitions are left out at the end. -/
theorem Compatible.of_append (h : Compatible (ds ++ es)) : Compatible ds where
  definitions c d hd e he := h.definitions c d (by simp [hd]) e (by simp [he])
  fields k f hf g hg := h.fields k f (by simp [hf]) g (by simp [hg])
  rootNames k d hd hn := by
    have := h.rootNames k d (by simp [hd]) hn
    simp_all

theorem compatible_nil : Compatible [] where
  definitions c d hd := by simp [plain] at hd
  fields k f hf := by simp [contributed] at hf
  rootNames k d hd := by simp [plain] at hd

/-- One more root type is compatible if its fields are, and it finds its name free unless it has
none. -/
theorem compatible_append_root {k : OperationKind} (hk : d.rootKind? = some k) :
    Compatible (ds ++ [d]) ↔ Compatible ds ∧
      (∀ f ∈ contributed k ds ++ d.objectFields?.getD [],
        ∀ g ∈ contributed k ds ++ d.objectFields?.getD [], f.name = g.name → f = g) ∧
      (d.objectFields?.getD [] ≠ [] → ∀ e ∈ plain .namedType ds, e.name ≠ k.typeName) := by
  have hplain : ∀ c, plain c (ds ++ [d]) = plain c ds := by
    intro c
    rw [plain_append, plain_of_rootKind d hk, List.append_nil]
  have hsame : contributed k (ds ++ [d]) = contributed k ds ++ d.objectFields?.getD [] := by
    rw [contributed_append, contributed_of_rootKind d hk, if_pos rfl]
  have hother : ∀ l, k ≠ l → contributed l (ds ++ [d]) = contributed l ds := by
    intro l hl
    rw [contributed_append, contributed_of_rootKind d hk, if_neg hl, List.append_nil]
  constructor
  · intro h
    refine ⟨h.of_append, hsame ▸ h.fields k, ?_⟩
    intro hne e he hn
    have := h.rootNames k e (hplain _ ▸ he) hn
    rw [hsame, List.append_eq_nil_iff] at this
    exact hne this.2
  · rintro ⟨h, hfields, hnames⟩
    refine ⟨fun c => hplain c ▸ h.definitions c, ?_, ?_⟩
    · intro l
      by_cases hl : k = l
      · subst hl
        rw [hsame]
        exact hfields
      · rw [hother l hl]
        exact h.fields l
    · intro l e he hn
      rw [hplain] at he
      by_cases hl : k = l
      · subst hl
        have hnone : d.objectFields?.getD [] = [] :=
          Decidable.byContradiction fun hne => hnames hne e he hn
        rw [hsame, h.rootNames k e he hn, hnone, List.append_nil]
      · rw [hother l hl]
        exact h.rootNames l e he hn

/-- One more definition that is no root type is compatible if it agrees with those of its class,
and does not take the name of a root type that has a field. -/
theorem compatible_append_plain (hk : d.rootKind? = none) :
    Compatible (ds ++ [d]) ↔ Compatible ds ∧
      (∀ e ∈ plain d.definitionClass ds, e.name = d.name → e = d) ∧
      (d.definitionClass = .namedType → ∀ k, d.name = k.typeName → contributed k ds = []) := by
  have hsame : plain d.definitionClass (ds ++ [d]) = plain d.definitionClass ds ++ [d] := by
    rw [plain_append, plain_of_plain d hk, if_pos rfl]
  have hother : ∀ c, d.definitionClass ≠ c → plain c (ds ++ [d]) = plain c ds := by
    intro c hc
    rw [plain_append, plain_of_plain d hk, if_neg hc, List.append_nil]
  have hfields : ∀ k, contributed k (ds ++ [d]) = contributed k ds := by
    intro k
    rw [contributed_append, contributed_of_plain d hk, List.append_nil]
  constructor
  · intro h
    refine ⟨h.of_append, ?_, ?_⟩
    · intro e he hn
      exact h.definitions d.definitionClass e (by simp [hsame, he]) d (by simp [hsame]) hn
    · intro hc k hn
      rw [← hfields]
      exact h.rootNames k d (by rw [← hc, hsame]; simp) hn
  · rintro ⟨h, hdefs, hnames⟩
    refine ⟨?_, fun k => hfields k ▸ h.fields k, ?_⟩
    · intro c
      by_cases hc : d.definitionClass = c
      · subst hc
        rw [hsame]
        intro x hx y hy hn
        simp only [List.mem_append, List.mem_singleton] at hx hy
        rcases hx with hx | rfl <;> rcases hy with hy | rfl
        · exact h.definitions _ x hx y hy hn
        · exact hdefs x hx hn
        · exact (hdefs y hy hn.symm).symm
        · rfl
      · rw [hother c hc]
        exact h.definitions c
    · intro k e he hn
      rw [hfields]
      by_cases hc : d.definitionClass = .namedType
      · rw [← hc, hsame, List.mem_append, List.mem_singleton] at he
        rcases he with he | rfl
        · exact h.rootNames k e (hc ▸ he) hn
        · exact hnames hc k hn
      · rw [hother _ hc] at he
        exact h.rootNames k e he hn

end

end GraphSchema.Merge
