import GraphSchema.Proofs.Requirement.Resolution

/-!
# Levels of a type

A reference has a level for every list and one for the name inside them all. Each level may have a
mark of its own, and a resolved type says of each level whether the mark was there. So nothing is
lost: with names left as they are, the marks can be put back.
-/

namespace GraphSchema

namespace TypeReference

/-- The number of list levels. -/
def depth : TypeReference → Nat
  | named _ => 0
  | list item => item.depth + 1
  | nonNull inner => inner.depth

/-- What stands inside so many lists, with the mark on it if it has one. -/
def level? : TypeReference → Nat → Option TypeReference
  | t, 0 => some t
  | named _, _ + 1 => none
  | list item, i + 1 => item.level? i
  | nonNull inner, i + 1 => inner.level? (i + 1)

@[simp] theorem level?_zero (t : TypeReference) : t.level? 0 = some t := by
  cases t <;> rfl

/-- A reference and all that it wraps. -/
def parts : TypeReference → List TypeReference
  | named name => [named name]
  | list item => list item :: item.parts
  | nonNull inner => nonNull inner :: inner.parts

/-- A mark stands on a mark, however deep, or the innermost name is empty. -/
def IsFaulty (t : TypeReference) : Prop := (∃ u, nonNull (nonNull u) ∈ t.parts) ∨ t.baseName = ""

theorem isFaulty_named {name : String} : (named name).IsFaulty ↔ name = "" := by
  simp [IsFaulty, parts, baseName]

theorem isFaulty_list {item : TypeReference} : (list item).IsFaulty ↔ item.IsFaulty := by
  simp [IsFaulty, parts, baseName]

theorem isFaulty_nonNull {inner : TypeReference} :
    (nonNull inner).IsFaulty ↔ inner.isNonNull = true ∨ inner.IsFaulty := by
  have hmark : (∃ u, nonNull (nonNull u) = nonNull inner) ↔ inner.isNonNull = true := by
    cases inner <;> simp [isNonNull]
  simp only [IsFaulty, parts, baseName, List.mem_cons, exists_or, hmark, or_assoc]

/-- What is at fault somewhere in a reference is all that keeps it from being resolved. -/
theorem isValid_iff {t : TypeReference} : t.IsValid ↔ ¬t.IsFaulty := by
  constructor
  · intro h
    induction h with
    | named hname => rwa [isFaulty_named]
    | list _ ih => rwa [isFaulty_list]
    | nonNull hbare _ ih => simp [isFaulty_nonNull, hbare, ih]
  · intro h
    induction t with
    | named name => exact .named (isFaulty_named.not.mp h)
    | list item ih => exact .list (ih (isFaulty_list.not.mp h))
    | nonNull inner ih =>
      rw [isFaulty_nonNull, not_or, Bool.not_eq_true] at h
      exact .nonNull h.1 (ih h.2)

end TypeReference

namespace ResolvedType

/-- What stands inside so many lists. -/
def level? : ResolvedType → Nat → Option ResolvedType
  | r, 0 => some r
  | named .., _ + 1 => none
  | list element _, i + 1 => element.level? i

/-- A reference with a mark, unless null is admitted. -/
def marked (nullable : Bool) (t : TypeReference) : TypeReference :=
  if nullable then t else .nonNull t

/-- The reference with a mark on each level that does not admit null. -/
def toReference : ResolvedType → TypeReference
  | named name nullable => marked nullable (.named name)
  | list element nullable => marked nullable (.list element.toReference)

section

variable (r : ResolvedType) (nullable : Bool)

@[simp] theorem isNullable_withNullable : (r.withNullable nullable).isNullable = nullable := by
  cases r <;> rfl

@[simp] theorem depth_withNullable : (r.withNullable nullable).depth = r.depth := by
  cases r <;> rfl

@[simp] theorem baseName_withNullable : (r.withNullable nullable).baseName = r.baseName := by
  cases r <;> rfl

@[simp] theorem level?_zero : r.level? 0 = some r := by
  cases r <;> rfl

@[simp] theorem level?_withNullable (i : Nat) :
    (r.withNullable nullable).level? (i + 1) = r.level? (i + 1) := by
  cases r <;> rfl

theorem toReference_withNullable (h : r.isNullable = true) :
    (r.withNullable nullable).toReference = marked nullable r.toReference := by
  cases r with
  | named name _ =>
    obtain rfl : _ = true := h
    rfl
  | list element _ =>
    obtain rfl : _ = true := h
    rfl

end

end ResolvedType

namespace TypeReference

section

variable {mapName : NameMap} {t : TypeReference} {r : ResolvedType}

/-- The ways in which a reference comes by its resolved type. -/
theorem resolve?_induction {motive : TypeReference → ResolvedType → Prop}
    (hnamed : ∀ name, motive (.named name) (.named (mapName name) true))
    (hlist : ∀ item element, motive item element → motive (.list item) (.list element true))
    (hnonNull : ∀ inner bare, inner.isNonNull = false → inner.resolve? mapName = some bare →
      motive inner bare → motive (.nonNull inner) (bare.withNullable false))
    (h : t.resolve? mapName = some r) : motive t r := by
  have hvalid := exists_resolve?_iff.mp ⟨r, h⟩
  induction hvalid generalizing r with
  | @named name hname =>
    have hresolved : (named name).resolve? mapName = some (.named (mapName name) true) := by
      simp [resolve?, hname]
    rw [← Option.some.inj (hresolved.symm.trans h)]
    exact hnamed name
  | list _ ih =>
    obtain ⟨element, helement, rfl⟩ := Option.map_eq_some_iff.mp h
    exact hlist _ element (ih helement)
  | nonNull hbare _ ih =>
    rw [resolve?_nonNull hbare] at h
    obtain ⟨bare, hresolved, rfl⟩ := Option.map_eq_some_iff.mp h
    exact hnonNull _ bare hbare hresolved (ih hresolved)

/-- Whether a reference is resolved does not depend on what names are mapped to. -/
theorem resolve?_eq_none_iff : t.resolve? mapName = none ↔ t.IsFaulty := by
  rw [← not_iff_not, ← isValid_iff, ← exists_resolve?_iff, ← Option.ne_none_iff_exists']

instance (t : TypeReference) : Decidable t.IsFaulty :=
  decidable_of_iff (t.resolve? id = none) resolve?_eq_none_iff

theorem depth_of_resolve? (h : t.resolve? mapName = some r) : r.depth = t.depth := by
  refine resolve?_induction (motive := fun t r => r.depth = t.depth) (fun _ => rfl) ?_ ?_ h
  · exact fun item element ih => congrArg (· + 1) ih
  · exact fun inner bare _ _ ih => (bare.depth_withNullable false).trans ih

theorem baseName_of_resolve? (h : t.resolve? mapName = some r) :
    r.baseName = mapName t.baseName := by
  refine resolve?_induction (motive := fun t r => r.baseName = mapName t.baseName)
    (fun _ => rfl) ?_ ?_ h
  · exact fun item element ih => ih
  · exact fun inner bare _ _ ih => (bare.baseName_withNullable false).trans ih

theorem isNullable_of_resolve? (h : t.resolve? mapName = some r) :
    r.isNullable = !t.isNonNull := by
  refine resolve?_induction (motive := fun t r => r.isNullable = !t.isNonNull)
    (fun _ => rfl) ?_ ?_ h
  · exact fun item element _ => rfl
  · exact fun inner bare _ _ _ => bare.isNullable_withNullable false

/-- The outermost level says what the mark on it says, and the levels inside are those of what is
wrapped. -/
theorem level?_of_resolve? (h : t.resolve? mapName = some r) (i : Nat) :
    (r.level? i).map (·.isNullable) = (t.level? i).map (!·.isNonNull) := by
  refine resolve?_induction (motive := fun t r => ∀ i,
    (r.level? i).map (·.isNullable) = (t.level? i).map (!·.isNonNull)) ?_ ?_ ?_ h i
  · rintro name (_ | i)
    · rfl
    · rfl
  · rintro item element ih (_ | i)
    · rfl
    · exact ih i
  · rintro inner bare hbare hresolved ih (_ | i)
    · rw [ResolvedType.level?_zero, level?_zero]
      exact congrArg some (bare.isNullable_withNullable false)
    · rw [bare.level?_withNullable false i]
      exact ih (i + 1)

theorem toReference_of_resolve? (h : t.resolve? id = some r) : r.toReference = t := by
  refine resolve?_induction (motive := fun t r => r.toReference = t) (fun _ => rfl) ?_ ?_ h
  · exact fun item element ih => congrArg list ih
  · intro inner bare hbare hresolved ih
    have hnullable : bare.isNullable = true := by rw [isNullable_of_resolve? hresolved, hbare]; rfl
    rw [bare.toReference_withNullable false hnullable, ih]
    rfl

end

end TypeReference

namespace Analyzer

variable {a : Analyzer} {place : String} {t : TypeReference}

theorem resolve_eq_ok_iff {r : ResolvedType} :
    a.resolve place t = .ok r ↔ t.resolve? a.mapName = some r := by
  rw [resolve]
  cases t.resolve? a.mapName with
  | none => simp
  | some s => simp

variable (a place t)

/-- A reference is resolved unless something in it is at fault, and then level by level: each admits
null exactly if it has no mark, and the name inside them all is mapped. Where names are left as they
are, the reference is what comes of putting the marks back, so that no other one has this type. -/
theorem resolve_levels :
    ((∃ r, a.resolve place t = .ok r) ↔
      (∀ u, .nonNull (.nonNull u) ∉ t.parts) ∧ t.baseName ≠ "") ∧
    ∀ r, a.resolve place t = .ok r →
      r.depth = t.depth ∧
      (∀ i, (r.level? i).map (·.isNullable) = (t.level? i).map (!·.isNonNull)) ∧
      r.baseName = a.mapName t.baseName ∧
      (a.mapName = id →
        r.toReference = t ∧ ∀ other u, a.resolve other u = .ok r → u = t) := by
  simp only [resolve_eq_ok_iff, TypeReference.exists_resolve?_iff]
  refine ⟨?_, fun r h => ?_⟩
  · rw [TypeReference.isValid_iff, TypeReference.IsFaulty, not_or, not_exists]
  · refine ⟨TypeReference.depth_of_resolve? h, TypeReference.level?_of_resolve? h,
      TypeReference.baseName_of_resolve? h, fun hnames => ?_⟩
    rw [hnames] at h ⊢
    have hback := TypeReference.toReference_of_resolve? h
    refine ⟨hback, fun _ u hu => ?_⟩
    rw [← TypeReference.toReference_of_resolve? hu, hback]

/-- The type `[[ID!]]!`. -/
def idTable : TypeReference := .nonNull (.list (.list (.nonNull (.named "ID"))))

theorem resolve_levels_idTable :
    (Analyzer.mk .empty id "_empty").mapName = id ∧
      (Analyzer.mk .empty id "_empty").resolve "Query.ids" idTable =
        .ok (.list (.list (.named "ID" false) true) false) ∧
      ResolvedType.toReference (.list (.list (.named "ID" false) true) false) = idTable ∧
      ∀ other u, (Analyzer.mk .empty id "_empty").resolve other u =
        .ok (.list (.list (.named "ID" false) true) false) → u = idTable := by
  have hresolved : (Analyzer.mk .empty id "_empty").resolve "Query.ids" idTable =
      .ok (.list (.list (.named "ID" false) true) false) := by decide
  have hlevels := (resolve_levels ⟨.empty, id, "_empty"⟩ "Query.ids" idTable).2 _ hresolved
  exact ⟨rfl, hresolved, hlevels.2.2.2 rfl⟩

end Analyzer

end GraphSchema
