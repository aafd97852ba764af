import GraphSchema.Proofs.Requirement.Notation

/-!
# Composite notation is unambiguous

A written type tells the type. Its end says whether the outermost level admits null, its first
characters whether that level is a list, and what is left between them is the text of the element.
-/

namespace GraphSchema.ResolvedType

/-- The end of a written type is the mark of its outermost level, if that level admits null, and no
mark otherwise. -/
theorem isSuffixOf?_render {r : ResolvedType} (h : IsAtomic r.baseName) :
    nullSuffix.isSuffixOf? r.render.toList =
      if r.isNullable then some (r.withNullable false).render.toList else none := by
  cases r with
  | named name nullable =>
    have hname : IsAtomic name := h
    rw [withNullable, toList_render_named, toList_render_named]
    cases nullable with
    | false => simpa [isNullable] using isSuffixOf?_name hname
    | true => simp [isNullable, isSuffixOf?_nullable]
  | list element nullable =>
    rw [withNullable, toList_render_list, toList_render_list]
    cases nullable with
    | false => simpa [isNullable] using isSuffixOf?_list element.render.toList
    | true =>
      rw [if_pos rfl, isSuffixOf?_nullable]
      simp [isNullable]

theorem withNullable_self {r : ResolvedType} {nullable : Bool} (h : r.isNullable = nullable) :
    r.withNullable nullable = r := by
  subst h
  cases r <;> rfl

/-- The outermost level and the text without its mark are told by the text. -/
theorem nullable_of_render_eq {r s : ResolvedType} (hr : IsAtomic r.baseName)
    (hs : IsAtomic s.baseName) (h : r.render = s.render) :
    r.isNullable = s.isNullable ∧
      (r.withNullable false).render = (s.withNullable false).render := by
  have hends := isSuffixOf?_render hr
  rw [h, isSuffixOf?_render hs] at hends
  cases hrn : r.isNullable with
  | false =>
    cases hsn : s.isNullable with
    | false =>
      rw [withNullable_self hrn, withNullable_self hsn]
      exact ⟨rfl, h⟩
    | true => simp [hrn, hsn] at hends
  | true =>
    cases hsn : s.isNullable with
    | false => simp [hrn, hsn] at hends
    | true =>
      simp only [hrn, hsn, if_true, Option.some.injEq] at hends
      exact ⟨rfl, String.toList_inj.mp hends.symm⟩

/-- A list is written with a bracket, which no name has. -/
theorem render_list_ne_name {element : ResolvedType} {name : String} (h : IsAtomic name) :
    (list element false).render ≠ (named name false).render := by
  intro heq
  have hchars := congrArg String.toList heq
  rw [toList_render_list, toList_render_named] at hchars
  have hmem : '<' ∈ name.toList := by
    rw [← List.append_nil name.toList]
    exact hchars ▸ by simp [show '<' ∈ listOpening by decide]
  exact h '<' (by simp) hmem

/-- Two types whose names have none of the marks of the notation are written the same only if they
are the same, at every level. -/
theorem render_eq_render_iff {r s : ResolvedType} (hr : IsAtomic r.baseName)
    (hs : IsAtomic s.baseName) : r.render = s.render ↔ r = s := by
  refine ⟨fun h => ?_, fun h => h ▸ rfl⟩
  induction r generalizing s with
  | named name nullable =>
    obtain ⟨hnullable, hbare⟩ := nullable_of_render_eq hr hs h
    cases s with
    | named other onullable =>
      have hname : name = other := by simpa [withNullable, render] using hbare
      obtain rfl : nullable = onullable := hnullable
      rw [hname]
    | list element onullable => exact absurd hbare.symm (render_list_ne_name hr)
  | list element nullable ih =>
    obtain ⟨hnullable, hbare⟩ := nullable_of_render_eq hr hs h
    cases s with
    | named other onullable => exact absurd hbare (render_list_ne_name hs)
    | list other onullable =>
      have hchars := congrArg String.toList hbare
      rw [withNullable, withNullable, toList_render_list, toList_render_list] at hchars
      have helement : element.render = other.render := by
        simpa [String.toList_inj] using hchars
      obtain rfl : nullable = onullable := hnullable
      obtain rfl : element = other := ih hr hs helement
      rfl

/-- A table whose rows may be null. -/
def nullableRows : ResolvedType := list (list (named "ID" false) true) false

/-- A table whose cells may be null. -/
def nullableCells : ResolvedType := list (list (named "ID" true) false) false

theorem render_eq_render_iff_tables : IsAtomic nullableRows.baseName ∧
    IsAtomic nullableCells.baseName ∧
    (nullableRows.render = nullableCells.render ↔ nullableRows = nullableCells) := by
  have hrows : IsAtomic nullableRows.baseName := isAtomic_of_isName (by decide)
  have hcells : IsAtomic nullableCells.baseName := isAtomic_of_isName (by decide)
  exact ⟨hrows, hcells, render_eq_render_iff hrows hcells⟩

end GraphSchema.ResolvedType
