import GraphSchema.Proofs.Requirement.Levels
import GraphSchema.Proofs.Sdl.Words
import Mathlib.Data.List.Basic

/-!
# Composite notation

A resolved type is written around its name, and a text in composite notation is peeled from its
ends. Where the name has none of the marks of the notation, every end that is peeled is one that was
written for a level, and nothing but the name is ever looked up. So a type may be translated before
it is written or after.
-/

namespace GraphSchema

/-- A name that has none of the marks of composite notation. -/
def IsAtomic (name : String) : Prop := ∀ mark ∈ ['<', '>', '|'], mark ∉ name.toList

theorem isAtomic_of_isName {name : String} (h : Sdl.IsName name) : IsAtomic name := by
  obtain ⟨c, r, hchars, hc, hr⟩ := h
  intro mark hmark hmem
  have hrest : Sdl.Token.isNameRest mark = true := by
    rw [hchars] at hmem
    rcases List.mem_cons.mp hmem with rfl | hmem
    · simp [Sdl.Token.isNameRest, hc]
    · exact hr mark hmem
  simp only [List.mem_cons, List.not_mem_nil, or_false] at hmark
  rcases hmark with rfl | rfl | rfl <;> exact absurd hrest (by decide)

/-- What ends in a bracket does not end as a type that admits null. -/
theorem isSuffixOf?_list (cs : List Char) :
    nullSuffix.isSuffixOf? (listOpening ++ cs ++ ['>']) = none := by
  refine Option.eq_none_iff_forall_ne_some.mpr fun front hfront => ?_
  have hlast := congrArg List.getLast? (List.isSuffixOf?_eq_some_iff_append_eq.mp hfront)
  rw [List.getLast?_concat, List.getLast?_append, show nullSuffix.getLast? = some 'l' from rfl]
    at hlast
  exact absurd (Option.some.inj hlast) (by decide)

theorem isSuffixOf?_name {name : String} (h : IsAtomic name) :
    nullSuffix.isSuffixOf? name.toList = none := by
  refine Option.eq_none_iff_forall_ne_some.mpr fun front hfront => ?_
  have hchars := List.isSuffixOf?_eq_some_iff_append_eq.mp hfront
  exact h '|' (by simp) (hchars ▸ List.mem_append_right _ (by decide))

theorem isSuffixOf?_nullable (cs : List Char) :
    nullSuffix.isSuffixOf? (cs ++ nullSuffix) = some cs :=
  List.isSuffixOf?_eq_some_iff_append_eq.mpr rfl

namespace NameMap

variable (mapName : NameMap)

theorem compositeWithin_nullable (n : Nat) (cs : List Char) :
    compositeWithin mapName (n + 1) (cs ++ nullSuffix) =
      compositeWithin mapName n cs ++ nullSuffix := by
  rw [compositeWithin, isSuffixOf?_nullable]

theorem compositeWithin_list (n : Nat) (cs : List Char) :
    compositeWithin mapName (n + 1) (listOpening ++ cs ++ ['>']) =
      listOpening ++ compositeWithin mapName n cs ++ ['>'] := by
  have hlist : listOpening.isPrefixOf? (listOpening ++ cs ++ ['>']) >>= ['>'].isSuffixOf? =
      some cs := by
    refine Option.bind_eq_some_iff.mpr ⟨cs ++ ['>'], ?_, ?_⟩
    · exact List.isPrefixOf?_eq_some_iff_append_eq.mpr (List.append_assoc ..).symm
    · exact List.isSuffixOf?_eq_some_iff_append_eq.mpr rfl
  rw [compositeWithin, isSuffixOf?_list]
  dsimp only
  rw [hlist]

theorem compositeWithin_name {name : String} (h : IsAtomic name) (n : Nat) :
    compositeWithin mapName n name.toList = (mapName name).toList := by
  have hprefix : listOpening.isPrefixOf? name.toList = none := by
    refine Option.eq_none_iff_forall_ne_some.mpr fun rest hrest => ?_
    have hchars := List.isPrefixOf?_eq_some_iff_append_eq.mp hrest
    exact h '<' (by simp) (hchars ▸ List.mem_append_left _ (by decide))
  cases n with
  | zero => rw [compositeWithin, String.ofList_toList]
  | succ n =>
    rw [compositeWithin, isSuffixOf?_name h, hprefix]
    exact congrArg (fun s => (mapName s).toList) (String.ofList_toList ..)

end NameMap

namespace ResolvedType

/-- The type with another name inside. -/
def mapBaseName (mapName : NameMap) : ResolvedType → ResolvedType
  | named name nullable => named (mapName name) nullable
  | list element nullable => list (element.mapBaseName mapName) nullable

variable (mapName : NameMap)

theorem mapBaseName_withNullable (r : ResolvedType) (nullable : Bool) :
    (r.withNullable nullable).mapBaseName mapName =
      (r.mapBaseName mapName).withNullable nullable := by
  cases r <;> rfl

theorem toList_render_named (name : String) (nullable : Bool) :
    (named name nullable).render.toList =
      name.toList ++ if nullable then nullSuffix else [] := by
  rw [render, String.toList_append]
  cases nullable <;> rfl

theorem toList_render_list (element : ResolvedType) (nullable : Bool) :
    (list element nullable).render.toList =
      listOpening ++ element.render.toList ++ ['>'] ++ if nullable then nullSuffix else [] := by
  rw [render, String.toList_append, String.toList_append, String.toList_append]
  cases nullable <;> rfl

/-- The ends of a written type are peeled level by level. Each level has characters of its own, so
that the length of the text is enough steps. -/
theorem compositeWithin_render {r : ResolvedType} (h : IsAtomic r.baseName) {n : Nat}
    (hn : r.render.toList.length < n) :
    mapName.compositeWithin n r.render.toList = (r.mapBaseName mapName).render.toList := by
  induction r generalizing n with
  | named name nullable =>
    have hname : IsAtomic name := h
    rw [mapBaseName, toList_render_named, toList_render_named]
    cases nullable with
    | false => simpa using mapName.compositeWithin_name hname n
    | true =>
      obtain ⟨n, rfl⟩ := Nat.exists_eq_succ_of_ne_zero (by omega : n ≠ 0)
      rw [if_pos rfl, mapName.compositeWithin_nullable, mapName.compositeWithin_name hname]
  | list element nullable ih =>
    have hlong : element.render.toList.length + 2 < n := by
      have hopening : listOpening.length = 6 := rfl
      rw [toList_render_list] at hn
      simp only [List.length_append, List.length_singleton] at hn
      omega
    have hpeel : ∀ m, element.render.toList.length + 1 < m →
        mapName.compositeWithin m (listOpening ++ element.render.toList ++ ['>']) =
          listOpening ++ (element.mapBaseName mapName).render.toList ++ ['>'] := by
      intro m hm
      obtain ⟨m, rfl⟩ := Nat.exists_eq_succ_of_ne_zero (by omega : m ≠ 0)
      rw [mapName.compositeWithin_list, ih h (by omega)]
    rw [mapBaseName, toList_render_list, toList_render_list]
    cases nullable with
    | false => simpa using hpeel n (by omega)
    | true =>
      obtain ⟨n, rfl⟩ := Nat.exists_eq_succ_of_ne_zero (by omega : n ≠ 0)
      rw [if_pos rfl, mapName.compositeWithin_nullable, hpeel n (by omega)]

/-- A type may be translated after it is written. -/
theorem toTargetType_render {r : ResolvedType} (h : IsAtomic r.baseName) :
    mapName.toTargetType r.render = (r.mapBaseName mapName).render := by
  rw [NameMap.toTargetType, compositeWithin_render mapName h (Nat.lt_succ_self _),
    String.ofList_toList]

end ResolvedType

namespace TypeReference

/-- Where names are mapped to other ones, nothing else in a resolved type changes. -/
theorem resolve?_eq_map (mapName : NameMap) (t : TypeReference) :
    t.resolve? mapName = (t.resolve? id).map (·.mapBaseName mapName) := by
  induction t with
  | named name =>
    rw [resolve?, resolve?]
    split <;> rfl
  | list item ih =>
    rw [resolve?, resolve?, ih, Option.map_map, Option.map_map]
    rfl
  | nonNull inner ih =>
    cases hbare : inner.isNonNull with
    | true =>
      cases inner with
      | nonNull inner => rfl
      | _ => exact absurd hbare (by simp [isNonNull])
    | false =>
      rw [resolve?_nonNull hbare, resolve?_nonNull hbare, ih, Option.map_map, Option.map_map]
      congr 1
      funext r
      exact (r.mapBaseName_withNullable mapName false).symm

end TypeReference

namespace Analyzer

variable {t : TypeReference}

/-- A reference whose names are left as they are and mapped in the text that is written for it has
the text of the reference whose names are mapped. -/
theorem resolve_toTargetType (hvalid : t.IsValid) (hname : Sdl.IsName t.baseName)
    (m : TypeMapping) (d : Document) (placeholder place : String) :
    ∃ r s, (Analyzer.mk d id placeholder).resolve place t = .ok r ∧
      (Analyzer.mk d m.mapName placeholder).resolve place t = .ok s ∧
      NameMap.toTargetType m.mapName r.render = s.render := by
  obtain ⟨r, hr⟩ : ∃ r, t.resolve? id = some r := TypeReference.exists_resolve?_iff.mpr hvalid
  have hbase : IsAtomic r.baseName := by
    rw [TypeReference.baseName_of_resolve? hr, id]
    exact isAtomic_of_isName hname
  have hs : t.resolve? m.mapName = some (r.mapBaseName m.mapName) := by
    rw [TypeReference.resolve?_eq_map, hr]
    rfl
  exact ⟨r, _, resolve_eq_ok_iff.mpr hr, resolve_eq_ok_iff.mpr hs,
    r.toTargetType_render m.mapName hbase⟩

/-- Names that are mapped to composite texts, and a composite text that looks like a name. -/
def compositeMapping : TypeMapping :=
  ⟨[("ID", "array<string>|null"), ("array<ID>", "never"), ("ID|null", "never")]⟩

theorem resolve_toTargetType_idTable : idTable.IsValid ∧ Sdl.IsName idTable.baseName ∧
    ∃ r s, (Analyzer.mk .empty id "_empty").resolve "Query.ids" idTable = .ok r ∧
      (Analyzer.mk .empty compositeMapping.mapName "_empty").resolve "Query.ids" idTable = .ok s ∧
      NameMap.toTargetType compositeMapping.mapName r.render = s.render := by
  have hresolved : ∃ r, idTable.resolve? id = some r := ⟨_, rfl⟩
  have hvalid : idTable.IsValid := TypeReference.exists_resolve?_iff.mp hresolved
  have hname : Sdl.IsName idTable.baseName := by decide
  exact ⟨hvalid, hname,
    resolve_toTargetType hvalid hname compositeMapping .empty "_empty" "Query.ids"⟩

example : NameMap.toTargetType compositeMapping.mapName "array<array<ID>|null>" =
    "array<array<array<string>|null>|null>" := by cbv

end Analyzer

end GraphSchema
