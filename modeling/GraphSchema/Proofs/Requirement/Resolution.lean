import GraphSchema.Proofs.Merge.Permitted
import GraphSchema.Proofs.Run
import GraphSchema.Requirement.Analysis

/-!
# Resolving references

A reference has a target type exactly if no mark stands on a mark and its innermost name is not
empty. Text can say no other reference, and a merge makes none, so that an analysis of merged
sources always has a result.
-/

namespace GraphSchema

/-- A reference that can be resolved. -/
inductive TypeReference.IsValid : TypeReference → Prop
  | named {name : String} (hname : name ≠ "") : IsValid (.named name)
  | list {item : TypeReference} (hitem : IsValid item) : IsValid (.list item)
  | nonNull {inner : TypeReference} (hbare : inner.isNonNull = false) (hinner : IsValid inner) :
      IsValid (.nonNull inner)

namespace TypeReference

variable {mapName : NameMap}

theorem resolve?_nonNull {inner : TypeReference} (hbare : inner.isNonNull = false) :
    (nonNull inner).resolve? mapName =
      (inner.resolve? mapName).map (·.withNullable false) := by
  cases inner with
  | nonNull inner => exact absurd hbare (by simp [isNonNull])
  | _ => rfl

/-- Validity is all that a target type takes, whatever names are mapped to. -/
theorem exists_resolve?_iff {t : TypeReference} :
    (∃ r, t.resolve? mapName = some r) ↔ t.IsValid := by
  constructor
  · induction t with
    | named name =>
      rintro ⟨r, hr⟩
      refine .named ?_
      rintro rfl
      exact absurd hr (by simp [resolve?])
    | list item ih =>
      rintro ⟨r, hr⟩
      obtain ⟨element, helement, -⟩ := Option.map_eq_some_iff.mp hr
      exact .list (ih ⟨element, helement⟩)
    | nonNull inner ih =>
      rintro ⟨r, hr⟩
      cases hbare : inner.isNonNull with
      | true =>
        cases inner with
        | nonNull inner => exact absurd hr (by simp [resolve?])
        | _ => exact absurd hbare (by simp [isNonNull])
      | false =>
        rw [resolve?_nonNull hbare] at hr
        obtain ⟨bare, hresolved, -⟩ := Option.map_eq_some_iff.mp hr
        exact .nonNull hbare (ih ⟨bare, hresolved⟩)
  · intro h
    induction h with
    | @named name hname => exact ⟨.named (mapName name) true, by simp [resolve?, hname]⟩
    | list _ ih =>
      obtain ⟨element, helement⟩ := ih
      exact ⟨.list element true, by rw [resolve?, helement]; rfl⟩
    | nonNull hbare _ ih =>
      obtain ⟨bare, hresolved⟩ := ih
      exact ⟨bare.withNullable false, by rw [resolve?_nonNull hbare, hresolved]; rfl⟩

/-- The references that text can say are valid. -/
theorem IsProper.isValid {t : TypeReference} (h : t.IsProper) : t.IsValid := by
  induction h with
  | named hname =>
    refine .named ?_
    rintro rfl
    exact absurd hname (by decide)
  | list _ ih => exact .list ih
  | nonNull hbare _ ih => exact .nonNull hbare ih

end TypeReference

/-- The references of a field are valid. -/
structure Field.HasValidReferences (f : Field) : Prop where
  type : f.type.IsValid
  arguments : ∀ x ∈ f.arguments, x.type.IsValid

/-- The references of a definition that an analysis may come by are valid. -/
structure Definition.HasValidReferences (d : Definition) : Prop where
  outputs : ∀ f ∈ d.outputFields?.getD [], f.HasValidReferences
  inputs : ∀ v ∈ d.inputFields?.getD [], v.type.IsValid

theorem Definition.outputFields_of_objectFields {d : Definition} {f : Field}
    (h : f ∈ d.objectFields?.getD []) : f ∈ d.outputFields?.getD [] := by
  unfold objectFields? at h
  unfold outputFields?
  cases hbody : d.body with
  | object interfaces fields =>
    rw [hbody] at h
    exact h
  | _ =>
    rw [hbody] at h
    exact absurd h (by simp)

section

variable {allowed : Sdl.Allowance}

theorem Field.Permitted.hasValidReferences {n : Nat} {f : Field} (h : f.Permitted allowed n) :
    f.HasValidReferences where
  type := h.type.isProper.isValid
  arguments x hx := (h.arguments x hx).type.isProper.isValid

theorem Definition.Permitted.hasValidReferences {d : Definition} (h : d.Permitted allowed) :
    d.HasValidReferences := by
  have hbody := h.body
  constructor
  · unfold Definition.outputFields?
    cases hcases : d.body with
    | object interfaces fields =>
      rw [hcases] at hbody
      exact fun f hf => (hbody.2 f hf).hasValidReferences
    | interface interfaces fields =>
      rw [hcases] at hbody
      exact fun f hf => (hbody.2 f hf).hasValidReferences
    | _ => exact fun f hf => absurd hf (by simp)
  · unfold Definition.inputFields?
    cases hcases : d.body with
    | inputObject fields =>
      rw [hcases] at hbody
      exact fun v hv => (hbody v hv).type.isProper.isValid
    | _ => exact fun v hv => absurd hv (by simp)

end

namespace Analyzer

variable (a : Analyzer)

theorem exists_resolve (place : String) {t : TypeReference} (h : t.IsValid) :
    ∃ r, a.resolve place t = .ok r := by
  obtain ⟨r, hr⟩ := TypeReference.exists_resolve?_iff.mpr h
  exact ⟨r, by rw [resolve, hr]⟩

theorem exists_resolverOf (owner : String) {f : Field} (h : f.HasValidReferences) :
    ∃ r, a.resolverOf owner f = .ok r := by
  obtain ⟨arguments, harguments⟩ := exists_mapM_iff.mpr fun x hx => by
    obtain ⟨r, hr⟩ := a.exists_resolve
      ((ResolverKey.mk owner f.name).render ++ "(" ++ x.name ++ ")") (h.arguments x hx)
    exact ⟨(⟨x.name, r⟩ : TypedName), bind_eq_ok.mpr ⟨r, hr, rfl⟩⟩
  obtain ⟨r, hr⟩ := a.exists_resolve (ResolverKey.mk owner f.name).render h.type
  exact ⟨_, bind_eq_ok.mpr ⟨arguments, harguments, bind_eq_ok.mpr ⟨r, hr, rfl⟩⟩⟩

theorem exists_holderOf (d : Definition) {fields : List (String × TypeReference)}
    (h : ∀ f ∈ fields, f.2.IsValid) : ∃ r, a.holderOf d fields = .ok r := by
  obtain ⟨typed, htyped⟩ := exists_mapM_iff.mpr fun f hf => by
    obtain ⟨r, hr⟩ := a.exists_resolve (d.name ++ "." ++ f.1) (h f hf)
    exact ⟨(⟨f.1, r⟩ : TypedName), bind_eq_ok.mpr ⟨r, hr, rfl⟩⟩
  exact ⟨_, bind_eq_ok.mpr ⟨typed, htyped, rfl⟩⟩

variable {a}

theorem analyze_eq_ok_iff_parts {set : RequirementSet} : a.analyze = .ok set ↔
    a.resolvers = .ok set.resolvers ∧ a.entities = .ok set.entities ∧
      a.requests = .ok set.requests := by
  constructor
  · intro h
    obtain ⟨resolvers, hresolvers, h⟩ := bind_eq_ok.mp h
    obtain ⟨entities, hentities, h⟩ := bind_eq_ok.mp h
    obtain ⟨requests, hrequests, h⟩ := bind_eq_ok.mp h
    obtain rfl := Except.ok.inj h
    exact ⟨hresolvers, hentities, hrequests⟩
  · rintro ⟨hresolvers, hentities, hrequests⟩
    refine bind_eq_ok.mpr ⟨_, hresolvers, bind_eq_ok.mpr ⟨_, hentities, ?_⟩⟩
    exact bind_eq_ok.mpr ⟨_, hrequests, rfl⟩

/-- A document without invalid references has all its requirements. -/
theorem exists_analyze (h : ∀ d ∈ a.document.definitions, d.HasValidReferences) :
    ∃ set, a.resolvers = .ok set.resolvers ∧ a.entities = .ok set.entities ∧
      a.requests = .ok set.requests ∧ a.analyze = .ok set := by
  obtain ⟨resolvers, hresolvers⟩ : ∃ rs, a.resolvers = .ok rs := by
    refine exists_mapM_iff.mpr fun p hp => ?_
    obtain ⟨d, hd, hselected⟩ := List.mem_flatMap.mp hp
    obtain ⟨f, hf, rfl⟩ := List.mem_map.mp hselected
    exact a.exists_resolverOf d.name ((h d hd).outputs f (List.mem_filter.mp hf).1)
  obtain ⟨entities, hentities⟩ : ∃ es, a.entities = .ok es := by
    refine exists_mapM_iff.mpr fun d hd => a.exists_holderOf d fun x hx => ?_
    obtain ⟨f, hf, rfl⟩ := List.mem_map.mp hx
    have hvalid := (h d (List.mem_filter.mp hd).1).outputs f
      (Definition.outputFields_of_objectFields hf)
    exact hvalid.type
  obtain ⟨requests, hrequests⟩ : ∃ rs, a.requests = .ok rs := by
    refine exists_mapM_iff.mpr fun d hd => a.exists_holderOf d fun x hx => ?_
    obtain ⟨v, hv, rfl⟩ := List.mem_map.mp hx
    exact (h d (List.mem_filter.mp hd).1).inputs v hv
  refine ⟨⟨resolvers, entities, requests⟩, hresolvers, hentities, hrequests, ?_⟩
  exact analyze_eq_ok_iff_parts.mpr ⟨hresolvers, hentities, hrequests⟩

/-- A checked list is refused for being empty and for nothing else. -/
theorem nonEmpty_bind {α : Type} {kind : RequirementKind} {x : Except AnalysisError (List α)}
    {items : List α} (h : x = .ok items) :
    x >>= nonEmpty kind = if items = [] then .error (.noRequirements kind) else .ok items := by
  subst h
  show nonEmpty kind items = _
  simp only [nonEmpty, List.isEmpty_iff]

/-- What sources are merged to is analysed without an error, whatever names are mapped to and
whatever the placeholder is. A list of requirements is only ever refused for being empty. -/
theorem analyze_ofSources {sources : List (String × String)} {m : Merge.Merged}
    (hm : Merge.ofSources sources = .ok m) (mapName : NameMap) (placeholder : String) :
    ∃ set, (Analyzer.mk m.document mapName placeholder).analyze = .ok set ∧
      (Analyzer.mk m.document mapName placeholder).requiredResolvers =
        (if set.resolvers = [] then .error (.noRequirements .resolver) else .ok set.resolvers) ∧
      (Analyzer.mk m.document mapName placeholder).requiredEntities =
        (if set.entities = [] then .error (.noRequirements .entity) else .ok set.entities) ∧
      (Analyzer.mk m.document mapName placeholder).requiredRequests =
        (if set.requests = [] then .error (.noRequirements .request) else .ok set.requests) := by
  obtain ⟨documents, hdocuments, hmerge⟩ := Merge.ofSources_iff.mp ⟨m, hm, rfl⟩
  have hpermitted : ∀ d ∈ m.document.definitions, d.Permitted (.lexed fun _ => True) :=
    Merge.permitted_ofSources (fun _ _ _ _ => trivial) hdocuments hmerge
  obtain ⟨set, hresolvers, hentities, hrequests, hset⟩ :=
    exists_analyze (a := ⟨m.document, mapName, placeholder⟩)
      fun d hd => (hpermitted d hd).hasValidReferences
  exact ⟨set, hset, nonEmpty_bind hresolvers, nonEmpty_bind hentities, nonEmpty_bind hrequests⟩

/-- Two files with nested references, and no input object. -/
def librarySources : List (String × String) :=
  [("book.graphql",
      "interface Named \x7b tags(of: [[String!]!]): [[Tag!]]! \x7d enum Tag \x7b NEW \x7d"),
    ("query.graphql",
      "type Query \x7b books(by: [ID!]!): [Book!] \x7d type Book \x7b title: String! \x7d")]

theorem analyze_ofSources_library : ∃ m, Merge.ofSources librarySources = .ok m ∧
    ∃ set, (Analyzer.mk m.document id "_empty").analyze = .ok set ∧
      (Analyzer.mk m.document id "_empty").requiredResolvers =
        (if set.resolvers = [] then .error (.noRequirements .resolver) else .ok set.resolvers) ∧
      (Analyzer.mk m.document id "_empty").requiredEntities =
        (if set.entities = [] then .error (.noRequirements .entity) else .ok set.entities) ∧
      (Analyzer.mk m.document id "_empty").requiredRequests =
        (if set.requests = [] then .error (.noRequirements .request) else .ok set.requests) := by
  have hmerges : (Merge.ofSources librarySources).isOk = true := by decide +kernel
  cases hm : Merge.ofSources librarySources with
  | error e =>
    rw [hm] at hmerges
    exact absurd hmerges (by simp [Except.isOk, Except.toBool])
  | ok m => exact ⟨m, rfl, analyze_ofSources hm id "_empty"⟩

end Analyzer

end GraphSchema
