import GraphSchema.Proofs.Merge.Files
import GraphSchema.Proofs.Merge.Union
import GraphSchema.Proofs.Requirement.Resolution
import GraphSchema.Proofs.Run
import GraphSchema.Requirement.Analysis
import Mathlib.Data.List.Nodup

/-!
# Keys of requirements

Descriptors are looked up by their keys: a resolver by its owner and its field, a holder by its
name. A merge gives every type a name of its own among the types of its class, and every field of a
root type a name of its own in it. Nothing looks for names that are repeated inside one definition
that is no root type, or inside one field, and there the keys are as good as the definitions are.
-/

namespace GraphSchema

section Lists

variable {α κ : Type}

/-- Where keys are not repeated, what has a key is found under it. -/
theorem find?_of_nodup_keys [DecidableEq κ] {key : α → κ} {l : List α} (h : (l.map key).Nodup)
    {a : α} (ha : a ∈ l) : l.find? (fun b => key b == key a) = some a := by
  induction l with
  | nil => exact absurd ha (by simp)
  | cons b l ih =>
    obtain ⟨hb, hl⟩ := List.nodup_cons.mp h
    rcases List.mem_cons.mp ha with rfl | ha
    · simp
    · have hne : key b ≠ key a := fun heq => hb (heq ▸ List.mem_map_of_mem ha)
      rw [List.find?_cons_of_neg (by simpa using hne)]
      exact ih hl ha

variable {β : Type} {R : α → β → Prop} {l : List α} {m : List β}

theorem map_eq_of_forall₂ {f : α → κ} {g : β → κ} (h : List.Forall₂ R l m)
    (hR : ∀ a b, R a b → f a = g b) : l.map f = m.map g := by
  induction h with
  | nil => rfl
  | cons hab _ ih => rw [List.map_cons, List.map_cons, hR _ _ hab, ih]

theorem forall_iff_of_forall₂ {P : α → Prop} {Q : β → Prop} (h : List.Forall₂ R l m)
    (hR : ∀ a b, R a b → (P a ↔ Q b)) : (∀ a ∈ l, P a) ↔ ∀ b ∈ m, Q b := by
  induction h with
  | nil => simp
  | cons hab _ ih => rw [List.forall_mem_cons, List.forall_mem_cons, hR _ _ hab, ih]

end Lists

theorem Json.put_of_notMem {members : List (String × Json)} {key : String} (value : Json)
    (h : key ∉ members.map (·.1)) : put members key value = members ++ [(key, value)] := by
  induction members with
  | nil => rfl
  | cons m members ih =>
    rw [List.map_cons, List.mem_cons, not_or] at h
    rw [put, if_neg (Ne.symm h.1), ih h.2]
    rfl

namespace TypedName

/-- Entries that their names tell apart: each is found under its name, and their object has one
member for each of them. -/
structure AreKeyed (entries : List TypedName) : Prop where
  names : (entries.map (·.name)).Nodup
  found : ∀ t ∈ entries, entries.find? (·.name == t.name) = some t
  members : fieldMap entries = .object (entries.map fun t => (t.name, .string t.type.render))

theorem foldl_put (entries : List TypedName) {members : List (String × Json)}
    (h : (members.map (·.1) ++ entries.map (·.name)).Nodup) :
    entries.foldl (fun members t => Json.put members t.name (.string t.type.render)) members =
      members ++ entries.map fun t => (t.name, .string t.type.render) := by
  induction entries generalizing members with
  | nil => simp
  | cons t entries ih =>
    have hnot : t.name ∉ members.map (·.1) := fun hmem =>
      (List.nodup_append'.mp h).2.2 hmem (by simp)
    rw [List.foldl_cons, Json.put_of_notMem _ hnot, ih (by simpa using h)]
    simp

theorem areKeyed_iff {entries : List TypedName} :
    AreKeyed entries ↔ (entries.map (·.name)).Nodup := by
  refine ⟨fun h => h.names, fun h => ⟨h, fun t ht => find?_of_nodup_keys h ht, ?_⟩⟩
  have hnames : ((([] : List (String × Json)).map (·.1)) ++ entries.map (·.name)).Nodup := by
    simpa using h
  exact congrArg Json.object (foldl_put entries hnames)

end TypedName

namespace RequirementSet

/-- Descriptors that their keys tell apart, each found under its key, with names of arguments and
fields that are keys as well. -/
structure IsKeyed (set : RequirementSet) : Prop where
  resolvers : (set.resolvers.map (·.key)).Nodup
  entities : (set.entities.map (·.name)).Nodup
  requests : (set.requests.map (·.name)).Nodup
  resolverFound : ∀ r ∈ set.resolvers, set.findResolver? r.key.owner r.key.field = some r
  entityFound : ∀ h ∈ set.entities, set.findEntity? h.name = some h
  requestFound : ∀ h ∈ set.requests, set.findRequest? h.name = some h
  arguments : ∀ r ∈ set.resolvers, TypedName.AreKeyed r.arguments
  entityFields : ∀ h ∈ set.entities, TypedName.AreKeyed h.fields
  requestFields : ∀ h ∈ set.requests, TypedName.AreKeyed h.fields

theorem findResolver?_of_nodup {set : RequirementSet} (h : (set.resolvers.map (·.key)).Nodup)
    {r : Resolver} (hr : r ∈ set.resolvers) :
    set.findResolver? r.key.owner r.key.field = some r := by
  have hkey : (fun x : Resolver => x.key.owner == r.key.owner && x.key.field == r.key.field) =
      fun x => x.key == r.key := by
    funext x
    generalize x.key = k
    generalize r.key = l
    cases k
    cases l
    exact Bool.eq_iff_iff.mpr (by simp)
  rw [findResolver?, hkey]
  exact find?_of_nodup_keys h hr

end RequirementSet

namespace Analyzer

/-- The fields of a definition that need a resolver. -/
def selectedOf (a : Analyzer) (d : Definition) : List Field :=
  (d.outputFields?.getD []).filter (a.isSelected d)

/-- A definition in which an analysis does not come by one name twice. A root type cannot fail to
be one but for the arguments of its fields. -/
structure ReadsOnce (a : Analyzer) (d : Definition) : Prop where
  selected : d.rootKind? = none → ((a.selectedOf d).map (·.name)).Nodup
  arguments : ∀ f ∈ a.selectedOf d, (f.arguments.map (·.name)).Nodup
  fields : d.rootKind? = none → ((d.objectFields?.getD []).map (·.name)).Nodup
  inputs : ((d.inputFields?.getD []).map (·.name)).Nodup

/-- What the keys of the requirements of a document are: names of holders are never repeated, keys
of resolvers are if a definition declares a field twice, and names in a descriptor are if they are
in what it describes. -/
structure Keys (a : Analyzer) (set : RequirementSet) : Prop where
  entities : (set.entities.map (·.name)).Nodup
  entityFound : ∀ h ∈ set.entities, set.findEntity? h.name = some h
  requests : (set.requests.map (·.name)).Nodup
  requestFound : ∀ h ∈ set.requests, set.findRequest? h.name = some h
  resolvers : (set.resolvers.map (·.key)).Nodup ↔ ∀ d ∈ a.document.definitions,
    d.rootKind? = none → ((a.selectedOf d).map (·.name)).Nodup
  resolverFound : (set.resolvers.map (·.key)).Nodup →
    ∀ r ∈ set.resolvers, set.findResolver? r.key.owner r.key.field = some r
  arguments : List.Forall₂ (fun p r => r.key = ⟨p.1.name, p.2.name⟩ ∧
    (TypedName.AreKeyed r.arguments ↔ (p.2.arguments.map (·.name)).Nodup))
    a.selectedFields set.resolvers
  entityFields : List.Forall₂ (fun d h => h.name = d.name ∧
    (TypedName.AreKeyed h.fields ↔ ((d.objectFields?.getD []).map (·.name)).Nodup))
    a.document.entityTypes set.entities
  requestFields : List.Forall₂ (fun d h => h.name = d.name ∧
    (TypedName.AreKeyed h.fields ↔ ((d.inputFields?.getD []).map (·.name)).Nodup))
    a.document.inputTypes set.requests

section

variable {a : Analyzer} {set : RequirementSet}

theorem selectedFields_eq : a.selectedFields =
    a.document.definitions.flatMap fun d => (a.selectedOf d).map (d, ·) := rfl

/-- Typed names have the names of what is typed. -/
theorem names_of_mapM {γ : Type} {nameOf : γ → String}
    {resolved : γ → Except AnalysisError ResolvedType} {items : List γ} {typed : List TypedName}
    (h : items.mapM (fun x => do return (⟨nameOf x, ← resolved x⟩ : TypedName)) = .ok typed) :
    items.map nameOf = typed.map (·.name) := by
  refine map_eq_of_forall₂ (forall₂_of_mapM h) fun x t ht => ?_
  obtain ⟨r, -, hr⟩ := bind_eq_ok.mp ht
  obtain rfl := Except.ok.inj hr
  rfl

theorem resolverOf_spec {owner : String} {f : Field} {r : Resolver}
    (h : a.resolverOf owner f = .ok r) :
    r.key = ⟨owner, f.name⟩ ∧
      (TypedName.AreKeyed r.arguments ↔ (f.arguments.map (·.name)).Nodup) := by
  obtain ⟨arguments, harguments, h⟩ := bind_eq_ok.mp h
  obtain ⟨type, -, h⟩ := bind_eq_ok.mp h
  obtain rfl := Except.ok.inj h
  exact ⟨rfl, by rw [TypedName.areKeyed_iff, ← names_of_mapM harguments]⟩

theorem holderOf_spec {d : Definition} {fields : List (String × TypeReference)} {x : Holder}
    (h : a.holderOf d fields = .ok x) :
    x.name = d.name ∧ (TypedName.AreKeyed x.fields ↔ (fields.map (·.1)).Nodup) := by
  obtain ⟨typed, htyped, h⟩ := bind_eq_ok.mp h
  obtain rfl := Except.ok.inj h
  exact ⟨rfl, by rw [TypedName.areKeyed_iff, ← names_of_mapM htyped]⟩

/-- Resolvers of different owners have different keys, if owners have different names. -/
theorem nodup_keys_iff (hnodup : a.document.definitions.Nodup)
    (howners : ∀ d ∈ a.document.definitions, ∀ e ∈ a.document.definitions,
      a.selectedOf d ≠ [] → a.selectedOf e ≠ [] → d.name = e.name → d = e) :
    (a.selectedFields.map fun p => ResolverKey.mk p.1.name p.2.name).Nodup ↔
      ∀ d ∈ a.document.definitions, ((a.selectedOf d).map (·.name)).Nodup := by
  have hkeys : ∀ d : Definition,
      ((a.selectedOf d).map (d, ·)).map (fun p => ResolverKey.mk p.1.name p.2.name) =
        ((a.selectedOf d).map (·.name)).map (ResolverKey.mk d.name) := by
    intro d
    rw [List.map_map, List.map_map]
    rfl
  rw [selectedFields_eq, List.map_flatMap, List.nodup_flatMap]
  simp only [hkeys]
  constructor
  · exact fun h d hd => (h.1 d hd).of_map
  · refine fun h => ⟨fun d hd => (h d hd).map fun x y hxy => (ResolverKey.mk.inj hxy).2, ?_⟩
    refine hnodup.pairwise_of_forall_ne fun d hd e he hne key hkey hkey' => hne ?_
    simp only [List.map_map, List.mem_map, Function.comp_apply] at hkey hkey'
    obtain ⟨f, hf, rfl⟩ := hkey
    obtain ⟨g, hg, hgf⟩ := hkey'
    have hname := (ResolverKey.mk.inj hgf).1
    exact howners d hd e he (List.ne_nil_of_mem hf) (List.ne_nil_of_mem hg) hname.symm

theorem definitionClass_of_selected {d : Definition} (h : a.selectedOf d ≠ []) :
    d.definitionClass = .namedType := by
  unfold selectedOf Definition.outputFields? at h
  unfold Definition.definitionClass
  cases hbody : d.body <;> simp_all

/-- The keys are free of repetitions exactly if the definitions are. -/
theorem Keys.isKeyed_iff (h : Keys a set) :
    set.IsKeyed ↔ ∀ d ∈ a.document.definitions, a.ReadsOnce d := by
  have harguments := forall_iff_of_forall₂ h.arguments fun p r hpr => hpr.2.symm
  have hentities := forall_iff_of_forall₂ h.entityFields fun d x hdx => hdx.2.symm
  have hrequests := forall_iff_of_forall₂ h.requestFields fun d x hdx => hdx.2.symm
  constructor
  · intro hkeyed d hd
    constructor
    · exact h.resolvers.mp hkeyed.resolvers d hd
    · intro f hf
      refine harguments.mpr hkeyed.arguments (d, f) ?_
      exact List.mem_flatMap.mpr ⟨d, hd, List.mem_map_of_mem hf⟩
    · intro hroot
      cases hobject : d.objectFields? with
      | none => exact List.nodup_nil
      | some fields =>
        have hmem : d ∈ a.document.entityTypes :=
          List.mem_filter.mpr ⟨hd, by simp [hobject, hroot]⟩
        have hnodup := hentities.mpr hkeyed.entityFields d hmem
        rwa [hobject] at hnodup
    · cases hinput : d.inputFields? with
      | none => exact List.nodup_nil
      | some fields =>
        have hmem : d ∈ a.document.inputTypes := List.mem_filter.mpr ⟨hd, by simp [hinput]⟩
        have hnodup := hrequests.mpr hkeyed.requestFields d hmem
        rwa [hinput] at hnodup
  · intro hreads
    have hresolvers := h.resolvers.mpr fun d hd => (hreads d hd).selected
    refine ⟨hresolvers, h.entities, h.requests, h.resolverFound hresolvers, h.entityFound,
      h.requestFound, harguments.mp fun p hp => ?_, hentities.mp fun d hd => ?_,
      hrequests.mp fun d hd => ?_⟩
    · obtain ⟨d, hd, hp⟩ := List.mem_flatMap.mp hp
      obtain ⟨f, hf, rfl⟩ := List.mem_map.mp hp
      exact (hreads d hd).arguments f hf
    · obtain ⟨hd, hkind⟩ := List.mem_filter.mp hd
      have hroot : d.rootKind? = none := by simp_all
      exact (hreads d hd).fields hroot
    · exact (hreads d (List.mem_filter.mp hd).1).inputs

theorem nodup_resolverKeys {ds : List Definition} (hc : Merge.Compatible ds)
    (hdocument : a.document = Merge.union ds) :
    (a.selectedFields.map fun p => ResolverKey.mk p.1.name p.2.name).Nodup ↔
      ∀ d ∈ a.document.definitions,
        d.rootKind? = none → ((a.selectedOf d).map (·.name)).Nodup := by
  rw [nodup_keys_iff (hdocument ▸ Merge.nodup_union ds) fun d hd e he hselected hselected' => ?_]
  · refine ⟨fun h d hd _ => h d hd, fun h d hd => ?_⟩
    cases hkind : d.rootKind? with
    | none => exact h d hd hkind
    | some k =>
      have hfields := hc.nodup_fields (hdocument ▸ hd) hkind
      exact hfields.sublist (List.filter_sublist.map _)
  · have hclass := (definitionClass_of_selected hselected).trans
      (definitionClass_of_selected hselected').symm
    exact hc.eq_of_name (hdocument ▸ hd) (hdocument ▸ he) hclass

/-- The keys of the requirements of what definitions are merged to. -/
theorem keys_of_union {ds : List Definition} (hc : Merge.Compatible ds)
    (hdocument : a.document = Merge.union ds) (h : a.analyze = .ok set) : Keys a set := by
  obtain ⟨hresolvers, hentities, hrequests⟩ := analyze_eq_ok_iff_parts.mp h
  have harguments := (forall₂_of_mapM hresolvers).imp fun _ _ hr => resolverOf_spec hr
  have hentityFields := (forall₂_of_mapM hentities).imp fun _ _ hx => holderOf_spec hx
  have hrequestFields := (forall₂_of_mapM hrequests).imp fun _ _ hx => holderOf_spec hx
  simp only [List.map_map] at hentityFields hrequestFields
  have hentityNames : (set.entities.map (·.name)).Nodup := by
    rw [← map_eq_of_forall₂ hentityFields fun d x hdx => hdx.1.symm, Document.entityTypes,
      hdocument]
    refine hc.nodup_names (c := .namedType) fun d hd => ?_
    rw [Bool.and_eq_true] at hd
    exact Definition.definitionClass_of_objectFields? hd.1
  have hrequestNames : (set.requests.map (·.name)).Nodup := by
    rw [← map_eq_of_forall₂ hrequestFields fun d x hdx => hdx.1.symm, Document.inputTypes,
      hdocument]
    exact hc.nodup_names fun d => Definition.definitionClass_of_inputFields?
  constructor
  · exact hentityNames
  · exact fun _ => find?_of_nodup_keys hentityNames
  · exact hrequestNames
  · exact fun _ => find?_of_nodup_keys hrequestNames
  · rw [← map_eq_of_forall₂ harguments fun p r hpr => hpr.1.symm]
    exact nodup_resolverKeys hc hdocument
  · exact fun h _ => RequirementSet.findResolver?_of_nodup h
  · exact harguments
  · exact hentityFields
  · exact hrequestFields

end

/-- The keys of the requirements of merged sources. They are keys throughout exactly if there is
nothing in the definitions that an analysis comes by twice. -/
theorem keys_ofSources {sources : List (String × String)} {m : Merge.Merged}
    (hm : Merge.ofSources sources = .ok m) {mapName : NameMap} {placeholder : String}
    {set : RequirementSet}
    (hset : (Analyzer.mk m.document mapName placeholder).analyze = .ok set) :
    Keys ⟨m.document, mapName, placeholder⟩ set ∧
      (set.IsKeyed ↔ ∀ d ∈ m.document.definitions,
        ReadsOnce ⟨m.document, mapName, placeholder⟩ d) := by
  obtain ⟨documents, -, hmerge⟩ := Merge.ofSources_iff.mp ⟨m, hm, rfl⟩
  obtain ⟨-, hc, hdocument⟩ := Merge.union_of_ofDocuments hmerge
  have hkeys := keys_of_union hc hdocument hset
  exact ⟨hkeys, hkeys.isKeyed_iff⟩

/-- Two files with one root type and an entity, of which no more than a scalar field is repeated. -/
def friendSources : List (String × String) :=
  [("user.graphql", "type User \x7b name: String, friends(first: Int): [User!], name: ID \x7d"),
    ("query.graphql",
      "type Query \x7b me: User \x7d type Query \x7b me: User, user(id: ID!): User \x7d")]

theorem keys_ofSources_friend : ∃ m, Merge.ofSources friendSources = .ok m ∧
    ∃ set, (Analyzer.mk m.document id "_empty").analyze = .ok set ∧
      (Keys ⟨m.document, id, "_empty"⟩ set ∧ (set.IsKeyed ↔ ∀ d ∈ m.document.definitions,
        ReadsOnce ⟨m.document, id, "_empty"⟩ d)) ∧
      set.resolvers.length = 3 ∧ (set.resolvers.map (·.key)).Nodup ∧ ¬ set.IsKeyed := by
  have hrun : (Merge.ofSources friendSources).toOption.any (fun m =>
      (Analyzer.mk m.document id "_empty").analyze.toOption.any fun set =>
        set.resolvers.length == 3 && decide (set.resolvers.map (·.key)).Nodup &&
          decide (∃ x ∈ set.entities, ¬ (x.fields.map (·.name)).Nodup)) = true := by
    decide +kernel
  obtain ⟨m, hm, hanalysis⟩ := exists_ok_of_any hrun
  obtain ⟨set, hset, hfacts⟩ := exists_ok_of_any hanalysis
  simp only [Bool.and_eq_true, beq_iff_eq, decide_eq_true_eq] at hfacts
  obtain ⟨⟨hlength, hresolvers⟩, x, hx, hrepeated⟩ := hfacts
  exact ⟨m, hm, set, hset, keys_ofSources hm hset, hlength, hresolvers,
    fun h => hrepeated (h.entityFields x hx).names⟩

/-- Nothing keeps an object from declaring a field twice, and then two resolvers have one key. -/
theorem not_isKeyed_ofSources : ∃ m,
    Merge.ofSources [("a", "type User \x7b friend: User friend: [User] \x7d")] = .ok m ∧
      ∃ set, (Analyzer.mk m.document id "_empty").analyze = .ok set ∧ ¬ set.IsKeyed := by
  have hrun : (Merge.ofSources
      [("a", "type User \x7b friend: User friend: [User] \x7d")]).toOption.any (fun m =>
        (Analyzer.mk m.document id "_empty").analyze.toOption.any fun set =>
          decide (¬ (set.resolvers.map (·.key)).Nodup)) = true := by
    decide +kernel
  obtain ⟨m, hm, hanalysis⟩ := exists_ok_of_any hrun
  obtain ⟨set, hset, hrepeated⟩ := exists_ok_of_any hanalysis
  exact ⟨m, hm, set, hset, fun h => of_decide_eq_true hrepeated h.resolvers⟩

end Analyzer

end GraphSchema
