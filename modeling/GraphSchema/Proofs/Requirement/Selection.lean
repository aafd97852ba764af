import GraphSchema.Proofs.Requirement.Levels

/-!
# What an analysis selects

An analysis looks at the fields that need a resolver, at the objects that are no root types and at
the input objects, in this order, and at nothing else. It fails at the first reference there that is
at fault. If there is none, it describes each of them, and leaves nothing out.
-/

namespace GraphSchema

/-- The names of the root types. -/
def rootNames : List String := ["Query", "Mutation", "Subscription"]

namespace Definition

/-- An object with the name of a root type. -/
def IsRootObject (d : Definition) : Prop := d.objectFields?.isSome = true ∧ d.name ∈ rootNames

/-- An object with another name. -/
def IsEntity (d : Definition) : Prop := d.objectFields?.isSome = true ∧ d.name ∉ rootNames

instance (d : Definition) : Decidable d.IsRootObject := inferInstanceAs (Decidable (_ ∧ _))

instance (d : Definition) : Decidable d.IsEntity := inferInstanceAs (Decidable (_ ∧ _))

theorem isSome_rootKind?_iff {d : Definition} : d.rootKind?.isSome = true ↔ d.IsRootObject := by
  have hname : (∃ k : OperationKind, d.name = k.typeName) ↔ d.name ∈ rootNames := by
    constructor
    · rintro ⟨k, hk⟩
      rw [hk]
      cases k <;> decide
    · intro h
      simp only [rootNames, List.mem_cons, List.not_mem_nil, or_false] at h
      exact h.elim (⟨.query, ·⟩) (Or.elim · (⟨.mutation, ·⟩) (⟨.subscription, ·⟩))
  simp only [Option.isSome_iff_exists, rootKind?_eq_some_iff, exists_and_left, hname, IsRootObject]

end Definition

namespace Document

/-- A scalar that is built in, or that the document declares anywhere. -/
def HasScalar (d : Document) (name : String) : Prop :=
  name ∈ ["String", "Int", "Float", "Boolean", "ID"] ∨
    ∃ x ∈ d.definitions, x.isScalar = true ∧ x.name = name

instance (d : Document) (name : String) : Decidable (d.HasScalar name) :=
  inferInstanceAs (Decidable (_ ∨ _))

theorem isScalar_iff {d : Document} {name : String} :
    d.isScalar name = true ↔ d.HasScalar name := by
  simp [isScalar, isBuiltinScalar, builtinScalars, HasScalar]

/-- The fields of objects and interfaces, each with its owner. -/
def ownedFields (d : Document) : List (Definition × Field) :=
  d.definitions.flatMap fun x => (x.outputFields?.getD []).map (x, ·)

theorem entityTypes_eq (d : Document) :
    d.entityTypes = d.definitions.filter (fun x => x.IsEntity) := by
  refine List.filter_congr fun x _ => Bool.eq_iff_iff.mpr ?_
  have hroot : x.rootKind? = none ↔ ¬x.IsRootObject := by
    rw [← x.isSome_rootKind?_iff, Option.not_isSome_iff_eq_none]
  rw [Bool.and_eq_true, Option.isNone_iff_eq_none, hroot, decide_eq_true_eq]
  exact and_congr_right fun hobject => not_congr (and_iff_right hobject)

end Document

/-- The references of a field, each with its place: those of the arguments, and then its own. -/
def Field.references (owner : String) (f : Field) : List (String × TypeReference) :=
  f.arguments.map (fun x => (owner ++ "." ++ f.name ++ "(" ++ x.name ++ ")", x.type)) ++
    [(owner ++ "." ++ f.name, f.type)]

namespace Analyzer

variable (a : Analyzer)

/-- A field of a root object is selected unless it is the placeholder, and a field of another owner
unless it is a scalar inside its wrappers. -/
def Selects (owner : Definition) (f : Field) : Prop :=
  (owner.IsRootObject ∧ f.name ≠ a.placeholder) ∨
    (¬owner.IsRootObject ∧ ¬a.document.HasScalar f.type.baseName)

instance (owner : Definition) (f : Field) : Decidable (a.Selects owner f) :=
  inferInstanceAs (Decidable (_ ∨ _))

theorem isSelected_iff {owner : Definition} {f : Field} :
    a.isSelected owner f = true ↔ a.Selects owner f := by
  unfold isSelected Selects
  split
  · next hroot =>
    rw [Definition.isSome_rootKind?_iff] at hroot
    simp [hroot]
  · next hroot =>
    rw [Definition.isSome_rootKind?_iff] at hroot
    simp [hroot, isScalar, ← Document.isScalar_iff]

/-- The selected fields, in document order. -/
def selection : List (Definition × Field) :=
  a.document.ownedFields.filter fun p => a.Selects p.1 p.2

theorem selectedFields_eq_selection : a.selectedFields = a.selection := by
  rw [selection, Document.ownedFields, List.filter_flatMap, selectedFields]
  refine List.flatMap_congr fun d _ => ?_
  rw [List.filter_map]
  refine congrArg (List.map _) (List.filter_congr fun f _ => Bool.eq_iff_iff.mpr ?_)
  rw [a.isSelected_iff, Function.comp_apply, decide_eq_true_eq]

/-- The references that an analysis comes by, each with its place: those of the selected fields,
then those of the entities and then those of the requests. -/
def references : List (String × TypeReference) :=
  a.selection.flatMap (fun p => p.2.references p.1.name) ++
  (a.document.definitions.filter fun d => d.IsEntity).flatMap (fun d =>
    (d.objectFields?.getD []).map fun f => (d.name ++ "." ++ f.name, f.type)) ++
  (a.document.definitions.filter (·.inputFields?.isSome)).flatMap (fun d =>
    (d.inputFields?.getD []).map fun f => (d.name ++ "." ++ f.name, f.type))

end Analyzer

/-- The error that a computation ends with. -/
def errorOf? {ε α : Type} : Except ε α → Option ε
  | .error e => some e
  | .ok _ => none

theorem errorOf?_eq_some_iff {ε α : Type} {x : Except ε α} {e : ε} :
    errorOf? x = some e ↔ x = .error e := by
  cases x with
  | error e' => simp [errorOf?]
  | ok a => simp [errorOf?]

/-- The error for a reference that stands at a place, if something in it is at fault. -/
def fault? (p : String × TypeReference) : Option AnalysisError :=
  if p.2.IsFaulty then some (.invalidTypeReference p.1 p.2.render) else none

theorem fault?_eq_some_iff {p : String × TypeReference} {e : AnalysisError} :
    fault? p = some e ↔ p.2.IsFaulty ∧ e = .invalidTypeReference p.1 p.2.render := by
  unfold fault?
  split
  · next h => simp [h, eq_comm]
  · next h => simp [h]

theorem fault?_eq_none_iff {p : String × TypeReference} : fault? p = none ↔ ¬p.2.IsFaulty := by
  simp [fault?]

/-- A computation goes through references in order and fails at the first one that is at fault. -/
def Checks {α : Type} (x : Except AnalysisError α) (references : List (String × TypeReference)) :
    Prop :=
  errorOf? x = references.findSome? fault?

namespace Checks

variable {α β : Type} {x : Except AnalysisError α} {r s : List (String × TypeReference)}

theorem pure (b : β) : Checks (.ok b) [] := rfl

theorem bind {f : α → Except AnalysisError β} (hx : Checks x r)
    (hf : ∀ b, x = .ok b → Checks (f b) s) : Checks (x >>= f) (r ++ s) := by
  rw [Checks, List.findSome?_append, ← hx]
  cases x with
  | error e => rfl
  | ok b => exact hf b rfl

/-- Nothing is checked after the last step. -/
theorem map {f : α → Except AnalysisError β} (hx : Checks x r) (hf : ∀ b, ∃ c, f b = .ok c) :
    Checks (x >>= f) r := by
  rw [← r.append_nil]
  refine hx.bind fun b _ => ?_
  obtain ⟨c, hc⟩ := hf b
  rw [hc]
  exact pure c

theorem mapM {ι : Type} {f : ι → Except AnalysisError β} {of : ι → List (String × TypeReference)}
    {items : List ι} (h : ∀ i ∈ items, Checks (f i) (of i)) :
    Checks (items.mapM f) (items.flatMap of) := by
  induction items with
  | nil => exact pure []
  | cons i items ih =>
    obtain ⟨hi, hrest⟩ := List.forall_mem_cons.mp h
    rw [List.mapM_cons, List.flatMap_cons]
    exact hi.bind fun b _ => (ih hrest).map fun bs => ⟨b :: bs, rfl⟩

end Checks

namespace Analyzer

variable (a : Analyzer)

theorem checks_resolve (place : String) (t : TypeReference) :
    Checks (a.resolve place t) [(place, t)] := by
  rw [Checks, List.findSome?_singleton, fault?, resolve]
  cases hresolved : t.resolve? a.mapName with
  | none => rw [if_pos (TypeReference.resolve?_eq_none_iff.mp hresolved)]; rfl
  | some r =>
    rw [if_neg fun h => ?_]; rfl
    rw [TypeReference.resolve?_eq_none_iff.mpr h] at hresolved
    exact absurd hresolved (by simp)

/-- Named references are checked one by one. -/
theorem checks_typed {ι : Type} (nameOf placeOf : ι → String) (typeOf : ι → TypeReference)
    (items : List ι) :
    Checks (items.mapM fun x => do
        return (⟨nameOf x, ← a.resolve (placeOf x) (typeOf x)⟩ : TypedName))
      (items.map fun x => (placeOf x, typeOf x)) := by
  rw [List.map_eq_flatMap]
  exact Checks.mapM fun x _ => (a.checks_resolve (placeOf x) (typeOf x)).map fun r => ⟨_, rfl⟩

theorem checks_resolverOf (owner : String) (f : Field) :
    Checks (a.resolverOf owner f) (f.references owner) := by
  have harguments := a.checks_typed InputValue.name
    (fun x => owner ++ "." ++ f.name ++ "(" ++ x.name ++ ")") InputValue.type f.arguments
  exact harguments.bind fun arguments _ => (a.checks_resolve _ f.type).map fun r => ⟨_, rfl⟩

theorem checks_holderOf {ι : Type} (d : Definition) (nameOf : ι → String)
    (typeOf : ι → TypeReference) (fields : List ι) :
    Checks (a.holderOf d (fields.map fun f => (nameOf f, typeOf f)))
      (fields.map fun f => (d.name ++ "." ++ nameOf f, typeOf f)) := by
  have hfields := a.checks_typed Prod.fst (fun f => d.name ++ "." ++ f.1) Prod.snd
    (fields.map fun f => (nameOf f, typeOf f))
  rw [List.map_map] at hfields
  exact hfields.map fun typed => ⟨_, rfl⟩

theorem checks_analyze : Checks a.analyze a.references := by
  have hresolvers : Checks a.resolvers (a.selection.flatMap fun p => p.2.references p.1.name) := by
    rw [resolvers, selectedFields_eq_selection]
    exact Checks.mapM fun p _ => a.checks_resolverOf p.1.name p.2
  have hentities : Checks a.entities _ :=
    Checks.mapM fun d _ => a.checks_holderOf d Field.name Field.type (d.objectFields?.getD [])
  have hrequests : Checks a.requests _ :=
    Checks.mapM fun d _ => a.checks_holderOf d InputValue.name InputValue.type
      (d.inputFields?.getD [])
  rw [Document.entityTypes_eq] at hentities
  rw [references, List.append_assoc]
  exact hresolvers.bind fun resolvers _ => hentities.bind fun entities _ =>
    hrequests.map fun requests => ⟨_, rfl⟩

/-- A name with what its reference is resolved to. -/
def Types (name : String) (t : TypeReference) (typed : TypedName) : Prop :=
  typed.name = name ∧ t.resolve? a.mapName = some typed.type

/-- What an analysis says of a document: a resolver for every selected field, a holder for every
entity and for every input object, in document order, each with all arguments or fields in the order
of their declaration. -/
structure Describes (set : RequirementSet) : Prop where
  resolvers : List.Forall₂ (fun p r => r.key = ⟨p.1.name, p.2.name⟩ ∧
    List.Forall₂ (fun x => a.Types x.name x.type) p.2.arguments r.arguments ∧
    p.2.type.resolve? a.mapName = some r.returnType ∧ r.description = p.2.description)
    a.selection set.resolvers
  entities : List.Forall₂ (fun d h => h.name = d.name ∧
    List.Forall₂ (fun f => a.Types f.name f.type) (d.objectFields?.getD []) h.fields ∧
    h.description = d.description)
    (a.document.definitions.filter fun d => d.IsEntity) set.entities
  requests : List.Forall₂ (fun d h => h.name = d.name ∧
    List.Forall₂ (fun f => a.Types f.name f.type) (d.inputFields?.getD []) h.fields ∧
    h.description = d.description)
    (a.document.definitions.filter (·.inputFields?.isSome)) set.requests

variable {a}

theorem typed_eq_ok_iff {ι : Type} {nameOf placeOf : ι → String} {typeOf : ι → TypeReference}
    {items : List ι} {typed : List TypedName} :
    (items.mapM fun x => do return (⟨nameOf x, ← a.resolve (placeOf x) (typeOf x)⟩ : TypedName)) =
        .ok typed ↔
      List.Forall₂ (fun x => a.Types (nameOf x) (typeOf x)) items typed := by
  have hitem : ∀ x (t : TypedName),
      (do return ⟨nameOf x, ← a.resolve (placeOf x) (typeOf x)⟩) = Except.ok t ↔
        a.Types (nameOf x) (typeOf x) t := by
    intro x t
    simp only [bind_eq_ok, resolve_eq_ok_iff]
    constructor
    · rintro ⟨r, hr, ht⟩
      obtain rfl := Except.ok.inj ht
      exact ⟨rfl, hr⟩
    · rintro ⟨hname, hr⟩
      exact ⟨t.type, hr, by rw [← hname]; rfl⟩
  simp only [mapM_eq_ok_iff, hitem]

theorem resolverOf_eq_ok_iff {owner : String} {f : Field} {r : Resolver} :
    a.resolverOf owner f = .ok r ↔ r.key = ⟨owner, f.name⟩ ∧
      List.Forall₂ (fun x => a.Types x.name x.type) f.arguments r.arguments ∧
      f.type.resolve? a.mapName = some r.returnType ∧ r.description = f.description := by
  have harguments := fun typed => @typed_eq_ok_iff a _ InputValue.name
    (fun x => owner ++ "." ++ f.name ++ "(" ++ x.name ++ ")") InputValue.type f.arguments typed
  constructor
  · intro h
    obtain ⟨arguments, htyped, h⟩ := bind_eq_ok.mp h
    obtain ⟨type, htype, h⟩ := bind_eq_ok.mp h
    obtain rfl := Except.ok.inj h
    exact ⟨rfl, (harguments arguments).mp htyped, resolve_eq_ok_iff.mp htype, rfl⟩
  · rintro ⟨hkey, htyped, htype, hdescription⟩
    refine bind_eq_ok.mpr ⟨r.arguments, (harguments _).mpr htyped, ?_⟩
    refine bind_eq_ok.mpr ⟨r.returnType, resolve_eq_ok_iff.mpr htype, ?_⟩
    rw [← hkey, ← hdescription]
    rfl

theorem holderOf_eq_ok_iff {ι : Type} {d : Definition} {nameOf : ι → String}
    {typeOf : ι → TypeReference} {fields : List ι} {h : Holder} :
    a.holderOf d (fields.map fun f => (nameOf f, typeOf f)) = .ok h ↔ h.name = d.name ∧
      List.Forall₂ (fun f => a.Types (nameOf f) (typeOf f)) fields h.fields ∧
      h.description = d.description := by
  have hfields := fun typed => @typed_eq_ok_iff a _ Prod.fst (fun f => d.name ++ "." ++ f.1)
    Prod.snd (fields.map fun f => (nameOf f, typeOf f)) typed
  simp only [List.forall₂_map_left_iff] at hfields
  constructor
  · intro hholder
    obtain ⟨typed, htyped, hholder⟩ := bind_eq_ok.mp hholder
    obtain rfl := Except.ok.inj hholder
    exact ⟨rfl, (hfields typed).mp htyped, rfl⟩
  · rintro ⟨hname, htyped, hdescription⟩
    refine bind_eq_ok.mpr ⟨h.fields, (hfields _).mpr htyped, ?_⟩
    rw [← hname, ← hdescription]
    rfl

theorem analyze_eq_ok_iff {set : RequirementSet} : a.analyze = .ok set ↔ a.Describes set := by
  have hresolvers : a.resolvers = .ok set.resolvers ↔ _ := mapM_eq_ok_iff
  have hentities : a.entities = .ok set.entities ↔ _ := mapM_eq_ok_iff
  have hrequests : a.requests = .ok set.requests ↔ _ := mapM_eq_ok_iff
  rw [selectedFields_eq_selection] at hresolvers
  rw [Document.entityTypes_eq] at hentities
  simp only [resolverOf_eq_ok_iff] at hresolvers
  simp only [holderOf_eq_ok_iff] at hentities hrequests
  rw [analyze_eq_ok_iff_parts, hresolvers, hentities, hrequests]
  constructor
  · rintro ⟨hresolvers, hentities, hrequests⟩
    exact ⟨hresolvers, hentities, hrequests⟩
  · intro h
    exact ⟨h.resolvers, h.entities, h.requests⟩

variable (a)

/-- An analysis fails exactly if something is at fault in a reference that it comes by, and then it
names the first one. Otherwise it describes what it selects. -/
theorem analyze_outcome :
    ((∃ e, a.analyze = .error e) ↔ ∃ p ∈ a.references, p.2.IsFaulty) ∧
    (∀ e, a.analyze = .error e ↔ ∃ before place t after,
      a.references = before ++ (place, t) :: after ∧ (∀ p ∈ before, ¬p.2.IsFaulty) ∧ t.IsFaulty ∧
        e = .invalidTypeReference place t.render) ∧
    ∀ set, a.analyze = .ok set ↔ a.Describes set := by
  have herror : ∀ e, a.analyze = .error e ↔ a.references.findSome? fault? = some e := by
    intro e
    rw [← errorOf?_eq_some_iff, a.checks_analyze]
  refine ⟨?_, fun e => ?_, fun set => analyze_eq_ok_iff⟩
  · constructor
    · rintro ⟨e, he⟩
      obtain ⟨p, hp, hfault⟩ := List.exists_of_findSome?_eq_some ((herror e).mp he)
      exact ⟨p, hp, (fault?_eq_some_iff.mp hfault).1⟩
    · rintro ⟨p, hp, hfault⟩
      have hsome : (a.references.findSome? fault?).isSome = true :=
        List.findSome?_isSome_iff.mpr ⟨p, hp, by rw [fault?, if_pos hfault]; rfl⟩
      obtain ⟨e, he⟩ := Option.isSome_iff_exists.mp hsome
      exact ⟨e, (herror e).mpr he⟩
  · simp only [herror, List.findSome?_eq_some_iff, fault?_eq_some_iff, fault?_eq_none_iff]
    constructor
    · rintro ⟨before, ⟨place, t⟩, after, hsplit, ⟨hfault, he⟩, hbefore⟩
      exact ⟨before, place, t, after, hsplit, hbefore, hfault, he⟩
    · rintro ⟨before, place, t, after, hsplit, hbefore, hfault, he⟩
      exact ⟨before, (place, t), after, hsplit, ⟨hfault, he⟩, hbefore⟩

end Analyzer

end GraphSchema
