import GraphSchema.Merge.Sources
import GraphSchema.Proofs.Merge.Bucket
import GraphSchema.Proofs.Merge.Compatible
import GraphSchema.Proofs.Run

/-!
# Merging documents

The state of a merge is described by the definitions added so far, each with its
origin. Adding one more is accepted exactly if all of them together are
compatible, so a merge succeeds exactly on compatible documents, and the merged
document is their union.
-/

namespace GraphSchema

theorem OperationKind.ofTypeName?_eq_some_iff {name : String} {k : OperationKind} :
    ofTypeName? name = some k ↔ name = k.typeName := by
  constructor
  · intro h
    exact (by simpa using List.find?_some h : k.typeName = name).symm
  · rintro rfl
    cases k <;> decide

namespace Definition

/-- An object with the name of a root type is one. -/
theorem rootKind?_eq_some_iff {d : Definition} {k : OperationKind} :
    d.rootKind? = some k ↔ d.objectFields?.isSome = true ∧ d.name = k.typeName := by
  rw [← OperationKind.ofTypeName?_eq_some_iff]
  unfold rootKind? objectFields?
  cases d.body <;> simp

theorem definitionClass_of_objectFields? {d : Definition} (h : d.objectFields?.isSome = true) :
    d.definitionClass = .namedType := by
  unfold objectFields? at h
  unfold definitionClass
  cases hbody : d.body <;> simp_all

theorem definitionClass_of_inputFields? {d : Definition} (h : d.inputFields?.isSome = true) :
    d.definitionClass = .inputObject := by
  unfold inputFields? at h
  unfold definitionClass
  cases hbody : d.body <;> simp_all

end Definition

namespace Merge

open Bucket (Agree)

/-- The puts into the bucket of a class, when definitions with origins are added. -/
def plainLog (c : DefinitionClass) (log : List (String × Definition)) :
    List (String × Bucket.Entry Definition) :=
  (log.filter fun p => p.2.rootKind? = none ∧ p.2.definitionClass = c).map fun p =>
    (p.2.name, ⟨p.2, p.1⟩)

/-- The put of a root type's field. -/
def fieldPut (origin : String) (f : Field) : String × Bucket.Entry Field := (f.name, ⟨f, origin⟩)

/-- The puts into the bucket of an operation kind, when definitions with origins are added. -/
def fieldLog (k : OperationKind) (log : List (String × Definition)) :
    List (String × Bucket.Entry Field) :=
  (log.filter fun p => p.2.rootKind? = some k).flatMap fun p =>
    (p.2.objectFields?.getD []).map (fieldPut p.1)

section

variable (log rest : List (String × Definition))

theorem map_item_plainLog (c : DefinitionClass) :
    (plainLog c log).map (·.2.item) = plain c (log.map (·.2)) := by
  simp [plainLog, plain, List.filter_map, Function.comp_def]

theorem map_item_fieldLog (k : OperationKind) :
    (fieldLog k log).map (·.2.item) = contributed k (log.map (·.2)) := by
  simp [fieldLog, contributed, fieldPut, List.filter_map, List.flatMap_map, List.map_flatMap,
    Function.comp_def]

theorem plainLog_append (c : DefinitionClass) :
    plainLog c (log ++ rest) = plainLog c log ++ plainLog c rest := by
  simp [plainLog, List.filter_append]

theorem fieldLog_append (k : OperationKind) :
    fieldLog k (log ++ rest) = fieldLog k log ++ fieldLog k rest := by
  simp [fieldLog, List.filter_append]

theorem name_plainLog (c : DefinitionClass) : ∀ x ∈ plainLog c log, x.1 = x.2.item.name := by
  intro x hx
  obtain ⟨p, -, rfl⟩ := List.mem_map.mp hx
  rfl

theorem name_fieldLog (k : OperationKind) : ∀ x ∈ fieldLog k log, x.1 = x.2.item.name := by
  intro x hx
  obtain ⟨p, -, hp⟩ := List.mem_flatMap.mp hx
  obtain ⟨f, -, rfl⟩ := List.mem_map.mp hp
  rfl

end

namespace State

/-- The buckets hold what definitions with origins put into them. -/
structure Holds (s : State) (log : List (String × Definition)) : Prop where
  plain : ∀ c, (s.bucket c).Holds (plainLog c log)
  fields : ∀ k, (s.rootFields.get k).Holds (fieldLog k log)

theorem holds_empty : empty.Holds [] where
  plain c := by cases c <;> exact Bucket.holds_empty
  fields k := by cases k <;> exact Bucket.holds_empty

@[simp] theorem bucket_setBucket (s : State) (c other : DefinitionClass) (b : Bucket Definition) :
    (s.setBucket c b).bucket other = if c = other then b else s.bucket other := by
  cases c <;> cases other <;> rfl

@[simp] theorem rootFields_setBucket (s : State) (c : DefinitionClass) (b : Bucket Definition) :
    (s.setBucket c b).rootFields = s.rootFields := by
  cases c <;> rfl

/-- What stands in the classes when only root fields are added. -/
theorem bucket_of_rootFields (s : State) (fields : PerOperation (Bucket Field))
    (c : DefinitionClass) : ({ s with rootFields := fields } : State).bucket c = s.bucket c := by
  cases c <;> rfl

variable {s t : State} {log : List (String × Definition)} {origin : String}

/-- A root field is added exactly if its bucket takes it, and nothing else changes. -/
theorem addRootField_eq_ok_iff {kind : OperationKind} {f : Field} :
    addRootField origin kind s f = .ok t ↔
      (∀ first, ((s.rootFields.get kind).insert f.name f origin).1 ≠ .conflict first) ∧
        t = { s with
          rootFields := s.rootFields.set kind ((s.rootFields.get kind).insert f.name f origin).2 }
    := by
  unfold addRootField
  cases hi : (s.rootFields.get kind).insert f.name f origin with
  | mk outcome b => cases outcome <;> simp [eq_comm]

/-- The state has taken in some fields of a root type since it was another one. -/
structure TookFields (kind : OperationKind) (s t : State) (before fields) : Prop where
  taken : (t.rootFields.get kind).Holds (before ++ fields)
  agree : Agree (before ++ fields)
  others : ∀ other, other ≠ kind → t.rootFields.get other = s.rootFields.get other
  buckets : ∀ c, t.bucket c = s.bucket c

/-- The fields of a root type are taken exactly if they agree with each other and with the ones
before. -/
theorem foldlM_addRootField {kind : OperationKind} {before : List (String × Bucket.Entry Field)}
    (hb : (s.rootFields.get kind).Holds before) (ha : Agree before) (fields : List Field) :
    ((∃ t, fields.foldlM (addRootField origin kind) s = .ok t) ↔
        Agree (before ++ fields.map (fieldPut origin))) ∧
      ∀ t, fields.foldlM (addRootField origin kind) s = .ok t →
        TookFields kind s t before (fields.map (fieldPut origin)) := by
  have hassoc : ∀ (l : List Field) (f : Field), before ++ (l ++ [f]).map (fieldPut origin) =
      (before ++ l.map (fieldPut origin)) ++ [(f.name, ⟨f, origin⟩)] := by
    simp [fieldPut]
  have hrun := foldlM_ok_iff (addRootField origin kind)
    (fun t l => TookFields kind s t before (l.map (fieldPut origin)))
    (fun l => Agree (before ++ l.map (fieldPut origin)))
    (fun t l h => h.agree)
    (fun l m h => by
      rw [List.map_append, ← List.append_assoc] at h
      exact h.of_append)
    (fun t l f h => by
      rw [hassoc, ← h.taken.insert_accepts_iff h.agree]
      simp [addRootField_eq_ok_iff])
    (fun t l f u h hu => by
      obtain ⟨hacc, rfl⟩ := addRootField_eq_ok_iff.mp hu
      refine ⟨?_, ?_, ?_, ?_⟩
      · rw [hassoc, PerOperation.get_set_self]
        exact h.taken.insert f.name f origin
      · rw [hassoc]
        exact (h.taken.insert_accepts_iff h.agree _ _ _).mp hacc
      · intro other ho
        rw [PerOperation.get_set_of_ne _ _ ho]
        exact h.others other ho
      · intro c
        rw [bucket_of_rootFields]
        exact h.buckets c)
    fields (s := s) (l := [])
    ⟨by simpa using hb, by simpa using ha, fun _ _ => rfl, fun _ => rfl⟩
  simpa using hrun

theorem Holds.originOf?_isNone_iff (h : s.Holds log) (name : String) :
    s.namedTypes.originOf? name = none ↔
      ∀ e ∈ Merge.plain .namedType (log.map (·.2)), e.name ≠ name := by
  have hb : s.namedTypes.Holds (plainLog .namedType log) := h.plain .namedType
  rw [hb.originOf?_eq, Option.map_eq_none_iff, List.lookup_eq_none_iff, ← map_item_plainLog]
  simp only [bne_iff_ne, List.forall_mem_map]
  constructor
  · intro hn x hx he
    exact hn x hx (by rw [name_plainLog log _ x hx, he])
  · intro hn x hx he
    exact hn x hx (by rw [← name_plainLog log _ x hx, he])

theorem Holds.firstOrigin?_isNone_iff (h : s.Holds log) (k : OperationKind) :
    (s.rootFields.get k).firstOrigin? = none ↔ contributed k (log.map (·.2)) = [] := by
  rw [(h.fields k).firstOrigin?_eq, ← map_item_fieldLog]
  simp

theorem Holds.rootOrigin?_isNone_iff (h : s.Holds log) (d : Definition) :
    s.rootOrigin? d = none ↔ (d.definitionClass = .namedType →
      ∀ k, d.name = k.typeName → contributed k (log.map (·.2)) = []) := by
  unfold rootOrigin?
  cases hc : d.definitionClass with
  | scalar => simp
  | inputObject => simp
  | namedType =>
    simp only [Option.bind_eq_none_iff, OperationKind.ofTypeName?_eq_some_iff,
      h.firstOrigin?_isNone_iff, forall_const]

/-- The fields of a root type are added exactly if they agree, and no other type has its name. -/
theorem addRootFields_spec (h : s.Holds log) {k : OperationKind} (ha : Agree (fieldLog k log))
    (fields : List Field) :
    ((∃ t, s.addRootFields origin k fields = .ok t) ↔
        (fields ≠ [] → ∀ e ∈ Merge.plain .namedType (log.map (·.2)), e.name ≠ k.typeName) ∧
          Agree (fieldLog k log ++ fields.map (fieldPut origin))) ∧
      ∀ t, s.addRootFields origin k fields = .ok t →
        TookFields k s t (fieldLog k log) (fields.map (fieldPut origin)) := by
  have hrun := @foldlM_addRootField s origin k _ (h.fields k) ha fields
  rw [← h.originOf?_isNone_iff]
  unfold addRootFields
  cases fields with
  | nil => simpa using hrun
  | cons f r =>
    cases ho : s.namedTypes.originOf? k.typeName with
    | none => simpa using hrun
    | some first => simp

theorem addPlain_eq_ok_iff {d : Definition} :
    s.addPlain origin d = .ok t ↔ s.rootOrigin? d = none ∧
      (∀ first, ((s.bucket d.definitionClass).insert d.name d origin).1 ≠ .conflict first) ∧
      t = s.setBucket d.definitionClass
        ((s.bucket d.definitionClass).insert d.name d origin).2 := by
  unfold addPlain
  cases hr : s.rootOrigin? d with
  | some first => simp
  | none =>
    cases hi : (s.bucket d.definitionClass).insert d.name d origin with
    | mk outcome b => cases outcome <;> simp [hi, eq_comm]

theorem agree_plainLog_iff (c : DefinitionClass) (log : List (String × Definition)) :
    Agree (plainLog c log) ↔ ∀ d ∈ Merge.plain c (log.map (·.2)),
      ∀ e ∈ Merge.plain c (log.map (·.2)), d.name = e.name → d = e := by
  rw [Bucket.agree_iff (name_plainLog log c), map_item_plainLog]

theorem agree_fieldLog_iff (k : OperationKind) (log : List (String × Definition)) :
    Agree (fieldLog k log) ↔ ∀ f ∈ contributed k (log.map (·.2)),
      ∀ g ∈ contributed k (log.map (·.2)), f.name = g.name → f = g := by
  rw [Bucket.agree_iff (name_fieldLog log k), map_item_fieldLog]

theorem plainLog_of_rootKind {p : String × Definition} {k : OperationKind}
    (hk : p.2.rootKind? = some k) (c : DefinitionClass) : plainLog c [p] = [] := by
  simp [plainLog, hk]

theorem plainLog_of_plain {p : String × Definition} (hk : p.2.rootKind? = none)
    (c : DefinitionClass) :
    plainLog c [p] = if p.2.definitionClass = c then [(p.2.name, ⟨p.2, p.1⟩)] else [] := by
  by_cases hc : p.2.definitionClass = c <;> simp [plainLog, hk, hc]

theorem fieldLog_of_rootKind {p : String × Definition} {k : OperationKind}
    (hk : p.2.rootKind? = some k) (other : OperationKind) :
    fieldLog other [p] =
      if k = other then (p.2.objectFields?.getD []).map (fieldPut p.1) else [] := by
  by_cases ho : k = other <;> simp [fieldLog, hk, ho]

theorem fieldLog_of_plain {p : String × Definition} (hk : p.2.rootKind? = none)
    (k : OperationKind) : fieldLog k [p] = [] := by
  simp [fieldLog, hk]

/-- One more definition is accepted exactly if it is compatible with all before it. -/
theorem Holds.accepts_iff (h : s.Holds log) (hc : Compatible (log.map (·.2)))
    (p : String × Definition) :
    (∃ t, s.addDefinition p.1 p.2 = .ok t) ↔ Compatible ((log ++ [p]).map (·.2)) := by
  rw [List.map_append, List.map_cons, List.map_nil]
  unfold addDefinition
  cases hk : p.2.rootKind? with
  | some k =>
    have ha := (agree_fieldLog_iff k log).mpr (hc.fields k)
    have hname : ∀ x ∈ fieldLog k log ++ (p.2.objectFields?.getD []).map (fieldPut p.1),
        x.1 = x.2.item.name := by
      simp only [List.mem_append]
      rintro x (hx | hx)
      · exact name_fieldLog log k x hx
      · obtain ⟨f, -, rfl⟩ := List.mem_map.mp hx
        rfl
    have hitems : (fieldLog k log ++ (p.2.objectFields?.getD []).map (fieldPut p.1)).map
        (·.2.item) = contributed k (log.map (·.2)) ++ p.2.objectFields?.getD [] := by
      rw [List.map_append, map_item_fieldLog]
      simp [fieldPut, Function.comp_def]
    -- Of a root type only the fields count, so it is judged by the bucket of its kind.
    rw [compatible_append_root hk, ← hitems, ← Bucket.agree_iff hname]
    simp only [(addRootFields_spec h ha (p.2.objectFields?.getD [])).1, hc, true_and]
    exact and_comm
  | none =>
    have ha := (agree_plainLog_iff p.2.definitionClass log).mpr (hc.definitions _)
    have hput := (h.plain p.2.definitionClass).insert_accepts_iff ha p.2.name p.2 p.1
    rw [Bucket.agree_append_singleton] at hput
    have hsame : (∀ x ∈ plainLog p.2.definitionClass log, x.1 = p.2.name → x.2.item = p.2) ↔
        ∀ e ∈ Merge.plain p.2.definitionClass (log.map (·.2)), e.name = p.2.name → e = p.2 := by
      rw [← map_item_plainLog, List.forall_mem_map]
      refine forall₂_congr fun x hx => ?_
      rw [name_plainLog log _ x hx]
    rw [compatible_append_plain hk]
    simp only [addPlain_eq_ok_iff, exists_and_left, exists_eq, and_true, hput, ha, true_and,
      hsame, h.rootOrigin?_isNone_iff, hc]
    exact and_comm

/-- What is accepted is held from then on. -/
theorem Holds.addDefinition (h : s.Holds log) (hc : Compatible (log.map (·.2)))
    {p : String × Definition} (ht : s.addDefinition p.1 p.2 = .ok t) : t.Holds (log ++ [p]) := by
  unfold State.addDefinition at ht
  cases hk : p.2.rootKind? with
  | some k =>
    rw [hk] at ht
    have ha := (agree_fieldLog_iff k log).mpr (hc.fields k)
    have htook := (addRootFields_spec h ha _).2 t ht
    constructor
    · intro c
      rw [plainLog_append, plainLog_of_rootKind hk, List.append_nil, htook.buckets]
      exact h.plain c
    · intro other
      rw [fieldLog_append, fieldLog_of_rootKind hk]
      by_cases ho : k = other
      · subst ho
        rw [if_pos rfl]
        exact htook.taken
      · rw [if_neg ho, List.append_nil, htook.others other (Ne.symm ho)]
        exact h.fields other
  | none =>
    rw [hk] at ht
    obtain ⟨-, -, rfl⟩ := addPlain_eq_ok_iff.mp ht
    constructor
    · intro c
      rw [plainLog_append, plainLog_of_plain hk, bucket_setBucket]
      by_cases hd : p.2.definitionClass = c
      · subst hd
        rw [if_pos rfl, if_pos rfl]
        exact (h.plain _).insert p.2.name p.2 p.1
      · rw [if_neg hd, if_neg hd, List.append_nil]
        exact h.plain c
    · intro k
      rw [fieldLog_append, fieldLog_of_plain hk, List.append_nil, rootFields_setBucket]
      exact h.fields k

/-- The document of a state is the union of the definitions that it holds. -/
theorem Holds.document_eq (h : s.Holds log) (hc : Compatible (log.map (·.2))) :
    s.document = union (log.map (·.2)) := by
  have hplain : ∀ c, (s.bucket c).items = (Merge.plain c (log.map (·.2))).eraseDups := by
    intro c
    rw [(h.plain c).items_eq, Bucket.map_item_firsts (name_plainLog log c)
      ((agree_plainLog_iff c log).mpr (hc.definitions c)), map_item_plainLog]
  have hfields : ∀ k, (s.rootFields.get k).items =
      (contributed k (log.map (·.2))).eraseDups := by
    intro k
    rw [(h.fields k).items_eq, Bucket.map_item_firsts (name_fieldLog log k)
      ((agree_fieldLog_iff k log).mpr (hc.fields k)), map_item_fieldLog]
  have hroots : s.rootObject? = (Merge.rootObject? · (log.map (·.2))) := by
    funext k
    cases h : (contributed k (log.map (·.2))).eraseDups <;>
      simp only [State.rootObject?, Merge.rootObject?, hfields, h]
  rw [document, union, hroots, ← hplain .scalar, ← hplain .namedType, ← hplain .inputObject]
  rfl

end State

/-- The definitions of documents in order, each with the origin of its document. -/
def definitionsWithOrigins (documents : List (String × Document)) : List (String × Definition) :=
  documents.flatMap fun p => p.2.definitions.map (p.1, ·)

/-- The definitions of documents in order. -/
def allDefinitions (documents : List (String × Document)) : List Definition :=
  documents.flatMap (·.2.definitions)

theorem allDefinitions_append (xs ys : List (String × Document)) :
    allDefinitions (xs ++ ys) = allDefinitions xs ++ allDefinitions ys := List.flatMap_append

theorem map_definitionsWithOrigins (documents : List (String × Document)) :
    (definitionsWithOrigins documents).map (·.2) = allDefinitions documents := by
  simp [definitionsWithOrigins, allDefinitions, List.map_flatMap, Function.comp_def]

theorem foldlM_addDocument (documents : List (String × Document)) (s : State) :
    documents.foldlM (fun s (origin, d) => s.addDocument origin d) s =
      (definitionsWithOrigins documents).foldlM (fun s p => s.addDefinition p.1 p.2) s := by
  rw [definitionsWithOrigins, foldlM_flatMap]
  congr 1
  funext s p
  rw [List.foldlM_map]
  rfl

/-- Adding documents succeeds exactly if all their definitions are compatible, and ends in a state
that holds them. -/
theorem addDocuments_spec (documents : List (String × Document)) :
    ((∃ t, documents.foldlM (fun s (origin, d) => s.addDocument origin d) State.empty = .ok t) ↔
        Compatible (allDefinitions documents)) ∧
      ∀ t, documents.foldlM (fun s (origin, d) => s.addDocument origin d) State.empty = .ok t →
        t.Holds (definitionsWithOrigins documents) := by
  have hrun := foldlM_ok_iff (fun (s : State) (p : String × Definition) =>
      s.addDefinition p.1 p.2)
    (fun s l => s.Holds l ∧ Compatible (l.map (·.2))) (fun l => Compatible (l.map (·.2)))
    (fun s l h => h.2)
    (fun l m h => Compatible.of_append (by rwa [← List.map_append]))
    (fun s l p h => h.1.accepts_iff h.2 p)
    (fun s l p t h ht => ⟨h.1.addDefinition h.2 ht, (h.1.accepts_iff h.2 p).mp ⟨t, ht⟩⟩)
    (definitionsWithOrigins documents) (s := State.empty) (l := [])
    ⟨State.holds_empty, compatible_nil⟩
  rw [List.nil_append, map_definitionsWithOrigins] at hrun
  simp only [foldlM_addDocument]
  exact ⟨hrun.1, fun t ht => (hrun.2 t ht).1⟩

theorem ofDocuments_of_compatible {documents : List (String × Document)} (hne : documents ≠ [])
    (hc : Compatible (allDefinitions documents)) :
    ofDocuments documents = .ok (union (allDefinitions documents)) := by
  obtain ⟨hok, hholds⟩ := addDocuments_spec documents
  obtain ⟨t, ht⟩ := hok.mpr hc
  have hd := (hholds t ht).document_eq (map_definitionsWithOrigins _ ▸ hc)
  rw [map_definitionsWithOrigins] at hd
  rw [ofDocuments, if_neg (by simpa using hne), bind_eq_ok]
  exact ⟨t, ht, congrArg Except.ok hd⟩

theorem compatible_of_ofDocuments {documents : List (String × Document)} {m : Document}
    (h : ofDocuments documents = .ok m) :
    documents ≠ [] ∧ Compatible (allDefinitions documents) := by
  unfold ofDocuments at h
  cases documents with
  | nil => simp at h
  | cons p r =>
    rw [if_neg (by simp), bind_eq_ok] at h
    obtain ⟨t, ht, -⟩ := h
    exact ⟨by simp, (addDocuments_spec _).1.mp ⟨t, ht⟩⟩

/-- Documents can be merged exactly if there are some and all their definitions are compatible, and
then the merged document is the union of these definitions. -/
theorem ofDocuments_eq_ok_iff (documents : List (String × Document)) (m : Document) :
    ofDocuments documents = .ok m ↔ documents ≠ [] ∧
      Compatible (allDefinitions documents) ∧ m = union (allDefinitions documents) := by
  constructor
  · intro h
    obtain ⟨hne, hc⟩ := compatible_of_ofDocuments h
    rw [ofDocuments_of_compatible hne hc] at h
    exact ⟨hne, hc, (Except.ok.inj h).symm⟩
  · rintro ⟨hne, hc, rfl⟩
    exact ofDocuments_of_compatible hne hc

end Merge

end GraphSchema
