import GraphSchema.Proofs.Merge.Documents

/-!
# The first conflict

A merge that fails tells of the first conflict in the order of work. The error names the document
that brought in the entry in question, and the one that is in conflict with it. It stays the same
whatever documents come behind.
-/

namespace GraphSchema.Merge

/-- The definitions of a document that have a class and a name and are no root types. -/
def definitionsNamed (c : DefinitionClass) (name : String) (d : Document) : List Definition :=
  (plain c d.definitions).filter (·.name == name)

/-- The fields that the root types of a document contribute to an operation kind. -/
def fieldsFor (k : OperationKind) (d : Document) : List Field := contributed k d.definitions

/-- Those of them that have a name. -/
def fieldsNamed (k : OperationKind) (name : String) (d : Document) : List Field :=
  (fieldsFor k d).filter (·.name == name)

/-- The i-th document is the first to bring in something of a kind, and begins with `a`. -/
structure Introduces {α : Type} (brought : Document → List α) (documents : List (String × Document))
    (i : Nat) (origin : String) (a : α) : Prop where
  brings : ∃ d, documents[i]? = some (origin, d) ∧ (brought d).head? = some a
  earlier : ∀ p ∈ documents.take i, brought p.2 = []

/-- The j-th document is in conflict with what the i-th one was the first to bring in, and an error
says so. -/
inductive Clash (documents : List (String × Document)) (i j : Nat) : MergeError → Prop
  /-- A definition differs from the first one of its class and name. -/
  | definition {c : DefinitionClass} {name first second : String} {d e : Definition}
      {later : Document} (hfirst : Introduces (definitionsNamed c name) documents i first d)
      (hlater : documents[j]? = some (second, later)) (he : e ∈ definitionsNamed c name later)
      (hne : e ≠ d) : Clash documents i j (.definitionConflict c name first second)
  /-- A root type's field differs from the first one of its name. -/
  | rootField {k : OperationKind} {name first second : String} {f g : Field} {later : Document}
      (hfirst : Introduces (fieldsNamed k name) documents i first f)
      (hlater : documents[j]? = some (second, later)) (hg : g ∈ fieldsNamed k name later)
      (hne : g ≠ f) : Clash documents i j (.rootFieldConflict k name first second)
  /-- A type has the name of a root type that has a field already. -/
  | takenName {k : OperationKind} {first second : String} {f : Field} {e : Definition}
      {later : Document} (hfirst : Introduces (fieldsFor k) documents i first f)
      (hlater : documents[j]? = some (second, later))
      (he : e ∈ definitionsNamed .namedType k.typeName later) :
      Clash documents i j (.definitionConflict .namedType k.typeName first second)
  /-- A root type gets a field when another type has its name already. -/
  | lateField {k : OperationKind} {first second : String} {d : Definition} {g : Field}
      {later : Document}
      (hfirst : Introduces (definitionsNamed .namedType k.typeName) documents i first d)
      (hlater : documents[j]? = some (second, later)) (hg : g ∈ fieldsFor k later) :
      Clash documents i j (.definitionConflict .namedType k.typeName first second)

section Logs

variable {α β : Type} {brought : Document → List α} {before after : List (String × Document)}
  {origin : String} {later : Document} {done : List α}

theorem Introduces.cons {documents : List (String × Document)} {i : Nat} {a : α}
    (h : Introduces brought documents i origin a) {p : String × Document}
    (hp : brought p.2 = []) : Introduces brought (p :: documents) (i + 1) origin a where
  brings := by simpa using h.brings
  earlier := by simpa [hp] using h.earlier

/-- What stands first in a log was brought in by the first document that brings in anything. -/
theorem introduces_of_head? (put : String → α → β) (hdone : done <+: brought later) {x : β}
    (h : (before.flatMap (fun p => (brought p.2).map (put p.1)) ++ done.map (put origin)).head? =
      some x) :
    ∃ i ≤ before.length, ∃ first a, x = put first a ∧
      Introduces brought (before ++ (origin, later) :: after) i first a := by
  induction before with
  | nil =>
    rw [List.flatMap_nil, List.nil_append, List.head?_map] at h
    obtain ⟨a, ha, rfl⟩ := Option.map_eq_some_iff.mp h
    obtain ⟨r, hr⟩ := hdone
    have hhead : (brought later).head? = some a := by rw [← hr, List.head?_append, ha]; rfl
    exact ⟨0, Nat.le_refl 0, origin, a, rfl, ⟨later, rfl, hhead⟩, by simp⟩
  | cons p before ih =>
    cases hp : brought p.2 with
    | nil =>
      rw [List.flatMap_cons, hp, List.map_nil, List.nil_append] at h
      obtain ⟨i, hi, first, a, hx, hintroduces⟩ := ih h
      exact ⟨i + 1, Nat.succ_le_succ hi, first, a, hx, hintroduces.cons hp⟩
    | cons a r =>
      rw [List.flatMap_cons, hp] at h
      obtain rfl : put p.1 a = x := Option.some.inj h
      exact ⟨0, Nat.zero_le _, p.1, a, rfl, ⟨p.2, rfl, by rw [hp]; rfl⟩, by simp⟩

theorem lookup_eq_head? (log : List (String × β)) (name : String) :
    log.lookup name = ((log.filter (·.1 == name)).head?).map (·.2) := by
  induction log with
  | nil => rfl
  | cons e log ih =>
    obtain ⟨key, b⟩ := e
    by_cases hk : key = name
    · simp [hk]
    · have hn : (name == key) = false := by simpa using Ne.symm hk
      simp [List.lookup_cons, hn, hk, ih]

/-- What is found in a log was brought in by the first document with something of its name. -/
theorem introduces_of_lookup (nameOf : α → String) (hdone : done <+: brought later) {name : String}
    {entry : Bucket.Entry α}
    (h : (before.flatMap (fun p => (brought p.2).map fun a => (nameOf a, Bucket.Entry.mk a p.1)) ++
      done.map fun a => (nameOf a, Bucket.Entry.mk a origin)).lookup name = some entry) :
    ∃ i ≤ before.length, Introduces (fun d => (brought d).filter (nameOf · == name))
      (before ++ (origin, later) :: after) i entry.origin entry.item := by
  rw [lookup_eq_head?, List.filter_append, List.filter_flatMap] at h
  simp only [List.filter_map] at h
  obtain ⟨x, hx, hentry⟩ := Option.map_eq_some_iff.mp h
  obtain ⟨i, hi, first, a, rfl, hintroduces⟩ :=
    @introduces_of_head? _ _ (fun d => (brought d).filter (nameOf · == name)) _ after _ _ _
      (fun origin a => (nameOf a, Bucket.Entry.mk a origin)) (hdone.filter _) _ hx
  rw [← hentry]
  exact ⟨i, hi, hintroduces⟩

end Logs

theorem plainLog_documents (c : DefinitionClass) (documents : List (String × Document)) :
    plainLog c (definitionsWithOrigins documents) = documents.flatMap fun p =>
      (plain c p.2.definitions).map fun d => (d.name, ⟨d, p.1⟩) := by
  simp [plainLog, definitionsWithOrigins, plain, List.filter_flatMap, List.map_flatMap,
    List.filter_map, Function.comp_def]

theorem fieldLog_documents (k : OperationKind) (documents : List (String × Document)) :
    fieldLog k (definitionsWithOrigins documents) = documents.flatMap fun p =>
      (fieldsFor k p.2).map fun f => (f.name, ⟨f, p.1⟩) := by
  induction documents with
  | nil => rfl
  | cons p documents ih =>
    have hcons : definitionsWithOrigins (p :: documents) =
        p.2.definitions.map (p.1, ·) ++ definitionsWithOrigins documents := List.flatMap_cons
    rw [hcons, fieldLog_append, ih, List.flatMap_cons]
    simp only [fieldLog, fieldsFor, contributed, List.filter_map, List.flatMap_map,
      List.map_flatMap, Function.comp_def]
    rfl

theorem Bucket.Holds.conflict {α : Type} [DecidableEq α] {b : Bucket α}
    {log : List (String × Bucket.Entry α)} (h : b.Holds log) {name : String} {item : α}
    {origin first : String} (hc : (b.insert name item origin).1 = .conflict first) :
    ∃ e, log.lookup name = some e ∧ e.item ≠ item ∧ e.origin = first := by
  rw [h.insert_outcome] at hc
  cases hl : log.lookup name with
  | none =>
    rw [hl] at hc
    exact absurd hc (by simp)
  | some e =>
    rw [hl] at hc
    by_cases he : e.item = item
    · simp only [he, if_true] at hc
      exact absurd hc (by simp)
    · simp only [he, if_false] at hc
      exact ⟨e, rfl, he, Bucket.Outcome.conflict.inj hc⟩

section Parts

variable {before after : List (String × Document)} {origin : String} {ds : List Definition}
  {later : Document}

/-- Of what some documents and a part of one more hold, a definition that stands under a name was
brought in by the first document with a definition of its class and name. -/
theorem introduces_definition {c : DefinitionClass} (hds : ds <+: later.definitions)
    {name : String} {entry : Bucket.Entry Definition}
    (hl : (plainLog c (definitionsWithOrigins (before ++ [(origin, ⟨ds⟩)]))).lookup name =
      some entry) :
    ∃ i ≤ before.length, Introduces (definitionsNamed c name)
      (before ++ (origin, later) :: after) i entry.origin entry.item := by
  rw [plainLog_documents, List.flatMap_append, List.flatMap_singleton] at hl
  exact introduces_of_lookup Definition.name (hds.filter _) hl

theorem fieldLog_part (k : OperationKind) (fields : List Field) :
    fieldLog k (definitionsWithOrigins (before ++ [(origin, ⟨ds⟩)])) ++
        fields.map (fieldPut origin) =
      before.flatMap (fun p => (fieldsFor k p.2).map (fieldPut p.1)) ++
        (contributed k ds ++ fields).map (fieldPut origin) := by
  rw [fieldLog_documents, List.flatMap_append, List.flatMap_singleton, List.map_append,
    List.append_assoc]
  rfl

end Parts

namespace State

variable {s t : State} {origin : String} {error : MergeError}

theorem addRootField_error {k : OperationKind} {f : Field}
    (h : addRootField origin k s f = .error error) : ∃ first,
      ((s.rootFields.get k).insert f.name f origin).1 = .conflict first ∧
        error = .rootFieldConflict k f.name first origin := by
  unfold addRootField at h
  cases hi : (s.rootFields.get k).insert f.name f origin with
  | mk outcome b =>
    rw [hi] at h
    cases outcome with
    | conflict first => exact ⟨first, rfl, (Except.error.inj h).symm⟩
    | inserted => cases h
    | duplicate => cases h

/-- The fields of a root type fail for its name, or one by one. -/
theorem addRootFields_error {k : OperationKind} {fields : List Field}
    (h : s.addRootFields origin k fields = .error error) :
    (∃ first, fields ≠ [] ∧ s.namedTypes.originOf? k.typeName = some first ∧
      error = .definitionConflict .namedType k.typeName first origin) ∨
    fields.foldlM (addRootField origin k) s = .error error := by
  unfold addRootFields at h
  split at h
  · next f r first ho =>
    exact .inl ⟨first, List.cons_ne_nil f r, ho, (Except.error.inj h).symm⟩
  · exact .inr h

/-- A definition fails for a root type that has its name, or in the bucket of its class. -/
theorem addPlain_error {d : Definition} (h : s.addPlain origin d = .error error) : ∃ first,
    (s.rootOrigin? d = some first ∨
      ((s.bucket d.definitionClass).insert d.name d origin).1 = .conflict first) ∧
    error = .definitionConflict d.definitionClass d.name first origin := by
  unfold addPlain at h
  cases hr : s.rootOrigin? d with
  | some first =>
    simp only [hr] at h
    exact ⟨first, .inl rfl, (Except.error.inj h).symm⟩
  | none =>
    simp only [hr] at h
    cases hi : (s.bucket d.definitionClass).insert d.name d origin with
    | mk outcome b =>
      simp only [hi] at h
      cases outcome with
      | conflict first => exact ⟨first, .inr rfl, (Except.error.inj h).symm⟩
      | inserted => cases h
      | duplicate => cases h

/-- Only a named type's name can be taken by a root type. -/
theorem rootOrigin?_eq_some {d : Definition} {first : String} (h : s.rootOrigin? d = some first) :
    d.definitionClass = .namedType ∧ ∃ k : OperationKind, d.name = k.typeName ∧
      (s.rootFields.get k).firstOrigin? = some first := by
  unfold rootOrigin? at h
  split at h
  · next hc =>
    obtain ⟨k, hk, hfirst⟩ := Option.bind_eq_some_iff.mp h
    exact ⟨hc, k, OperationKind.ofTypeName?_eq_some_iff.mp hk, hfirst⟩
  · cases h

section Part

variable {before after : List (String × Document)} {ds rest : List Definition} {d : Definition}
  {later : Document}

/-- A definition that is refused in the bucket of its class, or for a root type of its name, is in
conflict with the first document that brought that in. -/
theorem Holds.clash_plain (h : s.Holds (definitionsWithOrigins (before ++ [(origin, ⟨ds⟩)])))
    (hlater : later.definitions = ds ++ d :: rest) (hk : d.rootKind? = none)
    (he : s.addPlain origin d = .error error) :
    ∃ i ≤ before.length, Clash (before ++ (origin, later) :: after) i before.length error := by
  have hat : (before ++ (origin, later) :: after)[before.length]? = some (origin, later) := by
    simp
  have hds : ds <+: later.definitions := hlater ▸ List.prefix_append _ _
  have hd : d ∈ definitionsNamed d.definitionClass d.name later :=
    List.mem_filter.mpr ⟨List.mem_filter.mpr ⟨by simp [hlater], by simp [hk]⟩, by simp⟩
  obtain ⟨first, hroot | hconflict, rfl⟩ := addPlain_error he
  · obtain ⟨hclass, k, hname, hfirst⟩ := rootOrigin?_eq_some hroot
    rw [(h.fields k).firstOrigin?_eq] at hfirst
    obtain ⟨x, hx, rfl⟩ := Option.map_eq_some_iff.mp hfirst
    have hpart := @fieldLog_part before origin ds k []
    rw [List.map_nil, List.append_nil, List.append_nil] at hpart
    rw [hpart] at hx
    have hdone : contributed k ds <+: fieldsFor k later := by
      rw [fieldsFor, hlater, contributed_append]
      exact List.prefix_append _ _
    obtain ⟨i, hi, o, f, rfl, hintroduces⟩ := introduces_of_head? fieldPut hdone hx
    rw [hclass, hname] at hd ⊢
    exact ⟨i, hi, .takenName hintroduces hat hd⟩
  · obtain ⟨entry, hl, hne, rfl⟩ := (h.plain _).conflict hconflict
    obtain ⟨i, hi, hfirst⟩ := introduces_definition hds hl
    exact ⟨i, hi, .definition hfirst hat hd (Ne.symm hne)⟩

/-- A root type that is refused for its name, or for a field, is in conflict with the first document
that brought that in. -/
theorem Holds.clash_root (h : s.Holds (definitionsWithOrigins (before ++ [(origin, ⟨ds⟩)])))
    {k : OperationKind}
    (ha : Bucket.Agree (fieldLog k (definitionsWithOrigins (before ++ [(origin, ⟨ds⟩)]))))
    (hlater : later.definitions = ds ++ d :: rest) (hk : d.rootKind? = some k)
    (he : s.addRootFields origin k (d.objectFields?.getD []) = .error error) :
    ∃ i ≤ before.length, Clash (before ++ (origin, later) :: after) i before.length error := by
  have hat : (before ++ (origin, later) :: after)[before.length]? = some (origin, later) := by
    simp
  have hds : ds <+: later.definitions := hlater ▸ List.prefix_append _ _
  have hfields : ∀ g ∈ d.objectFields?.getD [], g ∈ fieldsFor k later := fun g hg =>
    List.mem_flatMap.mpr ⟨d, List.mem_filter.mpr ⟨by simp [hlater], by simpa using hk⟩, hg⟩
  rcases addRootFields_error he with ⟨first, hne, ho, rfl⟩ | hrun
  · have hb : s.namedTypes.Holds _ := h.plain .namedType
    rw [hb.originOf?_eq] at ho
    obtain ⟨entry, hl, rfl⟩ := Option.map_eq_some_iff.mp ho
    obtain ⟨i, hi, hfirst⟩ := introduces_definition hds hl
    obtain ⟨g, hg⟩ := List.exists_mem_of_ne_nil _ hne
    exact ⟨i, hi, .lateField hfirst hat (hfields g hg)⟩
  · -- The bucket holds the fields of this root type, too, up to the one that is refused.
    obtain ⟨taken, f, r, t, hsplit, ht, hf⟩ := foldlM_eq_error_iff.mp hrun
    obtain ⟨first, hconflict, rfl⟩ := addRootField_error hf
    have htook := (foldlM_addRootField (h.fields k) ha taken).2 t ht
    obtain ⟨entry, hl, hne, rfl⟩ := htook.taken.conflict hconflict
    rw [fieldLog_part] at hl
    have hdone : contributed k ds ++ taken <+: fieldsFor k later := by
      rw [fieldsFor, hlater, contributed_append, List.prefix_append_right_inj,
        ← List.singleton_append, contributed_append, contributed_of_rootKind _ hk, if_pos rfl,
        hsplit, List.append_assoc]
      exact List.prefix_append _ _
    obtain ⟨i, hi, hfirst⟩ := introduces_of_lookup Field.name hdone hl
    refine ⟨i, hi, .rootField hfirst hat ?_ (Ne.symm hne)⟩
    exact List.mem_filter.mpr ⟨hfields f (by simp [hsplit]), by simp⟩

/-- A definition that is refused, when some documents and a part of one more are held, is in
conflict with the first document that brought in what stands against it. -/
theorem Holds.clash (h : s.Holds (definitionsWithOrigins (before ++ [(origin, ⟨ds⟩)])))
    (hc : Compatible (allDefinitions (before ++ [(origin, ⟨ds⟩)])))
    (hlater : later.definitions = ds ++ d :: rest) (he : s.addDefinition origin d = .error error) :
    ∃ i ≤ before.length, Clash (before ++ (origin, later) :: after) i before.length error := by
  unfold State.addDefinition at he
  cases hk : d.rootKind? with
  | none =>
    rw [hk] at he
    exact h.clash_plain hlater hk he
  | some k =>
    rw [hk] at he
    refine h.clash_root ((agree_fieldLog_iff k _).mpr ?_) hlater hk he
    rw [map_definitionsWithOrigins]
    exact hc.fields k

end Part

end State

/-- The documents are added one after another. -/
def addDocuments (documents : List (String × Document)) : Except MergeError State :=
  documents.foldlM (fun s (origin, d) => s.addDocument origin d) State.empty

theorem addDocuments_append_singleton {before : List (String × Document)} {origin : String}
    {ds : List Definition} {s t : State} (hs : addDocuments before = .ok s)
    (ht : s.addDocument origin ⟨ds⟩ = .ok t) :
    addDocuments (before ++ [(origin, ⟨ds⟩)]) = .ok t := by
  unfold addDocuments at hs ⊢
  rw [List.foldlM_append, hs]
  exact bind_eq_ok.mpr ⟨s, rfl, bind_eq_ok.mpr ⟨t, ht, rfl⟩⟩

theorem ofDocuments_of_ne_nil {documents : List (String × Document)} (hne : documents ≠ []) :
    ofDocuments documents = (addDocuments documents).map State.document := by
  rw [ofDocuments, if_neg (by simpa using hne), addDocuments]
  rfl

/-- A merge fails exactly with the error of the first document that cannot be added to those before
it, whatever comes behind it. -/
theorem ofDocuments_eq_error_iff {documents : List (String × Document)} {e : MergeError}
    (hne : documents ≠ []) :
    ofDocuments documents = .error e ↔ ∃ before origin later after s,
      documents = before ++ (origin, later) :: after ∧ addDocuments before = .ok s ∧
        s.addDocument origin later = .error e := by
  rw [ofDocuments_of_ne_nil hne]
  have hmap : (addDocuments documents).map State.document = .error e ↔
      addDocuments documents = .error e := by
    cases addDocuments documents <;> simp [Except.map]
  rw [hmap, addDocuments, foldlM_eq_error_iff]
  constructor
  · rintro ⟨before, ⟨origin, later⟩, after, s, h⟩
    exact ⟨before, origin, later, after, s, h⟩
  · rintro ⟨before, origin, later, after, s, h⟩
    exact ⟨before, (origin, later), after, s, h⟩

/-- A document that cannot be added to those before it is in conflict with the first one that
brought in what the error tells of. -/
theorem clash_of_addDocument {before after : List (String × Document)} {origin : String}
    {later : Document} {s : State} {e : MergeError} (hs : addDocuments before = .ok s)
    (he : s.addDocument origin later = .error e) :
    ∃ i ≤ before.length, Clash (before ++ (origin, later) :: after) i before.length e := by
  obtain ⟨ds, d, rest, t, hlater, ht, hd⟩ := foldlM_eq_error_iff.mp he
  have hpart := @addDocuments_append_singleton _ _ ds _ _ hs ht
  obtain ⟨hok, hholds⟩ := addDocuments_spec (before ++ [(origin, ⟨ds⟩)])
  exact (hholds t hpart).clash (hok.mp ⟨t, hpart⟩) hlater hd

/-- Some of the first documents can be merged if there are more that can be added. -/
theorem exists_ofDocuments_take {documents : List (String × Document)} {s : State}
    (hs : addDocuments documents = .ok s) {n : Nat} (hn : documents.take n ≠ []) :
    ∃ m, ofDocuments (documents.take n) = .ok m := by
  have hc := (addDocuments_spec documents).1.mp ⟨s, hs⟩
  rw [← List.take_append_drop n documents, allDefinitions_append] at hc
  exact ⟨_, ofDocuments_of_compatible hn hc.of_append⟩

/-- A merge that fails tells of a document and of the first one it is in conflict with. Without that
document and those behind it the merge succeeds, and with it there is the same error whatever comes
behind it. -/
theorem ofDocuments_error {documents : List (String × Document)} {e : MergeError}
    (hne : documents ≠ []) (he : ofDocuments documents = .error e) :
    ∃ i j, i ≤ j ∧ j < documents.length ∧ Clash documents i j e ∧
      (∀ n, 0 < n → n ≤ j → ∃ m, ofDocuments (documents.take n) = .ok m) ∧
      ∀ n, j < n → ofDocuments (documents.take n) = .error e := by
  obtain ⟨before, origin, later, after, s, rfl, hs, hlater⟩ := (ofDocuments_eq_error_iff hne).mp he
  obtain ⟨i, hi, hclash⟩ := @clash_of_addDocument before after _ _ _ _ hs hlater
  refine ⟨i, before.length, hi, by simp, hclash, ?_, ?_⟩
  · intro n hn hj
    rw [List.take_append_of_le_length hj]
    refine exists_ofDocuments_take hs ?_
    rw [ne_eq, List.take_eq_nil_iff]
    rintro (rfl | rfl)
    · exact absurd hn (Nat.lt_irrefl 0)
    · exact absurd (Nat.lt_of_lt_of_le hn hj) (Nat.lt_irrefl 0)
  · intro n hn
    obtain ⟨k, rfl⟩ := Nat.exists_eq_add_of_lt hn
    have htake : (before ++ (origin, later) :: after).take (before.length + k + 1) =
        before ++ (origin, later) :: after.take k := by
      rw [Nat.add_assoc, List.take_length_add_append, List.take_succ_cons]
    rw [htake]
    exact (ofDocuments_eq_error_iff (by simp)).mpr
      ⟨before, origin, later, after.take k, s, rfl, hs, hlater⟩

/-- The third of these documents has a root field that differs from the one of the second. -/
def townDocuments : List (String × Document) :=
  [("date.graphql", ⟨[⟨"Date", none, [], .scalar⟩]⟩),
    ("city.graphql", ⟨[⟨"City", none, [], .object [] []⟩,
      ⟨"Query", none, [], .object [] [⟨"city", none, [], .named "City", []⟩]⟩]⟩),
    ("town.graphql", ⟨[⟨"Date", none, [], .scalar⟩,
      ⟨"Query", none, [], .object [] [⟨"city", none, [], .named "Town", []⟩]⟩]⟩),
    ("union.graphql", ⟨[⟨"City", none, [], .union []⟩]⟩)]

theorem ofDocuments_error_town : townDocuments ≠ [] ∧
    ofDocuments townDocuments =
      .error (.rootFieldConflict .query "city" "city.graphql" "town.graphql") ∧
    ∃ i j, i ≤ j ∧ j < townDocuments.length ∧
      Clash townDocuments i j (.rootFieldConflict .query "city" "city.graphql" "town.graphql") ∧
      (∀ n, 0 < n → n ≤ j → ∃ m, ofDocuments (townDocuments.take n) = .ok m) ∧
      ∀ n, j < n → ofDocuments (townDocuments.take n) =
        .error (.rootFieldConflict .query "city" "city.graphql" "town.graphql") := by
  have hne : townDocuments ≠ [] := by simp [townDocuments]
  have he : ofDocuments townDocuments =
      .error (.rootFieldConflict .query "city" "city.graphql" "town.graphql") := rfl
  exact ⟨hne, he, ofDocuments_error hne he⟩

end GraphSchema.Merge
