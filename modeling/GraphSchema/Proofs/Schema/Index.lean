import GraphSchema.Proofs.Merge.Union
import GraphSchema.Schema.Index
import Mathlib.Data.List.Basic

/-!
# Look-ups in schemas

The index of a schema holds the first place of each name. So it finds what a search through the
document finds, and the schema of a merged document has the root types of the document, unless a
scalar or an input object has the name of one: these come before it, and a merge keeps them apart
from it.
-/

namespace GraphSchema

namespace Schema

theorem getElem?_enter (positions : Std.TreeMap String Nat) (d : Definition) (i : Nat)
    (name : String) : (enter positions (d, i))[name]? =
      (positions[name]?).or (if d.name == name then some i else none) := by
  unfold enter
  rw [Std.TreeMap.contains_eq_isSome_getElem?]
  by_cases hname : d.name = name
  · subst hname
    cases h : positions[d.name]? <;> simp [h]
  · cases h : positions[d.name]? <;> simp [Std.TreeMap.getElem?_insert, hname]

/-- Definitions that are entered are found at the first place of their name, unless the name was
known before. -/
theorem getElem?_foldl_enter (ds : List Definition) (i : Nat) (positions : Std.TreeMap String Nat)
    (name : String) : ((ds.zipIdx i).foldl enter positions)[name]? =
      (positions[name]?).or ((ds.findIdx? (·.name == name)).map (· + i)) := by
  induction ds generalizing i positions with
  | nil => simp
  | cons d ds ih =>
    rw [List.zipIdx_cons, List.foldl_cons, ih, getElem?_enter, List.findIdx?_cons, Option.or_assoc]
    congr 1
    split
    · simp
    · simp [Function.comp_def, Nat.add_assoc, Nat.add_comm 1 i]

/-- The index of a schema holds the first place of each name. -/
theorem position_ofDocument (d : Document) (name : String) :
    (ofDocument d).positions[name]? = d.definitions.findIdx? (·.name == name) := by
  rw [ofDocument, getElem?_foldl_enter]
  simp

/-- A place that is held for a name is that of a definition of the name with none before it. -/
theorem position_eq_some_iff {d : Document} {name : String} {i : Nat} :
    (ofDocument d).positions[name]? = some i ↔
      ∃ h : i < d.definitions.length, d.definitions[i].name = name ∧
        ∀ (j : Nat) (hj : j < i), d.definitions[j].name ≠ name := by
  rw [position_ofDocument, List.findIdx?_eq_some_iff_getElem]
  simp only [beq_iff_eq]

/-- A schema finds the first definition of a name. -/
theorem getType?_ofDocument (d : Document) (name : String) :
    (ofDocument d).getType? name = d.find? name := by
  rw [getType?, position_ofDocument, Document.find?, List.find?_eq_bind_findIdx?_getElem?]
  rfl

theorem getType?_of_position {d : Document} {name : String} {i : Nat}
    (h : (ofDocument d).positions[name]? = some i) (hi : i < d.definitions.length) :
    (ofDocument d).getType? name = some d.definitions[i] := by
  rw [getType?, h, Option.bind_some]
  exact List.getElem?_eq_getElem hi

/-- A schema knows the names that are defined. -/
theorem hasType_ofDocument (d : Document) (name : String) :
    (ofDocument d).hasType name = (d.find? name).isSome := by
  rw [hasType, Std.TreeMap.contains_eq_isSome_getElem?, position_ofDocument,
    List.findIdx?_isSome, Document.find?, List.isSome_find?]

/-- An index answers every name like a search through the document, whatever names are repeated in
it. A place that it holds for a name is always one of the document, and the definition that stands
there is the answer: it has the name, and none before it has. -/
theorem lookup_ofDocument (d : Document) (name : String) :
    (ofDocument d).getType? name = d.find? name ∧
      (ofDocument d).hasType name = (d.find? name).isSome ∧
      ∀ i, (ofDocument d).positions[name]? = some i →
        ∃ h : i < d.definitions.length,
          (ofDocument d).getType? name = some d.definitions[i] ∧ d.definitions[i].name = name ∧
            ∀ (j : Nat) (hj : j < i), d.definitions[j].name ≠ name := by
  refine ⟨getType?_ofDocument d name, hasType_ofDocument d name, fun i hi => ?_⟩
  obtain ⟨hlength, hname, hfirst⟩ := position_eq_some_iff.mp hi
  exact ⟨hlength, getType?_of_position hi hlength, hname, hfirst⟩

/-- A name that stands for an object type, then for an input object and for a scalar. -/
def reusedNames : Document :=
  ⟨[⟨"Time", none, [], .scalar⟩,
    ⟨"User", some "Who asks.", [], .object [] [⟨"since", none, [], .named "Time", []⟩]⟩,
    ⟨"Time", none, [], .enum []⟩, ⟨"User", none, [], .inputObject []⟩, ⟨"User", none, [], .scalar⟩]⟩

theorem lookup_ofDocument_reused :
    (ofDocument reusedNames).positions["User"]? = some 1 ∧
      ∃ h : 1 < reusedNames.definitions.length,
        (ofDocument reusedNames).getType? "User" = some reusedNames.definitions[1] := by
  have hposition : (ofDocument reusedNames).positions["User"]? = some 1 := by decide +kernel
  obtain ⟨hlength, hanswer, -⟩ := (lookup_ofDocument reusedNames "User").2.2 1 hposition
  exact ⟨hposition, hlength, hanswer⟩

end Schema

/-- Under the name of a root type, nothing but an object has an operation kind. -/
theorem Definition.rootKind?_eq_none_iff {e : Definition} {k : OperationKind}
    (hname : e.name = k.typeName) : e.rootKind? = none ↔ e.objectFields?.isSome = false := by
  rw [Option.eq_none_iff_forall_ne_some, Bool.eq_false_iff]
  constructor
  · exact fun hkind hobject => hkind k (rootKind?_eq_some_iff.mpr ⟨hobject, hname⟩)
  · exact fun hobject kind hkind => hobject (rootKind?_eq_some_iff.mp hkind).1

namespace Document

variable {d : Document} {k : OperationKind}

theorem rootType?_of_find?_none (h : d.find? k.typeName = none) : d.rootType? k = none := by
  refine List.find?_eq_none.mpr fun x hx hkind => List.find?_eq_none.mp h x hx ?_
  have hname := (Definition.rootKind?_eq_some_iff.mp (by simpa using hkind)).2
  simpa using hname

theorem name_of_find? {e : Definition} {name : String} (h : d.find? name = some e) :
    e.name = name := by
  simpa using List.find?_some h

/-- If the first definition with the name of a root type is an object, it is the root type. -/
theorem rootType?_of_find?_object {e : Definition} (h : d.find? k.typeName = some e)
    (hobject : e.objectFields?.isSome = true) : d.rootType? k = some e := by
  obtain ⟨hname, before, after, hdefinitions, hbefore⟩ := List.find?_eq_some_iff_append.mp h
  refine List.find?_eq_some_iff_append.mpr ⟨?_, before, after, hdefinitions, fun x hx => ?_⟩
  · simpa using Definition.rootKind?_eq_some_iff.mpr ⟨hobject, by simpa using hname⟩
  · have hother : x.name ≠ k.typeName := by simpa using hbefore x hx
    have hkind : x.rootKind? ≠ some k := fun hk =>
      hother (Definition.rootKind?_eq_some_iff.mp hk).2
    simpa using hkind

end Document

namespace Merge

variable {ds : List Definition} {k : OperationKind}

theorem rootType?_union (ds : List Definition) (k : OperationKind) :
    (union ds).rootType? k = rootObject? k ds := by
  have hfind : (union ds).rootType? k = (roots k (union ds).definitions).head? := by
    rw [Document.rootType?, roots, List.head?_filter]
    exact congrArg (List.find? · _) (funext fun d => Bool.eq_iff_iff.mpr (by simp))
  rw [hfind, roots_union]
  cases rootObject? k ds <;> rfl

/-- Where a scalar or an input object has the name of a root type, it comes before the root type. -/
theorem find?_union_of_other {d : Definition} (hd : d ∈ (union ds).definitions)
    (hclass : d.definitionClass ≠ .namedType) :
    ∃ e, (union ds).find? d.name = some e ∧ e.rootKind? = none := by
  have hnone : d.rootKind? = none := by
    cases h : d.rootKind? with
    | none => rfl
    | some kind =>
      have hobject := (Definition.rootKind?_eq_some_iff.mp h).1
      exact absurd (Definition.definitionClass_of_objectFields? hobject) hclass
  have hplain : ∀ c, ∀ e ∈ (plain c ds).eraseDups, e.rootKind? = none :=
    fun c e he => (mem_plain.mp (List.mem_eraseDups.mp he)).2.1
  rw [union, List.mem_append] at hd
  rw [Document.find?, union, List.find?_append]
  generalize hbefore : (plain .scalar ds).eraseDups ++ (plain .namedType ds).eraseDups ++
    (plain .inputObject ds).eraseDups = before at hd
  have hkinds : ∀ e ∈ before, e.rootKind? = none := by
    intro e he
    rw [← hbefore, List.mem_append, List.mem_append] at he
    rcases he with (he | he) | he <;> exact hplain _ e he
  rcases hd with hd | hd
  · cases hfind : before.find? (·.name == d.name) with
    | none => exact absurd (List.find?_eq_none.mp hfind d hd) (by simp)
    | some e => exact ⟨e, rfl, hkinds e (List.mem_of_find?_eq_some hfind)⟩
  · obtain ⟨kind, -, hroot⟩ := List.mem_filterMap.mp hd
    rw [rootKind?_rootObject ds hroot] at hnone
    exact absurd hnone (by simp)

end Merge

namespace Schema

theorem rootType?_ofDocument (d : Document) (k : OperationKind) :
    (ofDocument d).rootType? k = (d.find? k.typeName).filter (·.objectFields?.isSome) := by
  rw [rootType?, getType?_ofDocument]

/-- The root type of a schema is that of the document unless another class has its name. -/
theorem rootType?_union {ds : List Definition} (hc : Merge.Compatible ds) (k : OperationKind) :
    (ofDocument (Merge.union ds)).rootType? k =
      if ∃ d ∈ (Merge.union ds).definitions, d.name = k.typeName ∧ d.definitionClass ≠ .namedType
        then none else (Merge.union ds).rootType? k := by
  rw [rootType?_ofDocument]
  split
  · next hother =>
    obtain ⟨d, hd, hname, hclass⟩ := hother
    obtain ⟨e, he, hkind⟩ := Merge.find?_union_of_other hd hclass
    rw [hname] at he
    have hobject := (Definition.rootKind?_eq_none_iff (Document.name_of_find? he)).mp hkind
    rw [he, Option.filter_some, hobject]
    rfl
  · next hother =>
    cases hfind : (Merge.union ds).find? k.typeName with
    | none => rw [Document.rootType?_of_find?_none hfind, Option.filter_none]
    | some e =>
      rw [Option.filter_some]
      split
      · next hobject => rw [Document.rootType?_of_find?_object hfind hobject]
      · next hobject =>
        have he := List.mem_of_find?_eq_some hfind
        have hname := Document.name_of_find? hfind
        have hclass : e.definitionClass = .namedType :=
          Decidable.byContradiction fun hclass => hother ⟨e, he, hname, hclass⟩
        have hkind := (Definition.rootKind?_eq_none_iff hname).mpr (by simpa using hobject)
        rw [Merge.rootType?_union, Merge.rootObject?_of_named hc he hname hclass hkind]

/-- The schema of a merged document has the root type that the document has, unless a scalar or an
input object of the document has the name of it, and then it has none. So the two agree exactly if
there is no root type or nothing but named types has its name. -/
theorem rootType?_merged {documents : List (String × Document)} {m : Document}
    (hm : Merge.ofDocuments documents = .ok m) (k : OperationKind) :
    (ofDocument m).rootType? k =
        (if ∃ d ∈ m.definitions, d.name = k.typeName ∧ d.definitionClass ≠ .namedType then none
          else m.rootType? k) ∧
      ((ofDocument m).rootType? k = m.rootType? k ↔ m.rootType? k = none ∨
        ∀ d ∈ m.definitions, d.name = k.typeName → d.definitionClass = .namedType) := by
  obtain ⟨-, hc, rfl⟩ := Merge.union_of_ofDocuments hm
  have hequal := rootType?_union hc k
  refine ⟨hequal, ?_⟩
  rw [hequal]
  split
  · next hother =>
    obtain ⟨d, hd, hname, hclass⟩ := hother
    constructor
    · exact fun h => .inl h.symm
    · rintro (h | h)
      · exact h.symm
      · exact absurd (h d hd hname) hclass
  · next hother =>
    refine ⟨fun _ => .inr fun d hd hname => ?_, fun _ => rfl⟩
    exact Decidable.byContradiction fun hclass => hother ⟨d, hd, hname, hclass⟩

/-- A scalar with the name of a root type, and a root type whose name no other class has. -/
def namesakeDocuments : List (String × Document) :=
  [("root.graphql", ⟨[⟨"Query", some "The way in.", [], .object []
      [⟨"now", none, [], .named "Mutation", []⟩]⟩,
      ⟨"Mutation", none, [], .object [] [⟨"wait", none, [], .named "Int", []⟩]⟩]⟩),
    ("time.graphql", ⟨[⟨"Time", none, [], .enum []⟩, ⟨"Mutation", none, [], .scalar⟩]⟩)]

theorem rootType?_merged_namesake : ∃ m, Merge.ofDocuments namesakeDocuments = .ok m ∧
    ((ofDocument m).rootType? .query = m.rootType? .query ∧ m.rootType? .query ≠ none) ∧
    (ofDocument m).rootType? .mutation = none ∧ m.rootType? .mutation ≠ none := by
  have hm : Merge.ofDocuments namesakeDocuments = .ok
      (Merge.union (Merge.allDefinitions namesakeDocuments)) := by decide +kernel
  have hquery := (rootType?_merged hm .query).2.mpr (.inr (by decide +kernel))
  have hmutation := (rootType?_merged hm .mutation).1
  rw [if_pos (by decide +kernel)] at hmutation
  exact ⟨_, hm, ⟨hquery, by decide +kernel⟩, hmutation, by decide +kernel⟩

/-- The sources of a schema without a root type that is in its document. -/
theorem not_rootType?_merged :
    ∃ m, Merge.ofSources [("a", "scalar Query type Query \x7b ok: Boolean \x7d")] = .ok m ∧
      (ofDocument m.document).rootType? .query ≠ m.document.rootType? .query := by
  have hrun : (Merge.ofSources
      [("a", "scalar Query type Query \x7b ok: Boolean \x7d")]).toOption.any (fun m => decide
        ((ofDocument m.document).rootType? .query ≠ m.document.rootType? .query)) = true := by
    decide +kernel
  obtain ⟨m, hm, hroots⟩ := exists_ok_of_any hrun
  exact ⟨m, hm, of_decide_eq_true hroots⟩

end Schema

end GraphSchema
