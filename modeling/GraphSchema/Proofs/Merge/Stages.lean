import GraphSchema.Proofs.Merge.Union

/-!
# Merging in stages

A merged document stands for the documents that it was merged from: merging it further gives what
merging them further gives. What it was merged from adds nothing to it.
-/

namespace GraphSchema.Merge

section

variable (ds es : List Definition)

theorem mem_plain_unions (c : DefinitionClass) (d : Definition) :
    d ∈ plain c ((union ds).definitions ++ (union es).definitions) ↔ d ∈ plain c (ds ++ es) := by
  rw [plain_append, plain_append, plain_union, plain_union, List.mem_append, List.mem_append,
    List.mem_eraseDups, List.mem_eraseDups]

theorem mem_contributed_unions (k : OperationKind) (f : Field) :
    f ∈ contributed k ((union ds).definitions ++ (union es).definitions) ↔
      f ∈ contributed k (ds ++ es) := by
  rw [contributed_append, contributed_append, contributed_union, contributed_union,
    List.mem_append, List.mem_append, List.mem_eraseDups, List.mem_eraseDups]

theorem compatible_unions :
    Compatible ((union ds).definitions ++ (union es).definitions) ↔ Compatible (ds ++ es) :=
  compatible_congr (mem_plain_unions ds es) (mem_contributed_unions ds es)

theorem union_unions :
    union ((union ds).definitions ++ (union es).definitions) = union (ds ++ es) := by
  apply union_congr
  · intro c
    rw [plain_append, plain_append, plain_union, plain_union, eraseDups_append_eraseDups]
  · intro k
    rw [contributed_append, contributed_append, contributed_union, contributed_union,
      eraseDups_append_eraseDups]

end

section

variable {ds es : List Definition}

theorem plain_of_known (h : ∀ d ∈ es, d ∈ ds ∨ d ∈ (union ds).definitions) (c : DefinitionClass) :
    plain c es ⊆ plain c ds := by
  intro d hd
  obtain ⟨hmem, hclass⟩ := List.mem_filter.mp hd
  rcases h d hmem with hold | hnew
  · exact List.mem_filter.mpr ⟨hold, hclass⟩
  · have hunion : d ∈ plain c (union ds).definitions := List.mem_filter.mpr ⟨hnew, hclass⟩
    rw [plain_union, List.mem_eraseDups] at hunion
    exact hunion

theorem contributed_of_known (h : ∀ d ∈ es, d ∈ ds ∨ d ∈ (union ds).definitions)
    (k : OperationKind) : contributed k es ⊆ contributed k ds := by
  intro f hf
  obtain ⟨d, hd, hfield⟩ := List.mem_flatMap.mp hf
  obtain ⟨hmem, hkind⟩ := List.mem_filter.mp hd
  rcases h d hmem with hold | hnew
  · exact List.mem_flatMap.mpr ⟨d, List.mem_filter.mpr ⟨hold, hkind⟩, hfield⟩
  · have hunion : f ∈ contributed k (union ds).definitions :=
      List.mem_flatMap.mpr ⟨d, List.mem_filter.mpr ⟨hnew, hkind⟩, hfield⟩
    rw [contributed_union, List.mem_eraseDups] at hunion
    exact hunion

/-- Definitions that are known, or that a union has made of known ones, change nothing. -/
theorem compatible_append_known (h : ∀ d ∈ es, d ∈ ds ∨ d ∈ (union ds).definitions)
    (hc : Compatible ds) : Compatible (ds ++ es) := by
  apply hc.mono
  · intro c
    rw [plain_append]
    exact List.append_subset.mpr ⟨List.Subset.refl _, plain_of_known h c⟩
  · intro k
    rw [contributed_append]
    exact List.append_subset.mpr ⟨List.Subset.refl _, contributed_of_known h k⟩

theorem union_append_known (h : ∀ d ∈ es, d ∈ ds ∨ d ∈ (union ds).definitions) :
    union (ds ++ es) = union ds := by
  apply union_congr
  · intro c
    rw [plain_append, eraseDups_append_of_subset (plain_of_known h c)]
  · intro k
    rw [contributed_append, eraseDups_append_of_subset (contributed_of_known h k)]

end

theorem allDefinitions_pair (x y : String × Document) :
    allDefinitions [x, y] = x.2.definitions ++ y.2.definitions := by
  simp [allDefinitions]

variable {xs ys : List (String × Document)}

theorem ofDocuments_known {x : Document} (h : ofDocuments xs = .ok x)
    {zs : List (String × Document)}
    (hzs : ∀ z ∈ zs, ∀ d ∈ z.2.definitions, d ∈ allDefinitions xs ∨ d ∈ x.definitions) :
    ofDocuments (xs ++ zs) = .ok x := by
  obtain ⟨hne, hc, rfl⟩ := union_of_ofDocuments h
  have hknown : ∀ d ∈ allDefinitions zs,
      d ∈ allDefinitions xs ∨ d ∈ (union (allDefinitions xs)).definitions := by
    intro d hd
    obtain ⟨z, hz, hdz⟩ := List.mem_flatMap.mp hd
    exact hzs z hz d hdz
  have hall := allDefinitions_append xs zs
  rw [ofDocuments_of_compatible (by simp [hne]) (hall ▸ compatible_append_known hknown hc), hall,
    union_append_known hknown]

theorem ofDocuments_again {x : Document} (h : ofDocuments xs = .ok x) (origin : String) :
    ofDocuments [(origin, x)] = .ok x := by
  obtain ⟨-, hc, rfl⟩ := union_of_ofDocuments h
  have hall : allDefinitions [(origin, union (allDefinitions xs))] =
      (union (allDefinitions xs)).definitions ++ (union []).definitions := by
    simp [allDefinitions, union, plain, contributed, rootObject?, OperationKind.all]
  have hcompatible := (compatible_unions (allDefinitions xs) []).mpr (by simpa using hc)
  rw [ofDocuments_of_compatible (by simp) (hall ▸ hcompatible), hall, union_unions,
    List.append_nil]

theorem ofDocuments_append (hxs : xs ≠ []) (hys : ys ≠ []) (first second : String)
    (m : Document) :
    ofDocuments (xs ++ ys) = .ok m ↔ ∃ x y, ofDocuments xs = .ok x ∧ ofDocuments ys = .ok y ∧
      ofDocuments [(first, x), (second, y)] = .ok m := by
  have hall := allDefinitions_append xs ys
  constructor
  · intro h
    obtain ⟨-, hc, rfl⟩ := union_of_ofDocuments h
    rw [hall] at hc ⊢
    have hcy : Compatible (allDefinitions ys) := hc.mono (fun c => by simp) fun k => by simp
    have hpair := allDefinitions_pair (first, union (allDefinitions xs))
      (second, union (allDefinitions ys))
    refine ⟨_, _, ofDocuments_of_compatible hxs hc.of_append,
      ofDocuments_of_compatible hys hcy, ?_⟩
    rw [ofDocuments_of_compatible (by simp) (hpair ▸ (compatible_unions _ _).mpr hc), hpair,
      union_unions]
  · rintro ⟨x, y, hx, hy, hm⟩
    obtain ⟨-, -, rfl⟩ := union_of_ofDocuments hx
    obtain ⟨-, -, rfl⟩ := union_of_ofDocuments hy
    obtain ⟨-, hc, rfl⟩ := union_of_ofDocuments hm
    rw [allDefinitions_pair] at hc ⊢
    rw [compatible_unions] at hc
    rw [ofDocuments_of_compatible (by simp [hxs]) (hall ▸ hc), hall, union_unions]

/-- Merging documents at once is merging the first of them, merging the rest and merging the two
merged documents. What a merged document was merged from, and what is in it, adds nothing to it. -/
theorem ofDocuments_stages (hxs : xs ≠ []) :
    (∀ ys, ys ≠ [] → ∀ first second m, ofDocuments (xs ++ ys) = .ok m ↔
      ∃ x y, ofDocuments xs = .ok x ∧ ofDocuments ys = .ok y ∧
        ofDocuments [(first, x), (second, y)] = .ok m) ∧
    ∀ x, ofDocuments xs = .ok x →
      (∀ zs : List (String × Document), (∀ z ∈ zs, ∀ d ∈ z.2.definitions,
        d ∈ allDefinitions xs ∨ d ∈ x.definitions) → ofDocuments (xs ++ zs) = .ok x) ∧
      ∀ origin, ofDocuments [(origin, x)] = .ok x :=
  ⟨fun _ hys first second m => ofDocuments_append hxs hys first second m,
    fun _ hx => ⟨fun _ hzs => ofDocuments_known hx hzs, ofDocuments_again hx⟩⟩

def cityDocument : String × Document :=
  ("city.graphql", ⟨[⟨"Query", some "The way in.", [], .object ["Node"]
    [⟨"city", none, [], .named "City", []⟩, ⟨"mayor", none, [], .named "ID", []⟩]⟩,
    ⟨"City", none, [], .object [] []⟩]⟩)

def countryDocument : String × Document :=
  ("country.graphql", ⟨[⟨"Country", none, [], .enum []⟩, ⟨"Query", none, [], .object []
    [⟨"country", none, [], .named "Country", []⟩, ⟨"city", none, [], .named "City", []⟩]⟩]⟩)

/-- A root type with some of the fields only. -/
def mayorDocument : String × Document :=
  ("mayor.graphql", ⟨[⟨"Query", none, [], .object [] [⟨"mayor", none, [], .named "ID", []⟩]⟩]⟩)

theorem ofDocuments_stages_city : [cityDocument, mayorDocument] ≠ [] ∧ [countryDocument] ≠ [] ∧
    ∃ m x y, ofDocuments [cityDocument, mayorDocument, countryDocument] = .ok m ∧
      ofDocuments [cityDocument, mayorDocument] = .ok x ∧ ofDocuments [countryDocument] = .ok y ∧
      ofDocuments [("x", x), ("y", y)] = .ok m ∧ mayorDocument.2 ≠ x ∧
      ofDocuments [cityDocument, mayorDocument, mayorDocument] = .ok x ∧
      ofDocuments [("x", x)] = .ok x := by
  have hcity : [cityDocument, mayorDocument] ≠ [] := by simp
  have hcountry : [countryDocument] ≠ [] := by simp
  obtain ⟨hstages, hagain⟩ := ofDocuments_stages hcity
  obtain ⟨x, y, hx, hy, hm⟩ := (hstages _ hcountry "x" "y" _).mp rfl
  have hother : mayorDocument.2 ≠ x := by
    obtain rfl := Except.ok.inj hx
    decide
  have hknown : ∀ z ∈ [mayorDocument], ∀ d ∈ z.2.definitions,
      d ∈ allDefinitions [cityDocument, mayorDocument] := by decide
  have hmayor := (hagain x hx).1 [mayorDocument] fun z hz d hd => .inl (hknown z hz d hd)
  exact ⟨hcity, hcountry, _, x, y, rfl, hx, hy, hm, hother, hmayor, (hagain x hx).2 "x"⟩

end GraphSchema.Merge
