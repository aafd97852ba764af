import GraphSchema.Proofs.Merge.Union

/-!
# The order of documents

Documents may be merged in any order. The order decides which of them is named in an error and in
which order definitions and fields are listed, but neither whether there is a merged document nor
what it defines.
-/

namespace GraphSchema

/-- Two objects differ in the order of their fields at most. -/
inductive Definition.SameFields : Definition → Definition → Prop
  | object {name : String} {description : Option String} {directives : List Directive}
      {interfaces : List String} {fields fields' : List Field} (h : fields.Perm fields') :
      SameFields ⟨name, description, directives, .object interfaces fields⟩
        ⟨name, description, directives, .object interfaces fields'⟩

open Merge in
/-- Two documents define the same up to order: the same in each class, and for each kind of root
operation objects with the same fields. -/
structure Document.Rearranges (m n : Document) : Prop where
  plain : ∀ c, (plain c m.definitions).Perm (plain c n.definitions)
  roots : ∀ k, List.Forall₂ Definition.SameFields (roots k m.definitions) (roots k n.definitions)

namespace Merge

variable {ds es : List Definition}

theorem sameFields_rootObject (h : ds.Perm es) (k : OperationKind) :
    List.Forall₂ Definition.SameFields (rootObject? k ds).toList (rootObject? k es).toList := by
  have hfields : (contributed k ds).eraseDups.Perm (contributed k es).eraseDups :=
    perm_eraseDups fun f => ((h.filter _).flatMap_right _).mem_iff
  cases hds : (contributed k ds).eraseDups with
  | nil =>
    have hes : (contributed k es).eraseDups = [] := (hds ▸ hfields).nil_eq.symm
    simp [rootObject?, hds, hes]
  | cons f fs =>
    cases hes : (contributed k es).eraseDups with
    | nil => exact absurd (hes ▸ hds ▸ hfields).eq_nil (by simp)
    | cons g gs =>
      have hperm : (f :: fs).Perm (g :: gs) := hes ▸ hds ▸ hfields
      simpa [rootObject?, hds, hes] using Definition.SameFields.object hperm

theorem rearranges_union (h : ds.Perm es) : (union ds).Rearranges (union es) where
  plain c := by
    rw [plain_union, plain_union]
    exact perm_eraseDups fun d => (h.filter _).mem_iff
  roots k := by
    rw [roots_union, roots_union]
    exact sameFields_rootObject h k

theorem compatible_perm (h : ds.Perm es) : Compatible ds ↔ Compatible es :=
  compatible_congr (fun _ _ => (h.filter _).mem_iff)
    fun _ _ => ((h.filter _).flatMap_right _).mem_iff

/-- Whether documents can be merged does not depend on their order, and in another order they are
merged to the same definitions and fields in another order. -/
theorem ofDocuments_perm {documents others : List (String × Document)}
    (h : documents.Perm others) :
    ((∃ m, ofDocuments documents = .ok m) ↔ ∃ n, ofDocuments others = .ok n) ∧
      ∀ m n, ofDocuments documents = .ok m → ofDocuments others = .ok n → m.Rearranges n := by
  have hall : (allDefinitions documents).Perm (allDefinitions others) := h.flatMap_right _
  have hempty : documents = [] ↔ others = [] := by
    constructor
    · rintro rfl
      exact h.nil_eq.symm
    · rintro rfl
      exact h.eq_nil
  constructor
  · constructor
    · rintro ⟨m, hm⟩
      obtain ⟨hne, hc⟩ := compatible_of_ofDocuments hm
      exact ⟨_, ofDocuments_of_compatible (fun hnil => hne (hempty.mpr hnil))
        ((compatible_perm hall).mp hc)⟩
    · rintro ⟨n, hn⟩
      obtain ⟨hne, hc⟩ := compatible_of_ofDocuments hn
      exact ⟨_, ofDocuments_of_compatible (fun hnil => hne (hempty.mp hnil))
        ((compatible_perm hall).mpr hc)⟩
  · intro m n hm hn
    obtain ⟨-, -, rfl⟩ := union_of_ofDocuments hm
    obtain ⟨-, -, rfl⟩ := union_of_ofDocuments hn
    exact rearranges_union hall

def userDocument : String × Document :=
  ("user.graphql", ⟨[⟨"Query", none, [], .object [] [⟨"user", none, [], .named "User", []⟩]⟩,
    ⟨"Date", none, [], .scalar⟩, ⟨"User", none, [], .object [] []⟩]⟩)

def postDocument : String × Document :=
  ("post.graphql", ⟨[⟨"Date", none, [], .scalar⟩, ⟨"Post", none, [], .object [] []⟩,
    ⟨"Query", some "All posts.", [], .object [] [⟨"post", none, [], .named "Post", []⟩]⟩]⟩)

theorem ofDocuments_perm_swap :
    [userDocument, postDocument].Perm [postDocument, userDocument] ∧
      ∃ m n, ofDocuments [userDocument, postDocument] = .ok m ∧
        ofDocuments [postDocument, userDocument] = .ok n ∧ m ≠ n ∧ m.Rearranges n := by
  have hperm : [userDocument, postDocument].Perm [postDocument, userDocument] := .swap ..
  exact ⟨hperm, _, _, rfl, rfl, by decide, (ofDocuments_perm hperm).2 _ _ rfl rfl⟩

end Merge

end GraphSchema
