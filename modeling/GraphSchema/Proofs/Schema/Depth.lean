import GraphSchema.Proofs.Schema.Json
import GraphSchema.Proofs.Sdl.Grammar

/-!
# How deep stored documents are

A reference takes one object for each of its brackets, and one more for each mark, so that what
lexing lets through is stored well within the bounds of a reader.
-/

namespace GraphSchema

namespace Json

variable {k : Nat}

theorem isWithin_iff {j : Json} :
    isWithin k j = true ↔ j.depth ≤ k ∧ j.isReadable = true := by
  rw [isWithin, Bool.and_eq_true, decide_eq_true_eq]

theorem isWithin_string (s : String) : isWithin k (.string s) = true :=
  isWithin_iff.mpr ⟨Nat.zero_le k, rfl⟩

theorem isWithin_mono {l : Nat} (hkl : k ≤ l) {j : Json} (h : isWithin k j = true) :
    isWithin l j = true :=
  isWithin_iff.mpr ⟨(isWithin_iff.mp h).1.trans hkl, (isWithin_iff.mp h).2⟩

theorem isWithin_array {items : List Json} (h : ∀ v ∈ items, isWithin k v = true) :
    isWithin (k + 1) (.array items) = true := by
  have hitems : depthOfItems items ≤ k ∧ itemsAreReadable items = true := by
    induction items with
    | nil => exact ⟨Nat.zero_le k, rfl⟩
    | cons v items ih =>
      obtain ⟨hv, hrest⟩ := List.forall_mem_cons.mp h
      rw [isWithin_iff] at hv
      rw [depthOfItems, itemsAreReadable, Bool.and_eq_true]
      exact ⟨Nat.max_le.mpr ⟨hv.1, (ih hrest).1⟩, hv.2, (ih hrest).2⟩
  exact isWithin_iff.mpr ⟨Nat.succ_le_succ hitems.1, hitems.2⟩

theorem isWithin_object {members : List (String × Json)}
    (h : ∀ m ∈ members, isWithin k m.2 = true) : isWithin (k + 1) (.object members) = true := by
  have hmembers : depthOfMembers members ≤ k ∧ membersAreReadable members = true := by
    induction members with
    | nil => exact ⟨Nat.zero_le k, rfl⟩
    | cons m members ih =>
      obtain ⟨hm, hrest⟩ := List.forall_mem_cons.mp h
      rw [isWithin_iff] at hm
      rw [depthOfMembers, membersAreReadable, Bool.and_eq_true]
      exact ⟨Nat.max_le.mpr ⟨hm.1, (ih hrest).1⟩, hm.2, (ih hrest).2⟩
  exact isWithin_iff.mpr ⟨Nat.succ_le_succ hmembers.1, hmembers.2⟩

theorem isWithin_present {slots : List (String × Option Json)}
    (h : ∀ s ∈ slots, ∀ v ∈ s.2, isWithin k v = true) :
    isWithin (k + 1) (.object (present slots)) = true :=
  isWithin_object (@forall_present slots (fun v => isWithin k v = true) h)

theorem isWithin_list {α : Type} {write : α → Json} {items : List α}
    (h : ∀ a ∈ items, isWithin k (write a) = true) :
    isWithin (k + 1) (.array (items.map write)) = true := by
  refine isWithin_array fun v hv => ?_
  obtain ⟨a, ha, rfl⟩ := List.mem_map.mp hv
  exact h a ha

theorem isWithin_pair {key other : String} {v w : Json} (hv : isWithin k v = true)
    (hw : isWithin k w = true) : isWithin (k + 1) (.object [(key, v), (other, w)]) = true := by
  refine isWithin_object fun m hm => ?_
  simp only [List.mem_cons, List.not_mem_nil, or_false] at hm
  obtain rfl | rfl := hm
  · exact hv
  · exact hw

end Json

open Sdl
open Json hiding isWithin

variable {floats : Binary64 → Prop} {n : Nat}

/-- How deep a reference is stored at most at a place with some brackets open. -/
def TypeReference.depthBound (n : Nat) : Nat := 2 * (Lexed.bracketLimit - n) + 2

theorem TypeReference.isWithin_toJson {t : TypeReference} (h : t.Permitted (.lexed floats) n) :
    Json.isWithin (depthBound n) t.toJson = true := by
  -- A reference without a mark leaves room for one.
  have hroom : Json.isWithin (depthBound n) t.toJson = true ∧
      (t.isNonNull = false → Json.isWithin (depthBound n - 1) t.toJson = true) := by
    induction h with
    | @named n name hname =>
      have hshallow : ∀ k, Json.isWithin (k + 1) (toJson (.named name)) = true :=
        fun k => isWithin_pair (isWithin_string _) (isWithin_string name)
      exact ⟨hshallow _, fun _ => hshallow _⟩
    | @list n item hopened _ ih =>
      have hlimit : n + 1 ≤ Lexed.bracketLimit := hopened
      have hdeeper : depthBound n - 1 = depthBound (n + 1) + 1 := by
        unfold depthBound
        omega
      have hbare : Json.isWithin (depthBound n - 1) (toJson (.list item)) = true := by
        rw [hdeeper]
        exact isWithin_pair (isWithin_string _) ih.1
      exact ⟨isWithin_mono (Nat.sub_le _ _) hbare, fun _ => hbare⟩
    | @nonNull n inner hbare _ ih =>
      have hmark : depthBound n = depthBound n - 1 + 1 := by
        unfold depthBound
        omega
      refine ⟨?_, fun hcontra => absurd hcontra (by simp [isNonNull])⟩
      rw [hmark]
      exact isWithin_pair (isWithin_string _) (ih.2 hbare)
  exact hroom.1

theorem Directive.isWithin_toJson (d : Directive) : Json.isWithin 3 d.toJson = true := by
  rw [toJson_eq]
  apply isWithin_present
  intro s hs
  simp only [slots, List.mem_cons, List.not_mem_nil, or_false] at hs
  obtain rfl | rfl := hs
  · exact forall_some (isWithin_string _)
  · exact forall_listSlot (isWithin_list fun a _ =>
      isWithin_pair (isWithin_string _) (isWithin_string _))

theorem Directive.isWithin_list (ds : List Directive) {k : Nat} (hk : 4 ≤ k) :
    Json.isWithin k (.array (ds.map Directive.toJson)) = true :=
  isWithin_mono hk (Json.isWithin_list fun d _ => d.isWithin_toJson)

theorem InputValue.isWithin_toJson {v : InputValue} (h : v.Permitted (.lexed floats) n) :
    Json.isWithin (TypeReference.depthBound n + 3) v.toJson = true := by
  rw [toJson_eq]
  apply isWithin_present
  intro s hs
  simp only [slots, List.mem_cons, List.not_mem_nil, or_false] at hs
  obtain rfl | rfl | rfl | rfl | rfl := hs
  · exact forall_some (isWithin_string _)
  · exact forall_textSlot isWithin_string
  · exact forall_some (isWithin_mono (Nat.le_add_right _ 2) (TypeReference.isWithin_toJson h.type))
  · exact forall_textSlot isWithin_string
  · exact forall_listSlot (Directive.isWithin_list _ (by unfold TypeReference.depthBound; omega))

theorem Field.isWithin_toJson {f : Field} (h : f.Permitted (.lexed floats) n) :
    Json.isWithin (TypeReference.depthBound n + 5) f.toJson = true := by
  have hinner : TypeReference.depthBound (n + 1) + 4 ≤ TypeReference.depthBound n + 4 := by
    unfold TypeReference.depthBound
    omega
  rw [toJson_eq]
  apply isWithin_present
  intro s hs
  simp only [slots, List.mem_cons, List.not_mem_nil, or_false] at hs
  obtain rfl | rfl | rfl | rfl | rfl := hs
  · exact forall_some (isWithin_string _)
  · exact forall_textSlot isWithin_string
  · exact forall_listSlot (isWithin_mono hinner
      (Json.isWithin_list fun a ha => InputValue.isWithin_toJson (h.arguments a ha)))
  · exact forall_some (isWithin_mono (Nat.le_add_right _ 4) (TypeReference.isWithin_toJson h.type))
  · exact forall_listSlot (Directive.isWithin_list _ (Nat.le_add_left _ _))

theorem EnumValue.isWithin_toJson (v : EnumValue) : Json.isWithin 5 v.toJson = true := by
  rw [toJson_eq]
  apply isWithin_present
  intro s hs
  simp only [slots, List.mem_cons, List.not_mem_nil, or_false] at hs
  obtain rfl | rfl | rfl := hs
  · exact forall_some (isWithin_string _)
  · exact forall_textSlot isWithin_string
  · exact forall_listSlot (Directive.isWithin_list _ (Nat.le_refl 4))

namespace Definition

theorem Body.isWithin_partsSlot {b : Body} (h : b.Permitted (.lexed floats)) :
    ∀ v ∈ b.partsSlot.2, Json.isWithin (TypeReference.depthBound 1 + 6) v = true := by
  have hnames : ∀ xs : List String,
      Json.isWithin (TypeReference.depthBound 1 + 6) (.array (xs.map .string)) = true :=
    fun xs => Json.isWithin_list fun s _ => isWithin_string s
  cases b with
  | scalar => exact fun v hv => absurd hv (by simp [Body.partsSlot])
  | object interfaces fields =>
    exact forall_some (Json.isWithin_list fun f hf => Field.isWithin_toJson (h.2 f hf))
  | interface interfaces fields =>
    exact forall_some (Json.isWithin_list fun f hf => Field.isWithin_toJson (h.2 f hf))
  | union members => exact forall_some (hnames members)
  | enum values =>
    have hvalues := Json.isWithin_list fun v (_ : v ∈ values) => v.isWithin_toJson
    exact forall_some (isWithin_mono (by decide) hvalues)
  | inputObject fields =>
    exact forall_some (isWithin_mono (Nat.le_add_right _ 2)
      (Json.isWithin_list fun v hv => InputValue.isWithin_toJson (h v hv)))

theorem Body.isWithin_interfacesSlot (b : Body) {k : Nat} :
    ∀ v ∈ b.interfacesSlot, Json.isWithin (k + 1) v = true := by
  cases b with
  | object interfaces fields =>
    exact forall_listSlot (Json.isWithin_list fun s _ => isWithin_string s)
  | interface interfaces fields =>
    exact forall_listSlot (Json.isWithin_list fun s _ => isWithin_string s)
  | _ => exact fun v hv => absurd hv (by simp [Body.interfacesSlot])

theorem isWithin_toJson {d : Definition} (h : d.Permitted (.lexed floats)) :
    Json.isWithin (TypeReference.depthBound 1 + 7) d.toJson = true := by
  rw [toJson_eq]
  apply isWithin_present
  intro s hs
  simp only [slots, List.mem_cons, List.not_mem_nil, or_false] at hs
  obtain rfl | rfl | rfl | rfl | rfl | rfl := hs
  · exact forall_some (isWithin_string _)
  · exact forall_some (isWithin_string _)
  · exact forall_textSlot isWithin_string
  · exact d.body.isWithin_interfacesSlot
  · exact forall_listSlot (Directive.isWithin_list _ (by decide))
  · exact Body.isWithin_partsSlot h.body

end Definition

theorem Document.hasDefinitionsWithin_toJson {d : Document}
    (h : ∀ x ∈ d.definitions, x.Permitted (.lexed floats)) {k : Nat}
    (hk : TypeReference.depthBound 1 + 7 ≤ k) : hasDefinitionsWithin k d.toJson = true := by
  show (d.definitions.map Definition.toJson).all (Json.isWithin k) = true
  rw [List.all_eq_true]
  intro j hj
  obtain ⟨x, hx, rfl⟩ := List.mem_map.mp hj
  exact isWithin_mono hk (Definition.isWithin_toJson (h x hx))

end GraphSchema
