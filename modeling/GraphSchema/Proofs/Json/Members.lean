import GraphSchema.Proofs.Json.RoundTrip
import Mathlib.Data.List.Nodup

/-!
# Records as members

A record is written as the values under its keys, as far as they are present, and a value is found
again under its key.
-/

namespace GraphSchema.Json

/-- The members of an object, given the values of its keys. -/
def present (slots : List (String × Option Json)) : List (String × Json) :=
  slots.filterMap fun s => s.2.map (s.1, ·)

/-- The value of a list that is left out when it is empty. -/
def listSlot {α : Type} (write : α → Json) (items : List α) : Option Json :=
  if items.isEmpty then none else some (.array (items.map write))

/-- What is found under a key with this value. -/
def Member.ofOption : Option Json → Member
  | none => .absent
  | some v => .present v

theorem presentText_eq (key : String) (value : Option String) :
    presentText key value = (value.map string).map (key, ·) := by
  cases value <;> rfl

theorem presentList_eq {α : Type} (key : String) (write : α → Json) (items : List α) :
    presentList key write items = (listSlot write items).map (key, ·) := by
  cases items <;> rfl

theorem filter_present_of_notMem {slots : List (String × Option Json)} {key : String}
    (h : key ∉ slots.map (·.1)) : (present slots).filter (·.1 == key) = [] := by
  refine List.filter_eq_nil_iff.mpr fun m hm hkey => h ?_
  obtain ⟨s, hs, hmap⟩ := List.mem_filterMap.mp hm
  obtain ⟨v, -, rfl⟩ := Option.map_eq_some_iff.mp hmap
  have heq : s.1 = key := eq_of_beq hkey
  exact List.mem_map.mpr ⟨s, hs, heq⟩

theorem filter_present {slots : List (String × Option Json)} (hkeys : (slots.map (·.1)).Nodup)
    {key : String} {value : Option Json} (h : (key, value) ∈ slots) :
    (present slots).filter (·.1 == key) = (value.map (key, ·)).toList := by
  induction slots with
  | nil => exact absurd h (by simp)
  | cons s slots ih =>
    obtain ⟨k, o⟩ := s
    rw [List.map_cons, List.nodup_cons] at hkeys
    obtain ⟨hnot, hkeys⟩ := hkeys
    have hsplit : present ((k, o) :: slots) = (o.map (k, ·)).toList ++ present slots := by
      cases o <;> rfl
    rw [hsplit, List.filter_append]
    rcases List.mem_cons.mp h with heq | hmem
    · obtain ⟨rfl, rfl⟩ := Prod.mk.inj heq
      rw [filter_present_of_notMem hnot, List.append_nil]
      cases value with
      | none => rfl
      | some v => simp
    · have hne : k ≠ key := by
        rintro rfl
        exact hnot (List.mem_map.mpr ⟨(k, value), hmem, rfl⟩)
      rw [ih hkeys hmem]
      cases o with
      | none => rfl
      | some v => simp [hne]

theorem member_present {slots : List (String × Option Json)} (hkeys : (slots.map (·.1)).Nodup)
    {key : String} {value : Option Json} (h : (key, value) ∈ slots) :
    member (present slots) key = Member.ofOption value := by
  rw [member, filter_present hkeys h]
  cases value <;> rfl

variable {slots : List (String × Option Json)} {key : String}

theorem required_present {α : Type} (hkeys : (slots.map (·.1)).Nodup) {v : Json}
    (h : (key, some v) ∈ slots) (read : Json → Option α) :
    required (present slots) key read = read v := by
  rw [required, member_present hkeys h]
  rfl

theorem optionalText_present (hkeys : (slots.map (·.1)).Nodup) {value : Option String}
    (h : (key, value.map string) ∈ slots) : optionalText (present slots) key = some value := by
  rw [optionalText, optional, member_present hkeys h]
  cases value <;> rfl

theorem mapM_read {α β : Type} {write : α → β} {read : β → Option α} {items : List α}
    (hread : ∀ a ∈ items, read (write a) = some a) : (items.map write).mapM read = some items := by
  induction items with
  | nil => rfl
  | cons a items ih =>
    have hrest := ih fun b hb => hread b (List.mem_cons_of_mem a hb)
    rw [List.map_cons, List.mapM_cons, hread a (by simp), hrest]
    rfl

theorem arrayOf?_map {α : Type} {write : α → Json} {read : Json → Option α} {items : List α}
    (hread : ∀ a ∈ items, read (write a) = some a) :
    arrayOf? read (.array (items.map write)) = some items := mapM_read hread

theorem optionalList_present {α : Type} (hkeys : (slots.map (·.1)).Nodup) {write : α → Json}
    {items : List α} (h : (key, listSlot write items) ∈ slots) {read : Json → Option α}
    (hread : ∀ a ∈ items, read (write a) = some a) :
    optionalList (present slots) key read = some items := by
  rw [optionalList, optional, member_present hkeys h]
  cases items with
  | nil => rfl
  | cons a items => exact arrayOf?_map hread

theorem isPlain_list {α : Type} {write : α → Json} {items : List α}
    (h : ∀ a ∈ items, (write a).IsPlain) : (array (items.map write)).IsPlain := by
  refine .array fun v hv => ?_
  obtain ⟨a, ha, rfl⟩ := List.mem_map.mp hv
  exact h a ha

theorem isPlain_pair {key other : String} {v w : Json} (hv : v.IsPlain) (hw : w.IsPlain) :
    (object [(key, v), (other, w)]).IsPlain := by
  refine .object fun m hm => ?_
  simp only [List.mem_cons, List.not_mem_nil, or_false] at hm
  obtain rfl | rfl := hm
  · exact hv
  · exact hw

/-! What holds of the values of all slots holds of all members. -/

section

variable {P : Json → Prop}

theorem forall_present (h : ∀ s ∈ slots, ∀ v ∈ s.2, P v) : ∀ m ∈ present slots, P m.2 := by
  intro m hm
  obtain ⟨s, hs, hmap⟩ := List.mem_filterMap.mp hm
  obtain ⟨v, hv, rfl⟩ := Option.map_eq_some_iff.mp hmap
  exact h s hs v hv

theorem forall_some {v : Json} (hv : P v) : ∀ w ∈ some v, P w := by
  intro w hw
  obtain rfl := Option.some.inj hw
  exact hv

theorem forall_textSlot (h : ∀ s, P (.string s)) {value : Option String} :
    ∀ v ∈ value.map string, P v := by
  intro v hv
  obtain ⟨s, -, rfl⟩ := Option.map_eq_some_iff.mp hv
  exact h s

theorem forall_listSlot {α : Type} {write : α → Json} {items : List α}
    (h : P (.array (items.map write))) : ∀ v ∈ listSlot write items, P v := by
  intro v hv
  cases items with
  | nil => exact absurd hv (by simp [listSlot])
  | cons a items =>
    obtain rfl := Option.some.inj hv
    exact h

end

end GraphSchema.Json
