import GraphSchema.Text.ByName
import Mathlib.Data.List.Basic

/-!
# Entries by name

Entries are put in the order of their names, none is added, and ordered ones stay as they are.
-/

namespace GraphSchema.Text

variable {α : Type}

theorem insertByName_append {name : String} {value : α}
    {entries : List (String × α)} (h : ∀ e ∈ entries, e.1 < name) :
    insertByName name value entries = entries ++ [(name, value)] := by
  induction entries with
  | nil => rfl
  | cons e entries ih =>
    obtain ⟨k, v⟩ := e
    have hlt : k < name := h (k, v) (by simp)
    have hnot : ¬name < k := String.lt_asymm hlt
    have hne : name ≠ k := by
      rintro rfl
      exact String.lt_irrefl _ hlt
    rw [insertByName, if_neg hnot, if_neg hne, ih fun e he => h e (by simp [he])]
    rfl

theorem byName_sorted {entries : List (String × α)}
    (h : entries.Pairwise fun e f => e.1 < f.1) : byName entries = entries := by
  have hrun : ∀ (sorted rest : List (String × α)),
      (sorted ++ rest).Pairwise (fun e f => e.1 < f.1) →
      rest.foldl (fun sorted e => insertByName e.1 e.2 sorted) sorted = sorted ++ rest := by
    intro sorted rest
    induction rest generalizing sorted with
    | nil => simp
    | cons e rest ih =>
      intro hsorted
      have hbefore : ∀ x ∈ sorted, x.1 < e.1 := fun x hx =>
        (List.pairwise_append.mp hsorted).2.2 x hx e (by simp)
      rw [List.foldl_cons]
      show List.foldl _ (insertByName e.1 e.2 sorted) rest = _
      rw [insertByName_append hbefore, ih]
      · simp
      · simpa using hsorted
  exact hrun [] entries h

theorem mem_insertByName {name : String} {value : α} {entries : List (String × α)}
    {e : String × α} (h : e ∈ insertByName name value entries) :
    e = (name, value) ∨ e ∈ entries := by
  induction entries with
  | nil => exact .inl (List.mem_singleton.mp h)
  | cons x entries ih =>
    obtain ⟨k, v⟩ := x
    rw [insertByName] at h
    split at h
    · exact List.mem_cons.mp h
    split at h
    · rcases List.mem_cons.mp h with h | h
      · exact .inl h
      · exact .inr (List.mem_cons_of_mem _ h)
    · rcases List.mem_cons.mp h with h | h
      · exact .inr (h ▸ List.mem_cons_self)
      · rcases ih h with h | h
        · exact .inl h
        · exact .inr (List.mem_cons_of_mem _ h)

theorem sorted_insertByName {name : String} {value : α} {entries : List (String × α)}
    (h : entries.Pairwise fun e f => e.1 < f.1) :
    (insertByName name value entries).Pairwise fun e f => e.1 < f.1 := by
  induction entries with
  | nil => exact List.pairwise_singleton _ _
  | cons x entries ih =>
    obtain ⟨k, v⟩ := x
    obtain ⟨hbefore, hrest⟩ := List.pairwise_cons.mp h
    rw [insertByName]
    split
    · next hlt =>
      refine List.pairwise_cons.mpr ⟨fun e he => ?_, h⟩
      rcases List.mem_cons.mp he with rfl | he
      · exact hlt
      · exact String.lt_trans hlt (hbefore e he)
    split
    · next heq =>
      subst heq
      exact List.pairwise_cons.mpr ⟨hbefore, hrest⟩
    · next hlt hne =>
      refine List.pairwise_cons.mpr ⟨fun e he => ?_, ih hrest⟩
      rcases mem_insertByName he with rfl | he
      · exact Decidable.byContradiction fun hnot =>
          hne (String.le_antisymm (String.not_lt.mp hnot) (String.not_lt.mp hlt))
      · exact hbefore e he

theorem byName_spec (entries : List (String × α)) :
    (byName entries).Pairwise (fun e f => e.1 < f.1) ∧ ∀ e ∈ byName entries, e ∈ entries := by
  have hrun : ∀ (sorted rest : List (String × α)), sorted.Pairwise (fun e f => e.1 < f.1) →
      (rest.foldl (fun sorted e => insertByName e.1 e.2 sorted) sorted).Pairwise
        (fun e f => e.1 < f.1) ∧
      ∀ e ∈ rest.foldl (fun sorted e => insertByName e.1 e.2 sorted) sorted,
        e ∈ sorted ∨ e ∈ rest := by
    intro sorted rest
    induction rest generalizing sorted with
    | nil => exact fun h => ⟨h, fun e he => .inl he⟩
    | cons x rest ih =>
      intro h
      obtain ⟨hsorted, hmem⟩ := ih (insertByName x.1 x.2 sorted) (sorted_insertByName h)
      refine ⟨hsorted, fun e he => ?_⟩
      rcases hmem e he with he | he
      · rcases mem_insertByName he with rfl | he
        · exact .inr List.mem_cons_self
        · exact .inl he
      · exact .inr (List.mem_cons_of_mem _ he)
  obtain ⟨hsorted, hmem⟩ := hrun [] entries .nil
  exact ⟨hsorted, fun e he => (hmem e he).resolve_left (by simp)⟩

end GraphSchema.Text
