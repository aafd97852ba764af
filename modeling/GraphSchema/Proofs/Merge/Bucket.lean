import GraphSchema.Merge.Bucket
import Mathlib.Data.List.Induction

/-!
# What a bucket holds

A bucket is described by the log of all puts into it, accepted or not. It holds
the first entry of each name, in order, and its positions are those of the names
among these first entries. Every put keeps this, so nothing has to be known of
how the log came about.
-/

namespace GraphSchema.Merge.Bucket

variable {α : Type}

/-- The first entry of each name, in order. -/
def firsts : List (String × Entry α) → List (String × Entry α)
  | [] => []
  | e :: r => e :: (firsts r).filter fun x => x.1 != e.1

theorem lookup_filter_ne (log : List (String × Entry α)) {name other : String} (h : name ≠ other) :
    (log.filter fun x => x.1 != other).lookup name = log.lookup name := by
  induction log with
  | nil => rfl
  | cons e r ih =>
    obtain ⟨key, entry⟩ := e
    by_cases hk : key = other
    · have hn : (name == key) = false := by simp [hk, h]
      rw [List.lookup_cons, hn, ← ih]
      simp [hk]
    · simp [hk, List.lookup_cons, ih]

/-- Leaving out later entries does not change what is found under a name. -/
theorem lookup_firsts (log : List (String × Entry α)) (name : String) :
    (firsts log).lookup name = log.lookup name := by
  induction log with
  | nil => rfl
  | cons e r ih =>
    obtain ⟨key, entry⟩ := e
    by_cases hk : name = key
    · simp [firsts, hk]
    · have hn : (name == key) = false := by simp [hk]
      simp only [firsts, List.lookup_cons, hn]
      rw [lookup_filter_ne _ hk, ih]

/-- One more put adds an entry exactly if its name is new. -/
theorem firsts_append_singleton (log : List (String × Entry α)) (e : String × Entry α) :
    firsts (log ++ [e]) =
      if (log.lookup e.1).isSome then firsts log else firsts log ++ [e] := by
  induction log with
  | nil => simp [firsts]
  | cons a r ih =>
    obtain ⟨key, entry⟩ := a
    simp only [List.cons_append, firsts, ih, List.lookup_cons]
    by_cases hk : e.1 = key
    · have hb : (e.1 == key) = true := by simp [hk]
      simp only [hb, Option.isSome_some, if_true]
      split
      · rfl
      · simp [List.filter_append, hk]
    · have hb : (e.1 == key) = false := by simp [hk]
      simp only [hb]
      split
      · rfl
      · simp [List.filter_append, hk]

/-- The names of first entries are all different. -/
theorem nodup_firsts (log : List (String × Entry α)) : ((firsts log).map (·.1)).Nodup := by
  induction log with
  | nil => simp [firsts]
  | cons e r ih =>
    simp only [firsts, List.map_cons, List.nodup_cons]
    refine ⟨by simp, ?_⟩
    exact (List.filter_sublist.map _).nodup ih

/-- The bucket holds the first entries of a log, and knows where each of them is. -/
structure Holds (b : Bucket α) (log : List (String × Entry α)) : Prop where
  entries : b.entries.toList = (firsts log).map (·.2)
  positions : ∀ (name : String) (i : Nat), b.positions[name]? = some i ↔
    ((firsts log)[i]?).map Prod.fst = some name

theorem holds_empty : (empty : Bucket α).Holds [] := by
  constructor
  · rfl
  · intro name i; simp [empty, firsts]

variable {b : Bucket α} {log : List (String × Entry α)}

theorem Holds.size_eq (h : b.Holds log) : b.entries.size = (firsts log).length := by
  rw [← Array.length_toList, h.entries, List.length_map]

/-- A bucket finds the first entry that was put under a name. -/
theorem Holds.find?_eq (h : b.Holds log) (name : String) : b.find? name = log.lookup name := by
  rw [← lookup_firsts]
  cases hp : b.positions[name]? with
  | none =>
    have hn : (firsts log).lookup name = none := by
      rw [List.lookup_eq_none_iff]
      intro p hp'
      rw [bne_iff_ne]
      intro hk
      obtain ⟨i, hi, hg⟩ := List.mem_iff_getElem.mp hp'
      have hs := (h.positions name i).mpr (by simp [List.getElem?_eq_getElem hi, hg, hk])
      rw [hp] at hs
      cases hs
    simp [find?, hp, hn]
  | some i =>
    obtain ⟨p, hg, hk⟩ := Option.map_eq_some_iff.mp ((h.positions name i).mp hp)
    have hl : (firsts log).lookup name = some p.2 := by
      rw [List.lookup_eq_some_iff]
      obtain ⟨hi, hg'⟩ := List.getElem?_eq_some_iff.mp hg
      refine ⟨(firsts log).take i, (firsts log).drop (i + 1), ?_, ?_⟩
      · rw [← hk]
        conv_lhs => rw [← List.take_append_drop i (firsts log), List.drop_eq_getElem_cons hi, hg']
      · intro q hq
        rw [bne_iff_ne]
        intro he
        have hd := nodup_firsts log
        rw [← List.take_append_drop i (firsts log), List.drop_eq_getElem_cons hi, hg',
          List.map_append, List.nodup_append] at hd
        apply hd.2.2 q.1 (List.mem_map_of_mem hq) p.1 (by simp)
        rw [hk]; exact he.symm
    have he : b.entries[i]? = some p.2 := by
      rw [← Array.getElem?_toList, h.entries, List.getElem?_map, hg]
      rfl
    simp [find?, hp, he, hl]

/-- Behind entries of other names, a new entry is the one of its name, and the rest stay. -/
theorem getElem?_append_new {log : List (String × Entry α)} {e : String × Entry α}
    (hnew : log.lookup e.1 = none) (name : String) (i : Nat) :
    ((log ++ [e])[i]?).map Prod.fst = some name ↔
      if e.1 = name then i = log.length else (log[i]?).map Prod.fst = some name := by
  rcases Nat.lt_trichotomy i log.length with hlt | heq | hgt
  · rw [List.getElem?_append_left hlt]
    split
    · have hn : (log[i]?).map Prod.fst ≠ some name := by
        intro hi
        obtain ⟨p, hg, hk⟩ := Option.map_eq_some_iff.mp hi
        have hne := List.lookup_eq_none_iff.mp hnew p (List.mem_of_getElem? hg)
        simp_all
      exact ⟨fun h => absurd h hn, fun h => absurd h (by omega)⟩
    · exact Iff.rfl
  · subst heq
    simp
  · rw [List.getElem?_eq_none (by simp; omega), List.getElem?_eq_none (by omega)]
    split
    · simp; omega
    · exact Iff.rfl

/-- Every put, whatever becomes of it, is one more entry of the log. -/
theorem Holds.insert [DecidableEq α] (h : b.Holds log) (name : String) (item : α)
    (origin : String) :
    (b.insert name item origin).2.Holds (log ++ [(name, ⟨item, origin⟩)]) := by
  have hf := h.find?_eq name
  have hs := firsts_append_singleton log (name, ⟨item, origin⟩)
  cases hl : log.lookup name with
  | some e =>
    simp only [hl, Option.isSome_some, if_true] at hs hf
    simp only [Bucket.insert, hf]
    exact ⟨hs ▸ h.entries, hs ▸ h.positions⟩
  | none =>
    simp only [hl, Option.isSome_none, Bool.false_eq_true, if_false] at hs hf
    simp only [Bucket.insert, hf]
    constructor
    · simp [hs, h.entries]
    · intro other i
      rw [hs, getElem?_append_new (by rw [lookup_firsts, hl]), Std.TreeMap.getElem?_insert,
        h.size_eq]
      by_cases hn : name = other
      · simp [hn, eq_comm]
      · rw [if_neg hn, if_neg (by simpa using hn), h.positions]

/-- What becomes of a put is decided by the first entry under its name. -/
theorem Holds.insert_outcome [DecidableEq α] (h : b.Holds log) (name : String) (item : α)
    (origin : String) :
    (b.insert name item origin).1 =
      match log.lookup name with
      | some e => if e.item = item then .duplicate else .conflict e.origin
      | none => .inserted := by
  simp only [Bucket.insert, h.find?_eq name]
  cases log.lookup name <;> rfl

/-- Entries of one name have one item. -/
def Agree (log : List (String × Entry α)) : Prop :=
  ∀ x ∈ log, ∀ y ∈ log, x.1 = y.1 → x.2.item = y.2.item

theorem Agree.of_append {log rest : List (String × Entry α)} (h : Agree (log ++ rest)) :
    Agree log :=
  fun x hx y hy => h x (List.mem_append_left _ hx) y (List.mem_append_left _ hy)

theorem agree_append_singleton {log : List (String × Entry α)} {e : String × Entry α} :
    Agree (log ++ [e]) ↔ Agree log ∧ ∀ x ∈ log, x.1 = e.1 → x.2.item = e.2.item := by
  constructor
  · intro h
    exact ⟨h.of_append, fun x hx => h x (by simp [hx]) e (by simp)⟩
  · rintro ⟨h, he⟩ x hx y hy hk
    simp only [List.mem_append, List.mem_singleton] at hx hy
    rcases hx with hx | rfl <;> rcases hy with hy | rfl
    · exact h x hx y hy hk
    · exact he x hx hk
    · exact (he y hy hk.symm).symm
    · rfl

/-- Where items are put under their own names, they agree exactly if no two of one name differ. -/
theorem agree_iff {log : List (String × Entry α)} {nameOf : α → String}
    (hname : ∀ x ∈ log, x.1 = nameOf x.2.item) :
    Agree log ↔ ∀ a ∈ log.map (·.2.item), ∀ b ∈ log.map (·.2.item),
      nameOf a = nameOf b → a = b := by
  constructor
  · intro h a ha b hb hn
    obtain ⟨x, hx, rfl⟩ := List.mem_map.mp ha
    obtain ⟨y, hy, rfl⟩ := List.mem_map.mp hb
    exact h x hx y hy (by rw [hname x hx, hname y hy, hn])
  · intro h x hx y hy hk
    rw [hname x hx, hname y hy] at hk
    exact h _ (List.mem_map_of_mem hx) _ (List.mem_map_of_mem hy) hk

/-- A put is accepted exactly if all earlier entries agree with it. -/
theorem Holds.insert_accepts_iff [DecidableEq α] (h : b.Holds log) (ha : Agree log)
    (name : String) (item : α) (origin : String) :
    (∀ first, (b.insert name item origin).1 ≠ .conflict first) ↔
      Agree (log ++ [(name, ⟨item, origin⟩)]) := by
  rw [agree_append_singleton, h.insert_outcome]
  cases hl : log.lookup name with
  | none =>
    have hnone : ∀ x ∈ log, x.1 ≠ name := by
      intro x hx hk
      simpa [hk] using List.lookup_eq_none_iff.mp hl x hx
    simpa [ha] using fun key entry hx hk => absurd hk (hnone (key, entry) hx)
  | some e =>
    obtain ⟨before, after, hlog, -⟩ := List.lookup_eq_some_iff.mp hl
    have he : (name, e) ∈ log := by simp [hlog]
    constructor
    · intro hc
      have hi : e.item = item := by
        by_contra hne
        exact hc e.origin (by simp [hne])
      exact ⟨ha, fun x hx hk => (ha x hx _ he hk).trans hi⟩
    · rintro ⟨-, hall⟩ first
      have hi : e.item = item := hall _ he rfl
      simp [hi]

/-- The items are those of the first entries, in their order. -/
theorem Holds.items_eq (h : b.Holds log) : b.items = (firsts log).map (·.2.item) := by
  simp [items, h.entries]

theorem Holds.originOf?_eq (h : b.Holds log) (name : String) :
    b.originOf? name = (log.lookup name).map (·.origin) := by
  rw [originOf?, h.find?_eq]

/-- The first put of all gives the first entry. -/
theorem Holds.firstOrigin?_eq (h : b.Holds log) : b.firstOrigin? = log.head?.map (·.2.origin) := by
  rw [firstOrigin?, ← Array.getElem?_toList, h.entries]
  cases log <;> simp [firsts]

/-- Where items are put under their own names and agree, the first entries have every item once,
in first-seen order. -/
theorem map_item_firsts [DecidableEq α] {nameOf : α → String}
    (hname : ∀ x ∈ log, x.1 = nameOf x.2.item) (ha : Agree log) :
    (firsts log).map (·.2.item) = (log.map (·.2.item)).eraseDups := by
  -- From the back, since the last put meets all the others.
  induction log using List.reverseRecOn with
  | nil => rfl
  | append_singleton r e ih =>
    have hr := ih (fun x hx => hname x (List.mem_append_left _ hx)) ha.of_append
    have he : (r.lookup e.1).isSome ↔ e.2.item ∈ r.map (·.2.item) := by
      rw [List.lookup_isSome_iff]
      simp only [List.mem_map, beq_iff_eq]
      constructor
      · rintro ⟨x, hx, hk⟩
        exact ⟨x, hx, ha x (by simp [hx]) e (by simp) hk.symm⟩
      · rintro ⟨x, hx, hk⟩
        refine ⟨x, hx, ?_⟩
        rw [hname x (by simp [hx]), hname e (by simp), hk]
    have hremove : [e.2.item].removeAll (r.map (·.2.item)) =
        if (r.lookup e.1).isSome then [] else [e.2.item] := by
      by_cases hk : (r.lookup e.1).isSome
      · rw [if_pos hk]
        simpa [List.removeAll] using he.mp hk
      · rw [if_neg hk]
        simpa [List.removeAll] using fun h => hk (he.mpr h)
    rw [firsts_append_singleton, List.map_append, List.eraseDups_append, ← hr, List.map_cons,
      List.map_nil, hremove]
    split
    · simp
    · simp [List.eraseDups_cons]

end GraphSchema.Merge.Bucket
