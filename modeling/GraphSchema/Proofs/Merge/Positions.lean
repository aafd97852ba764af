import GraphSchema.Proofs.Merge.Bucket

/-!
# Positions in a bucket

The positions of a bucket stay in step with its entries, whatever is put into it and in whatever
order. So every name leads to the entry that was first put under it.
-/

namespace GraphSchema.Merge.Bucket

variable {α : Type}

/-- The bucket after puts, accepted or not. -/
def puts [DecidableEq α] (log : List (String × Entry α)) : Bucket α :=
  log.foldl (fun b e => (b.insert e.1 e.2.item e.2.origin).2) empty

/-- Names and entries correspond one to one. -/
structure InStep (b : Bucket α) : Prop where
  inRange : ∀ {name : String} {i : Nat}, b.positions[name]? = some i → i < b.entries.size
  apart : ∀ {name other : String} {i : Nat},
    b.positions[name]? = some i → b.positions[other]? = some i → name = other
  named : ∀ {i : Nat}, i < b.entries.size → ∃! name : String, b.positions[name]? = some i

theorem Holds.inStep {b : Bucket α} {log : List (String × Entry α)} (h : b.Holds log) :
    b.InStep where
  inRange := by
    intro name i hi
    obtain ⟨e, he, -⟩ := Option.map_eq_some_iff.mp ((h.positions name i).mp hi)
    rw [h.size_eq]
    exact (List.getElem?_eq_some_iff.mp he).1
  apart := by
    intro name other i hname hother
    rw [h.positions] at hname hother
    exact Option.some.inj (hname.symm.trans hother)
  named := by
    intro i hi
    rw [h.size_eq] at hi
    have hname (name : String) :
        b.positions[name]? = some i ↔ (firsts log)[i].1 = name := by
      rw [h.positions, List.getElem?_eq_getElem hi, Option.map_some, Option.some.injEq]
    exact ⟨_, (hname _).mpr rfl, fun other hother => ((hname other).mp hother).symm⟩

/-- A name has a position exactly if something was put under it. -/
theorem Holds.isSome_position {b : Bucket α} {log : List (String × Entry α)} (h : b.Holds log)
    (name : String) : (b.positions[name]?).isSome = (log.lookup name).isSome := by
  rw [← h.find?_eq, find?]
  cases hp : b.positions[name]? with
  | none => rfl
  | some i => simp [h.inStep.inRange hp]

variable [DecidableEq α]

theorem puts_append_singleton (log : List (String × Entry α)) (e : String × Entry α) :
    puts (log ++ [e]) = ((puts log).insert e.1 e.2.item e.2.origin).2 := by
  rw [puts, List.foldl_append]
  rfl

theorem holds_puts (log : List (String × Entry α)) : (puts log).Holds log := by
  induction log using List.reverseRecOn with
  | nil => exact holds_empty
  | append_singleton log e ih =>
    rw [puts_append_singleton]
    exact ih.insert e.1 e.2.item e.2.origin

/-- An item under a name that is taken changes nothing. It is a duplicate, or else it is refused
with the origin of the first one. -/
theorem Holds.insert_taken {b : Bucket α} {log : List (String × Entry α)} (h : b.Holds log)
    {name : String} {first : Entry α} (hfirst : log.lookup name = some first) (item : α)
    (origin : String) :
    b.insert name item origin =
      (if first.item = item then .duplicate else .conflict first.origin, b) := by
  rw [Bucket.insert, h.find?_eq, hfirst]

/-- After any puts, names and entries correspond one to one, and under every name stands the first
item that was put under it, with its origin. A later put under the name changes nothing. -/
theorem inStep_puts (log : List (String × Entry α)) :
    (puts log).InStep ∧
    (∀ name, (puts log).find? name = log.lookup name ∧
      (puts log).originOf? name = (log.lookup name).map (·.origin) ∧
      ((puts log).positions[name]?).isSome = (log.lookup name).isSome) ∧
    (puts log).firstOrigin? = log.head?.map (·.2.origin) ∧
    ∀ name item origin, (puts log).insert name item origin =
      match log.lookup name with
      | none => (.inserted, puts (log ++ [(name, ⟨item, origin⟩)]))
      | some first =>
          (if first.item = item then .duplicate else .conflict first.origin, puts log) := by
  have h := holds_puts log
  refine ⟨h.inStep, fun name => ?_, h.firstOrigin?_eq, fun name item origin => ?_⟩
  · exact ⟨h.find?_eq name, h.originOf?_eq name, h.isSome_position name⟩
  · cases hfirst : log.lookup name with
    | none =>
      have houtcome := h.insert_outcome name item origin
      rw [hfirst] at houtcome
      exact Prod.ext houtcome (puts_append_singleton log (name, ⟨item, origin⟩)).symm
    | some first => exact h.insert_taken hfirst item origin

/-- A repeated item and a refused one leave the entries as they are. -/
example : (puts [("A", ⟨1, "a"⟩), ("B", ⟨2, "a"⟩), ("A", ⟨1, "b"⟩), ("B", ⟨3, "c"⟩)]).items =
    [1, 2] := by cbv

end GraphSchema.Merge.Bucket
