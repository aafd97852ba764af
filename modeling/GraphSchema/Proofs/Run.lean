import Mathlib.Data.List.Basic
import Mathlib.Data.List.Forall2

/-!
# Runs of steps that may fail

A run takes a list of inputs one by one and ends at the first step that fails.
If every step accepts its input exactly when the inputs so far have a property,
then so does the run. The property may look at all inputs together and need not
know the state.
-/

namespace GraphSchema

variable {ε σ α β : Type}

/-- A sequence of two computations succeeds exactly if both do in turn. -/
theorem bind_eq_ok {x : Except ε α} {f : α → Except ε β} {b : β} :
    x >>= f = .ok b ↔ ∃ a, x = .ok a ∧ f a = .ok b := by
  cases x with
  | error e => simp [bind, Except.bind]
  | ok a => simp [bind, Except.bind]

theorem mapError_eq_ok_iff {ε' : Type} {x : Except ε α} {f : ε → ε'} {a : α} :
    x.mapError f = .ok a ↔ x = .ok a := by
  cases x with
  | error e => simp [Except.mapError]
  | ok b => simp [Except.mapError]

theorem throw_ne_ok {e : ε} {a : α} : (throw e : Except ε α) ≠ .ok a := by
  simp [throw, throwThe, MonadExceptOf.throw]

/-- A run over pieces is a run over all that the pieces hold. -/
theorem foldlM_flatMap (step : σ → β → Except ε σ) (pieces : α → List β) (inputs : List α)
    (s : σ) :
    (inputs.flatMap pieces).foldlM step s =
      inputs.foldlM (fun s a => (pieces a).foldlM step s) s := by
  induction inputs generalizing s with
  | nil => rfl
  | cons a r ih =>
    rw [List.flatMap_cons, List.foldlM_append, List.foldlM_cons]
    congr 1
    funext t
    exact ih t

/-- A run fails exactly if some step does after a run that ends well, whatever inputs are left. -/
theorem foldlM_eq_error_iff {step : σ → α → Except ε σ} {inputs : List α} {s : σ} {e : ε} :
    inputs.foldlM step s = .error e ↔ ∃ before a after t, inputs = before ++ a :: after ∧
      before.foldlM step s = .ok t ∧ step t a = .error e := by
  constructor
  · intro h
    induction inputs generalizing s with
    | nil => exact absurd h (by simp [pure, Except.pure])
    | cons b inputs ih =>
      rw [List.foldlM_cons] at h
      cases hb : step s b with
      | error e' =>
        rw [hb] at h
        exact ⟨[], b, inputs, s, rfl, rfl, hb.trans h⟩
      | ok u =>
        rw [hb] at h
        obtain ⟨before, a, after, t, rfl, ht, ha⟩ := ih h
        exact ⟨b :: before, a, after, t, rfl, by rw [List.foldlM_cons, hb]; exact ht, ha⟩
  · rintro ⟨before, a, after, t, rfl, ht, ha⟩
    rw [List.foldlM_append, ht]
    show (a :: after).foldlM step t = .error e
    rw [List.foldlM_cons, ha]
    rfl

/-- What every step keeps is kept by a run. -/
theorem foldlM_keeps (Inv : σ → Prop) {step : σ → α → Except ε σ} {inputs : List α} {s t : σ}
    (hstep : ∀ a ∈ inputs, ∀ s t, Inv s → step s a = .ok t → Inv t) (hs : Inv s)
    (ht : inputs.foldlM step s = .ok t) : Inv t := by
  induction inputs generalizing s with
  | nil =>
    obtain rfl := Except.ok.inj ht
    exact hs
  | cons a inputs ih =>
    obtain ⟨u, hu, ht⟩ := bind_eq_ok.mp ht
    have hnext := hstep a List.mem_cons_self s u hs hu
    exact ih (fun b hb => hstep b (List.mem_cons_of_mem a hb)) hnext ht

/-- A traversal succeeds exactly if each of its items does. -/
theorem exists_mapM_iff {f : α → Except ε β} {items : List α} :
    (∃ bs, items.mapM f = .ok bs) ↔ ∀ a ∈ items, ∃ b, f a = .ok b := by
  induction items with
  | nil => exact ⟨fun _ a ha => absurd ha (by simp), fun _ => ⟨[], rfl⟩⟩
  | cons a items ih =>
    simp only [List.mapM_cons, bind_eq_ok, List.forall_mem_cons, ← ih]
    constructor
    · rintro ⟨_, b, hb, bs, hbs, -⟩
      exact ⟨⟨b, hb⟩, bs, hbs⟩
    · rintro ⟨⟨b, hb⟩, bs, hbs⟩
      exact ⟨b :: bs, b, hb, bs, hbs, rfl⟩

/-- The results of a traversal are those of its items, in order. -/
theorem forall₂_of_mapM {f : α → Except ε β} {items : List α} {bs : List β}
    (h : items.mapM f = .ok bs) : List.Forall₂ (fun a b => f a = .ok b) items bs := by
  induction items generalizing bs with
  | nil =>
    obtain rfl := Except.ok.inj h
    exact .nil
  | cons a items ih =>
    simp only [List.mapM_cons, bind_eq_ok] at h
    obtain ⟨b, hb, rest, hrest, hbs⟩ := h
    obtain rfl := Except.ok.inj hbs
    exact .cons hb (ih hrest)

/-- A traversal has some results exactly if its items have them, in order. -/
theorem mapM_eq_ok_iff {f : α → Except ε β} {items : List α} {bs : List β} :
    items.mapM f = .ok bs ↔ List.Forall₂ (fun a b => f a = .ok b) items bs := by
  refine ⟨forall₂_of_mapM, fun h => ?_⟩
  induction h with
  | nil => rfl
  | cons hab _ ih =>
    rw [List.mapM_cons]
    exact bind_eq_ok.mpr ⟨_, hab, bind_eq_ok.mpr ⟨_, ih, rfl⟩⟩

/-- A check of what a computation gives shows that it gives something. -/
theorem exists_ok_of_any {x : Except ε α} {p : α → Bool} (h : x.toOption.any p = true) :
    ∃ a, x = .ok a ∧ p a = true := by
  cases x with
  | error e => exact absurd h (by simp [Except.toOption])
  | ok a => exact ⟨a, rfl, h⟩

section

variable (step : σ → α → Except ε σ) (Inv : σ → List α → Prop) (Good : List α → Prop)

/-- A run from a state that has accepted some inputs accepts the rest exactly if all together
have the property, and the invariant holds where it ends. -/
theorem foldlM_ok_iff
    (hgood : ∀ s l, Inv s l → Good l)
    (hmono : ∀ l m, Good (l ++ m) → Good l)
    (haccepts : ∀ s l a, Inv s l → ((∃ t, step s a = .ok t) ↔ Good (l ++ [a])))
    (hkeeps : ∀ s l a t, Inv s l → step s a = .ok t → Inv t (l ++ [a]))
    (inputs : List α) {s : σ} {l : List α} (hs : Inv s l) :
    ((∃ t, inputs.foldlM step s = .ok t) ↔ Good (l ++ inputs)) ∧
      ∀ t, inputs.foldlM step s = .ok t → Inv t (l ++ inputs) := by
  induction inputs generalizing s l with
  | nil =>
    rw [List.append_nil]
    refine ⟨⟨fun _ => hgood s l hs, fun _ => ⟨s, rfl⟩⟩, ?_⟩
    rintro t ht
    cases ht
    exact hs
  | cons a r ih =>
    have hassoc : l ++ a :: r = (l ++ [a]) ++ r := by simp
    simp only [List.foldlM_cons, bind_eq_ok, hassoc]
    refine ⟨⟨?_, ?_⟩, ?_⟩
    · rintro ⟨t, u, hu, ht⟩
      exact (ih (hkeeps s l a u hs hu)).1.mp ⟨t, ht⟩
    · intro hg
      obtain ⟨u, hu⟩ := (haccepts s l a hs).mpr (hmono _ _ hg)
      obtain ⟨t, ht⟩ := (ih (hkeeps s l a u hs hu)).1.mpr hg
      exact ⟨t, u, hu, ht⟩
    · rintro t ⟨u, hu, ht⟩
      exact (ih (hkeeps s l a u hs hu)).2 t ht

end

end GraphSchema
