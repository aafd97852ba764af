import GraphSchema.Json.Parser

/-!
# What the scanners accept

For each scanner of values, the ways in which it can succeed.
-/

namespace GraphSchema.Json

theorem skipSpace_solid {c : Char} (hc : isSpace c = false) (cs : List Char) :
    skipSpace (c :: cs) = c :: cs := by
  rw [skipSpace, List.dropWhile_cons_of_neg (by simp [hc])]

theorem skipSpace_skipSpace (cs : List Char) : skipSpace (skipSpace cs) = skipSpace cs := by
  induction cs with
  | nil => rfl
  | cons c cs ih =>
    cases hc : isSpace c with
    | true =>
      have hdrop : skipSpace (c :: cs) = skipSpace cs := List.dropWhile_cons_of_pos hc
      rw [hdrop, ih]
    | false => rw [skipSpace_solid hc, skipSpace_solid hc]

theorem skipSpace_append {cs : List Char} {c : Char} {r : List Char}
    (h : skipSpace cs = c :: r) (t : List Char) : skipSpace (cs ++ t) = c :: (r ++ t) := by
  induction cs with
  | nil => exact absurd h (by simp [skipSpace])
  | cons x cs ih =>
    cases hx : isSpace x with
    | true =>
      have hdrop : ∀ l, skipSpace (x :: l) = skipSpace l := fun l => List.dropWhile_cons_of_pos hx
      rw [hdrop] at h
      rw [List.cons_append, hdrop, ih h]
    | false =>
      rw [skipSpace_solid hx] at h
      rw [List.cons_append, skipSpace_solid hx]
      obtain ⟨rfl, rfl⟩ := List.cons.inj h
      rfl

theorem scanValue_congr {cs ds : List Char} (h : skipSpace cs = skipSpace ds) (n : Nat) :
    scanValue n cs = scanValue n ds := by
  cases n with
  | zero => rw [scanValue, scanValue]
  | succ n => rw [scanValue, scanValue, h]

theorem scanItems_skipSpace (n : Nat) (cs : List Char) :
    scanItems n (skipSpace cs) = scanItems n cs := by
  cases n with
  | zero => rw [scanItems, scanItems]
  | succ n => rw [scanItems, scanItems, scanValue_congr (skipSpace_skipSpace cs) n]

theorem scanMembers_skipSpace (n : Nat) (cs : List Char) :
    scanMembers n (skipSpace cs) = scanMembers n cs := by
  cases n with
  | zero => rw [scanMembers, scanMembers]
  | succ n => rw [scanMembers, scanMembers, skipSpace_skipSpace]

theorem scanAtom_nil : scanAtom [] = none := rfl

theorem scanItems_nil (n : Nat) : scanItems n [] = none := by
  cases n with
  | zero => rw [scanItems]
  | succ n =>
    rw [scanItems]
    cases n with
    | zero => rw [scanValue]; rfl
    | succ n => rw [scanValue]; rfl

theorem scanMembers_nil (n : Nat) : scanMembers n [] = none := by
  cases n with
  | zero => rw [scanMembers]
  | succ n => rw [scanMembers]; rfl

theorem scanValue_emptyArray {n : Nat} {cs r rest : List Char} (hcs : skipSpace cs = '[' :: r)
    (hr : skipSpace r = ']' :: rest) : scanValue (n + 1) cs = some (.array [], rest) := by
  rw [scanValue, hcs]
  simp only [hr]

theorem scanValue_array {n : Nat} {cs r : List Char} (hcs : skipSpace cs = '[' :: r)
    (hr : (skipSpace r).head? ≠ some ']') :
    scanValue (n + 1) cs = (scanItems n r).map fun x => (.array x.1, x.2) := by
  rw [scanValue, hcs]
  simp only
  split
  · next h => exact absurd (by rw [h]; rfl) hr
  · rw [scanItems_skipSpace]
    cases scanItems n r <;> rfl

theorem scanValue_emptyObject {n : Nat} {cs r rest : List Char}
    (hcs : skipSpace cs = '\x7b' :: r) (hr : skipSpace r = '\x7d' :: rest) :
    scanValue (n + 1) cs = some (.object [], rest) := by
  rw [scanValue, hcs]
  simp only [hr]

theorem scanValue_object {n : Nat} {cs r : List Char} (hcs : skipSpace cs = '\x7b' :: r)
    (hr : (skipSpace r).head? ≠ some '\x7d') :
    scanValue (n + 1) cs = (scanMembers n r).map fun x => (objectOf x.1, x.2) := by
  rw [scanValue, hcs]
  simp only
  split
  · next h => exact absurd (by rw [h]; rfl) hr
  · rw [scanMembers_skipSpace]
    cases scanMembers n r <;> rfl

theorem scanValue_atom {n : Nat} {cs : List Char} (harray : (skipSpace cs).head? ≠ some '[')
    (hobject : (skipSpace cs).head? ≠ some '\x7b') :
    scanValue (n + 1) cs = scanAtom (skipSpace cs) := by
  rw [scanValue]
  split
  · next h => exact absurd (by rw [h]; rfl) harray
  · next h => exact absurd (by rw [h]; rfl) hobject
  · rfl

/-- A value is an array or an object, empty or not, or an atom. -/
theorem scanValue_cases {n : Nat} {cs : List Char} {v : Json} {rest : List Char}
    (h : scanValue (n + 1) cs = some (v, rest)) :
    (∃ r, skipSpace cs = '[' :: r ∧ skipSpace r = ']' :: rest ∧ v = .array []) ∨
    (∃ r items, skipSpace cs = '[' :: r ∧ (skipSpace r).head? ≠ some ']' ∧
      scanItems n r = some (items, rest) ∧ v = .array items) ∨
    (∃ r, skipSpace cs = '\x7b' :: r ∧ skipSpace r = '\x7d' :: rest ∧ v = .object []) ∨
    (∃ r members, skipSpace cs = '\x7b' :: r ∧ (skipSpace r).head? ≠ some '\x7d' ∧
      scanMembers n r = some (members, rest) ∧ v = objectOf members) ∨
    ((skipSpace cs).head? ≠ some '[' ∧ (skipSpace cs).head? ≠ some '\x7b' ∧
      scanAtom (skipSpace cs) = some (v, rest)) := by
  by_cases harray : (skipSpace cs).head? = some '['
  · obtain ⟨r, hcs⟩ := List.head?_eq_some_iff.mp harray
    by_cases hr : (skipSpace r).head? = some ']'
    · obtain ⟨r', hr⟩ := List.head?_eq_some_iff.mp hr
      rw [scanValue_emptyArray hcs hr] at h
      obtain ⟨rfl, rfl⟩ := Prod.mk.inj (Option.some.inj h)
      exact .inl ⟨r, hcs, hr, rfl⟩
    · rw [scanValue_array hcs hr, Option.map_eq_some_iff] at h
      obtain ⟨x, hitems, hx⟩ := h
      obtain ⟨rfl, rfl⟩ := Prod.mk.inj hx
      exact .inr (.inl ⟨r, x.1, hcs, hr, hitems, rfl⟩)
  by_cases hobject : (skipSpace cs).head? = some '\x7b'
  · obtain ⟨r, hcs⟩ := List.head?_eq_some_iff.mp hobject
    by_cases hr : (skipSpace r).head? = some '\x7d'
    · obtain ⟨r', hr⟩ := List.head?_eq_some_iff.mp hr
      rw [scanValue_emptyObject hcs hr] at h
      obtain ⟨rfl, rfl⟩ := Prod.mk.inj (Option.some.inj h)
      exact .inr (.inr (.inl ⟨r, hcs, hr, rfl⟩))
    · rw [scanValue_object hcs hr, Option.map_eq_some_iff] at h
      obtain ⟨x, hmembers, hx⟩ := h
      obtain ⟨rfl, rfl⟩ := Prod.mk.inj hx
      exact .inr (.inr (.inr (.inl ⟨r, x.1, hcs, hr, hmembers, rfl⟩)))
  · rw [scanValue_atom harray hobject] at h
    exact .inr (.inr (.inr (.inr ⟨harray, hobject, h⟩)))

theorem scanItems_last {n : Nat} {cs r rest : List Char} {v : Json}
    (hv : scanValue n cs = some (v, r)) (hr : skipSpace r = ']' :: rest) :
    scanItems (n + 1) cs = some ([v], rest) := by
  rw [scanItems, hv]
  simp only [Option.bind_eq_bind, Option.bind_some, hr]
  rfl

theorem scanItems_more {n : Nat} {cs r r' : List Char} {v : Json}
    (hv : scanValue n cs = some (v, r)) (hr : skipSpace r = ',' :: r') :
    scanItems (n + 1) cs = (scanItems n r').map fun x => (v :: x.1, x.2) := by
  rw [scanItems, hv]
  simp only [Option.bind_eq_bind, Option.bind_some, hr]
  cases scanItems n r' <;> rfl

theorem scanItems_cases {n : Nat} {cs : List Char} {items : List Json} {rest : List Char}
    (h : scanItems (n + 1) cs = some (items, rest)) : ∃ v r, scanValue n cs = some (v, r) ∧
      (skipSpace r = ']' :: rest ∧ items = [v] ∨
        ∃ r' others, skipSpace r = ',' :: r' ∧ scanItems n r' = some (others, rest) ∧
          items = v :: others) := by
  have hscan := h
  rw [scanItems] at h
  obtain ⟨⟨v, r⟩, hv, h⟩ := Option.bind_eq_some_iff.mp h
  simp only at h
  refine ⟨v, r, hv, ?_⟩
  split at h
  · next r' hr =>
    rw [scanItems_more hv hr, Option.map_eq_some_iff] at hscan
    obtain ⟨x, hx, heq⟩ := hscan
    obtain ⟨rfl, rfl⟩ := Prod.mk.inj heq
    exact .inr ⟨r', x.1, hr, hx, rfl⟩
  · next r' hr =>
    obtain ⟨rfl, rfl⟩ := Prod.mk.inj (Option.some.inj h)
    exact .inl ⟨hr, rfl⟩
  · exact absurd h (by simp)

theorem scanMembers_last {n : Nat} {cs r r' r'' r₃ rest : List Char} {key : Option String}
    {v : Json} (hcs : skipSpace cs = '"' :: r) (hkey : scanString r = some (key, r'))
    (hcolon : skipSpace r' = ':' :: r'') (hv : scanValue n r'' = some (v, r₃))
    (hr : skipSpace r₃ = '\x7d' :: rest) :
    scanMembers (n + 1) cs = some ([(key, v)], rest) := by
  rw [scanMembers, hcs]
  simp only [Option.bind_eq_bind, hkey, Option.bind_some, hcolon, hv, hr]
  rfl

theorem scanMembers_more {n : Nat} {cs r r' r'' r₃ r₄ : List Char} {key : Option String}
    {v : Json} (hcs : skipSpace cs = '"' :: r) (hkey : scanString r = some (key, r'))
    (hcolon : skipSpace r' = ':' :: r'') (hv : scanValue n r'' = some (v, r₃))
    (hr : skipSpace r₃ = ',' :: r₄) :
    scanMembers (n + 1) cs = (scanMembers n r₄).map fun x => ((key, v) :: x.1, x.2) := by
  rw [scanMembers, hcs]
  simp only [Option.bind_eq_bind, hkey, Option.bind_some, hcolon, hv, hr]
  cases scanMembers n r₄ <;> rfl

theorem scanMembers_cases {n : Nat} {cs : List Char} {members : List (Option String × Json)}
    {rest : List Char} (h : scanMembers (n + 1) cs = some (members, rest)) :
    ∃ r key r' r'' v r₃, skipSpace cs = '"' :: r ∧ scanString r = some (key, r') ∧
      skipSpace r' = ':' :: r'' ∧ scanValue n r'' = some (v, r₃) ∧
      (skipSpace r₃ = '\x7d' :: rest ∧ members = [(key, v)] ∨
        ∃ r₄ others, skipSpace r₃ = ',' :: r₄ ∧ scanMembers n r₄ = some (others, rest) ∧
          members = (key, v) :: others) := by
  have hscan := h
  rw [scanMembers] at h
  split at h
  · next r hcs =>
    obtain ⟨⟨key, r'⟩, hkey, h⟩ := Option.bind_eq_some_iff.mp h
    simp only at h
    split at h
    · next r'' hcolon =>
      obtain ⟨⟨v, r₃⟩, hv, h⟩ := Option.bind_eq_some_iff.mp h
      simp only at h
      refine ⟨r, key, r', r'', v, r₃, hcs, hkey, hcolon, hv, ?_⟩
      split at h
      · next r₄ hr =>
        rw [scanMembers_more hcs hkey hcolon hv hr, Option.map_eq_some_iff] at hscan
        obtain ⟨x, hx, heq⟩ := hscan
        obtain ⟨rfl, rfl⟩ := Prod.mk.inj heq
        exact .inr ⟨r₄, x.1, hr, hx, rfl⟩
      · next r₄ hr =>
        obtain ⟨rfl, rfl⟩ := Prod.mk.inj (Option.some.inj h)
        exact .inl ⟨hr, rfl⟩
      · exact absurd h (by simp)
    · exact absurd h (by simp)
  · exact absurd h (by simp)

end GraphSchema.Json
