import GraphSchema.Proofs.Sdl.Telling

/-!
# Reading values from their tokens

The tokens that the text of a value is made of are read as the value, with the name `inf` for the
infinity, whatever stands behind them.
-/

namespace GraphSchema

namespace Sdl

/-- A parser reads given tokens, whatever stands behind them. -/
def Takes {α : Type} (p : Parser α) (ts : List Token) (a : α) : Prop :=
  ∀ ⦃front back : List Located⦄, front.map (·.token) = ts → p (front ++ back) = .ok (a, back)

namespace Takes

variable {α β γ : Type} {p : Parser α} {k : α → Parser β} {ts us : List Token} {t : Token}
  {a : α} {b : β}

theorem pure (a : α) : Takes (Pure.pure a) [] a := by
  intro front back hfront
  rw [List.map_eq_nil_iff.mp hfront]
  rfl

theorem bind (hp : Takes p ts a) (hk : Takes (k a) us b) : Takes (p >>= k) (ts ++ us) b := by
  intro front back hfront
  obtain ⟨first, second, rfl, hfirst, hsecond⟩ := List.map_eq_append_iff.mp hfront
  rw [List.append_assoc]
  show (p (first ++ (second ++ back)) >>= fun x => k x.1 x.2) = _
  rw [hp hfirst]
  exact hk hsecond

theorem one (h : ∀ l back, l.token = t → p (l :: back) = .ok (a, back)) : Takes p [t] a := by
  intro front back hfront
  obtain ⟨l, rfl, hl⟩ := List.map_eq_singleton_iff.mp hfront
  exact h l back hl

theorem mark (c : Char) : Takes (Parser.mark c) [.punctuator c] () :=
  one fun _ _ hl => by rw [Parser.mark, Parser.expect, if_pos hl]

theorem skip : Takes Parser.skip [t] () := one fun _ _ _ => rfl

theorem name {s : String} : Takes Parser.name [.name s] s :=
  one fun l _ hl => by
    obtain ⟨q, token⟩ := l
    obtain rfl : token = .name s := hl
    rfl

/-- What looks at the next token knows it. -/
theorem peek {k : Option Token → Parser β} (h : Takes (k (some t)) (t :: ts) b) :
    Takes (Parser.peek >>= k) (t :: ts) b := by
  intro front back hfront
  obtain ⟨l, r, rfl, hl, hr⟩ := List.map_eq_cons_iff.mp hfront
  rw [← h hfront, ← hl]
  rfl

section Many

variable {starts : Token → Bool} {xs : List γ} {tokens : γ → List Token} {read : γ → α}

theorem manyWithin (hitem : ∀ x ∈ xs, Takes p (tokens x) (read x))
    (hstart : ∀ x ∈ xs, ∃ t ts, tokens x = t :: ts ∧ starts t = true) {stop : Located}
    (hstop : starts stop.token = false) {fuel : Nat} {front : List Located}
    (hfuel : front.length ≤ fuel) (hfront : front.map (·.token) = xs.flatMap tokens)
    (back : List Located) : Parser.manyWithin starts p fuel (front ++ stop :: back) =
      .ok (xs.map read, stop :: back) := by
  induction xs generalizing fuel front with
  | nil =>
    rw [List.map_eq_nil_iff.mp hfront]
    cases fuel with
    | zero => rfl
    | succ fuel =>
      show (if starts stop.token = true then _ else Pure.pure [] : Parser (List α)) _ = _
      rw [hstop]
      rfl
  | cons x xs ih =>
    obtain ⟨hx, hitem⟩ := List.forall_mem_cons.mp hitem
    obtain ⟨⟨t, ts, htokens, ht⟩, hstart⟩ := List.forall_mem_cons.mp hstart
    rw [List.flatMap_cons] at hfront
    obtain ⟨first, second, rfl, hfirst, hsecond⟩ := List.map_eq_append_iff.mp hfront
    have hread : p (first ++ (second ++ stop :: back)) = .ok (read x, second ++ stop :: back) :=
      hx hfirst
    rw [htokens] at hfirst
    obtain ⟨l, r, rfl, rfl, -⟩ := List.map_eq_cons_iff.mp hfirst
    rw [List.length_append, List.length_cons] at hfuel
    obtain ⟨fuel, rfl⟩ : ∃ n, fuel = n + 1 := ⟨fuel - 1, by omega⟩
    rw [List.append_assoc]
    show (if starts l.token = true then _ else Pure.pure [] : Parser (List α)) _ = _
    rw [if_pos ht]
    show (p (l :: r ++ (second ++ stop :: back)) >>= fun x =>
      (Parser.manyWithin starts p fuel >>= fun xs => Pure.pure (x.1 :: xs)) x.2) = _
    rw [hread]
    show (Parser.manyWithin starts p fuel (second ++ stop :: back) >>= fun y =>
      Except.ok (read x :: y.1, y.2)) = _
    rw [ih hitem hstart (by omega) hsecond]
    rfl

/-- Items are read up to a token that starts none. -/
theorem many {k : List α → Parser β} (hitem : ∀ x ∈ xs, Takes p (tokens x) (read x))
    (hstart : ∀ x ∈ xs, ∃ t ts, tokens x = t :: ts ∧ starts t = true) (hstop : starts t = false)
    (hk : Takes (k (xs.map read)) (t :: us) b) :
    Takes (Parser.many starts p >>= k) (xs.flatMap tokens ++ t :: us) b := by
  intro front back hfront
  obtain ⟨first, second, rfl, hfirst, hsecond⟩ := List.map_eq_append_iff.mp hfront
  obtain ⟨stop, r, rfl, rfl, -⟩ := List.map_eq_cons_iff.mp hsecond
  rw [List.append_assoc, List.cons_append]
  show (Parser.manyWithin starts p _ (first ++ stop :: (r ++ back)) >>= fun x => k x.1 x.2) = _
  rw [manyWithin hitem hstart hstop (by simp) hfirst]
  exact hk hsecond

end Many

end Takes

theorem length_le_flatMap {α β : Type} (f : α → List β) {xs : List α} {x : α} (hx : x ∈ xs) :
    (f x).length ≤ (xs.flatMap f).length :=
  (List.sublist_flatten_of_mem (List.mem_map_of_mem hx)).length_le

namespace Grammar

variable {allowed : Allowance} {constant : Bool} {n fuel : Nat} {v : Value}

theorem takes_word {t : Token} (ht : t.IsTelling) :
    Takes (valueWithin constant (fuel + 1)) [t] (Value.ofToken t) := by
  refine .peek ?_
  cases t with
  | int i => exact Takes.skip.bind (.pure _)
  | float x => exact Takes.skip.bind (.pure _)
  | name s =>
    refine Takes.skip.bind (k := fun _ => _) ?_
    rw [Value.ofToken]
    split
    · exact .pure _
    split
    · exact .pure _
    split
    · exact .pure _
    · exact .pure _
  | _ => exact False.elim ht

theorem startsItem_tokens (v : Value) : ∃ t ts, v.tokens = t :: ts ∧ startsItem t = true := by
  cases v with
  | float x => exact ⟨_, [], rfl, by split <;> rfl⟩
  | _ => exact ⟨_, _, rfl, rfl⟩

/-- A value of one word is read from its token. -/
theorem takes_spelledWord (hv : v.Spelled) (hmark : v.mark? = none)
    (hfuel : v.tokens.length ≤ fuel) :
    Takes (valueWithin constant fuel) v.tokens v.namingInfinity := by
  obtain ⟨t, ht, -, hvalue, htokens⟩ := hv.token hmark
  rw [htokens, List.length_singleton] at hfuel
  obtain ⟨fuel, rfl⟩ := Nat.exists_eq_add_of_le' hfuel
  rw [hvalue, htokens]
  exact takes_word ht

theorem takes_objectField {f : String × Value}
    (hvalue : Takes (valueWithin constant fuel) f.2.tokens f.2.namingInfinity) :
    Takes (do
        let k ← Parser.name
        Parser.mark ':'
        let v ← valueWithin constant fuel
        pure (k, v)) (Value.fieldTokens f) (f.1, f.2.namingInfinity) := by
  refine Takes.name.bind ((Takes.mark ':').bind ?_)
  rw [← List.append_nil f.2.tokens]
  exact hvalue.bind (.pure _)

/-- The tokens of a value are read as the value, with the name `inf` for the infinity. Each level
takes a token, so there is fuel for the values within. -/
theorem takes_valueWithin (hv : v.Permitted allowed constant n) (hspelled : v.Spelled)
    (hfuel : v.tokens.length ≤ fuel) :
    Takes (valueWithin constant fuel) v.tokens v.namingInfinity := by
  induction hv generalizing fuel with
  | @var _ name hconstant _ =>
    obtain ⟨fuel, rfl⟩ := Nat.exists_eq_add_of_le' (Nat.le_of_succ_le hfuel)
    refine .peek ?_
    show Takes (if constant = true then Parser.failHere
      else do Parser.skip; Value.var <$> Parser.name) _ _
    rw [if_neg (by simp [hconstant])]
    refine Takes.skip.bind (k := fun _ => _) ?_
    rw [← bind_pure_comp]
    exact Takes.name.bind (.pure _)
  | int => exact takes_spelledWord hspelled rfl hfuel
  | float => exact takes_spelledWord hspelled rfl hfuel
  | boolean => exact takes_spelledWord hspelled rfl hfuel
  | null => exact takes_spelledWord hspelled rfl hfuel
  | enum => exact takes_spelledWord hspelled rfl hfuel
  | string s =>
    obtain ⟨fuel, rfl⟩ := Nat.exists_eq_add_of_le' hfuel
    exact .peek (Takes.skip.bind (.pure _))
  | @list _ items _ _ ih =>
    cases hspelled with
    | list hitems =>
      rw [Value.tokens, Value.tokensOfItems_eq] at hfuel ⊢
      rw [List.length_cons, List.length_append] at hfuel
      obtain ⟨fuel, rfl⟩ := Nat.exists_eq_add_of_le' (Nat.le_of_add_left_le hfuel)
      have hread : ∀ u ∈ items, Takes (valueWithin constant fuel) u.tokens u.namingInfinity := by
        intro u hu
        have hlength := length_le_flatMap Value.tokens hu
        exact ih u hu (hitems u hu) (by omega)
      rw [Value.namingInfinity, Value.namingItems_eq_map]
      exact .peek (Takes.skip.bind (Takes.many hread (fun u _ => startsItem_tokens u) rfl
        ((Takes.mark ']').bind (.pure _))))
  | @object _ fields _ _ hsorted _ ih =>
    cases hspelled with
    | object hnames hvalues =>
      rw [Value.tokens, Value.tokensOfFields_eq] at hfuel ⊢
      rw [List.length_cons, List.length_append] at hfuel
      obtain ⟨fuel, rfl⟩ := Nat.exists_eq_add_of_le' (Nat.le_of_add_left_le hfuel)
      have hvalue : ∀ f ∈ fields,
          Takes (valueWithin constant fuel) f.2.tokens f.2.namingInfinity := by
        intro f hf
        have hlength := length_le_flatMap Value.fieldTokens hf
        rw [Value.fieldTokens, List.length_cons, List.length_cons] at hlength
        exact ih f hf (hvalues f hf) (by omega)
      -- The fields are in order already, so reading them sorts nothing.
      have hsame : (fields.map fun f => (f.1, f.2.namingInfinity)).Pairwise
          fun f g => f.1 < g.1 := List.pairwise_map.mpr hsorted
      rw [Value.namingInfinity, Value.namingFields_eq_map, ← Text.byName_sorted hsame]
      exact .peek (Takes.skip.bind (Takes.many (fun f hf => takes_objectField (hvalue f hf))
        (fun f _ => ⟨_, _, rfl, rfl⟩) rfl ((Takes.mark '\x7d').bind (.pure _))))

end Grammar

end Sdl

end GraphSchema
