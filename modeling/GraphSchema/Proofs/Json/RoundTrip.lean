import GraphSchema.Proofs.Json.Layout

/-!
# Writing JSON and reading it back

A plain value is read back from its text in any layout, so from its compact and from its pretty
text.
-/

namespace GraphSchema.Json

/-- A value whose numbers are natural and whose strings are texts. -/
inductive IsPlain : Json → Prop
  | null : IsPlain .null
  | bool (b : Bool) : IsPlain (.bool b)
  | natural (n : Nat) : IsPlain (.natural n)
  | string (s : String) : IsPlain (.string s)
  | array {items : List Json} (hitems : ∀ v ∈ items, IsPlain v) : IsPlain (.array items)
  | object {members : List (String × Json)} (hmembers : ∀ m ∈ members, IsPlain m.2) :
      IsPlain (.object members)

theorem digits_cons (n : Nat) : ∃ c r, Nat.toDigits 10 n = c :: r ∧ c.isDigit = true := by
  cases h : Nat.toDigits 10 n with
  | nil => exact absurd h Nat.toDigits_ne_nil
  | cons c r => exact ⟨c, r, rfl, Text.isDigit_of_mem (n := n) (by simp [h])⟩

theorem solid_digit {c : Char} (hc : c.isDigit = true) :
    isSpace c = false ∧ c ≠ '[' ∧ c ≠ '\x7b' := by
  refine ⟨?_, ?_, ?_⟩
  · cases hspace : isSpace c with
    | false => rfl
    | true =>
      simp only [isSpace, Bool.or_eq_true, decide_eq_true_eq] at hspace
      rcases hspace with ((rfl | rfl) | rfl) | rfl <;> exact absurd hc (by decide)
  · rintro rfl
    exact absurd hc (by decide)
  · rintro rfl
    exact absurd hc (by decide)

/-- A value is read whole from a text. -/
def ReadsFrom (text : List Char) (v : Json) : Prop :=
  ∀ n rest, 2 * text.length ≤ n → EndsNumber rest → scanValue n (text ++ rest) = some (v, rest)

section

variable {gap close behind : List Char} (write : Json → List Char) {rest : List Char}

theorem ReadsFrom.scanValue_gap {text : List Char} {v : Json} (h : ReadsFrom text v)
    (hgap : IsGap gap) {n : Nat} (hn : 2 * text.length ≤ n) (hrest : EndsNumber rest) :
    scanValue n (gap ++ (text ++ rest)) = some (v, rest) := by
  rw [scanValue_congr (hgap.skipSpace_append _), h n rest hn hrest]

/-- Behind the last item or member stands the bracket that closes. -/
theorem skipSpace_close (hclose : IsGap close) {c : Char} (hc : isSpace c = false) :
    skipSpace (close ++ c :: rest) = c :: rest := by
  rw [hclose.skipSpace_append, skipSpace_solid hc]

/-- Each text takes two of the fuel at least, one for its reader and one for the reader of the
rest. -/
theorem scanItems_spread (hgap : IsGap gap) (hclose : IsGap close) {v : Json} {items : List Json}
    (hitems : ∀ x ∈ v :: items, ReadsFrom (write x) x) {n : Nat}
    (hn : 2 * (spread gap ((v :: items).map write)).length < n) :
    scanItems n (spread gap ((v :: items).map write) ++ (close ++ ']' :: rest)) =
      some (v :: items, rest) := by
  induction items generalizing v n with
  | nil =>
    rw [List.map_singleton, spread, List.length_append] at hn
    obtain ⟨n, rfl⟩ : ∃ k, n = k + 1 := ⟨n - 1, by omega⟩
    have hends : EndsNumber (close ++ ']' :: rest) :=
      hclose.endsNumber_append (endsNumber_mark (by decide) _)
    have hvalue : scanValue n (gap ++ (write v ++ (close ++ ']' :: rest))) =
        some (v, close ++ ']' :: rest) :=
      (hitems v (by simp)).scanValue_gap hgap (by omega) hends
    rw [List.map_singleton, spread, List.append_assoc]
    exact scanItems_last hvalue (skipSpace_close hclose (by decide))
  | cons w items ih =>
    have hmore : (w :: items).map write ≠ [] := by simp
    rw [List.map_cons, spread_cons hmore] at hn ⊢
    simp only [List.length_append, List.length_cons] at hn
    obtain ⟨n, rfl⟩ : ∃ k, n = k + 1 := ⟨n - 1, by omega⟩
    have hvalue : scanValue n (gap ++ (write v ++ ',' :: (spread gap ((w :: items).map write) ++
        (close ++ ']' :: rest)))) =
          some (v, ',' :: (spread gap ((w :: items).map write) ++ (close ++ ']' :: rest))) :=
      (hitems v (by simp)).scanValue_gap hgap (by omega) (endsNumber_mark (by decide) _)
    have hitem : ∀ x ∈ w :: items, ReadsFrom (write x) x :=
      fun x hx => hitems x (List.mem_cons_of_mem v hx)
    simp only [List.append_assoc, List.cons_append]
    rw [scanItems_more hvalue (skipSpace_solid (by decide) _), ih hitem (by omega)]
    rfl

/-- Behind a bracket that opens stands the first of the texts in it. -/
theorem skipSpace_spread (hgap : IsGap gap) {text : List Char} {c : Char} {r : List Char}
    (htext : text = c :: r) (hc : isSpace c = false) (texts : List (List Char))
    (cs : List Char) : ∃ r', skipSpace (spread gap (text :: texts) ++ cs) = c :: r' := by
  subst htext
  cases texts with
  | nil =>
    rw [spread, List.append_assoc, hgap.skipSpace_append, List.cons_append, skipSpace_solid hc]
    exact ⟨_, rfl⟩
  | cons next texts =>
    rw [spread, List.append_assoc, List.append_assoc, hgap.skipSpace_append, List.cons_append,
      skipSpace_solid hc]
    exact ⟨_, rfl⟩

theorem skipSpace_key (hgap : IsGap gap) (key : String) (cs : List Char) :
    skipSpace (gap ++ (quote key ++ cs)) = '"' :: (key.toList.flatMap escape ++ '"' :: cs) := by
  rw [hgap.skipSpace_append, quote_append, skipSpace_solid (by decide)]

theorem scanMembers_spread (hgap : IsGap gap) (hclose : IsGap close) (hbehind : IsGap behind)
    {m : String × Json} {members : List (String × Json)}
    (hmembers : ∀ x ∈ m :: members, ReadsFrom (write x.2) x.2) {n : Nat}
    (hn : 2 * (spread gap ((m :: members).map (memberText behind write))).length < n) :
    scanMembers n (spread gap ((m :: members).map (memberText behind write)) ++
        (close ++ '\x7d' :: rest)) = some ((m :: members).map fun x => (some x.1, x.2), rest) := by
  induction members generalizing m n with
  | nil =>
    rw [List.map_singleton, spread, memberText] at hn ⊢
    simp only [List.length_append, List.length_cons] at hn
    obtain ⟨n, rfl⟩ : ∃ k, n = k + 1 := ⟨n - 1, by omega⟩
    have hends : EndsNumber (close ++ '\x7d' :: rest) :=
      hclose.endsNumber_append (endsNumber_mark (by decide) _)
    have hvalue : scanValue n (behind ++ (write m.2 ++ (close ++ '\x7d' :: rest))) =
        some (m.2, close ++ '\x7d' :: rest) :=
      (hmembers m (by simp)).scanValue_gap hbehind (by omega) hends
    simp only [List.append_assoc, List.cons_append]
    exact scanMembers_last (skipSpace_key hgap m.1 _) (scanString_quoted m.1 _)
      (skipSpace_solid (by decide) _) hvalue (skipSpace_close hclose (by decide))
  | cons w members ih =>
    have hmore : (w :: members).map (memberText behind write) ≠ [] := by simp
    rw [List.map_cons, spread_cons hmore, memberText] at hn ⊢
    simp only [List.length_append, List.length_cons] at hn
    obtain ⟨n, rfl⟩ : ∃ k, n = k + 1 := ⟨n - 1, by omega⟩
    have hvalue : scanValue n (behind ++ (write m.2 ++
        ',' :: (spread gap ((w :: members).map (memberText behind write)) ++
          (close ++ '\x7d' :: rest)))) =
        some (m.2, ',' :: (spread gap ((w :: members).map (memberText behind write)) ++
          (close ++ '\x7d' :: rest))) :=
      (hmembers m (by simp)).scanValue_gap hbehind (by omega) (endsNumber_mark (by decide) _)
    have hmember : ∀ x ∈ w :: members, ReadsFrom (write x.2) x.2 :=
      fun x hx => hmembers x (List.mem_cons_of_mem m hx)
    simp only [List.append_assoc, List.cons_append]
    rw [scanMembers_more (skipSpace_key hgap m.1 _) (scanString_quoted m.1 _)
      (skipSpace_solid (by decide) _) hvalue (skipSpace_solid (by decide) _),
      ih hmember (by omega)]
    rfl

end

theorem objectOf_texts (members : List (String × Json)) :
    objectOf (members.map fun x => (some x.1, x.2)) = .object members := by
  have hall : (members.map fun x => (some x.1, x.2)).mapM
      (fun ((key, v) : Option String × Json) => key.map (·, v)) = some members := by
    induction members with
    | nil => rfl
    | cons m members ih =>
      rw [List.map_cons, List.mapM_cons, ih]
      rfl
  rw [objectOf, hall]
  rfl

theorem scanAtom_digit {c : Char} (hc : c.isDigit = true) (cs : List Char) :
    scanAtom (c :: cs) = scanNumber (c :: cs) := by
  have hne : ∀ d : Char, d.isDigit = false → c ≠ d := by
    intro d hd h
    rw [h, hd] at hc
    exact absurd hc (by decide)
  rw [scanAtom]
  · intro r h
    exact hne 'n' (by decide) (List.cons.inj h).1
  · intro r h
    exact hne 't' (by decide) (List.cons.inj h).1
  · intro r h
    exact hne 'f' (by decide) (List.cons.inj h).1
  · intro r h
    exact hne '"' (by decide) (List.cons.inj h).1

/-- A solid character that opens neither an array nor an object starts an atom. -/
theorem scanValue_solid {c : Char} (hspace : isSpace c = false) (hbracket : c ≠ '[')
    (hbrace : c ≠ '\x7b') (n : Nat) (cs : List Char) :
    scanValue (n + 1) (c :: cs) = scanAtom (c :: cs) := by
  have hskip : skipSpace (c :: cs) = c :: cs := skipSpace_solid hspace cs
  rw [scanValue_atom (by simp [hskip, hbracket]) (by simp [hskip, hbrace]), hskip]

/-- The text of a value has a character at least, so there is fuel for it. -/
theorem readsFrom_of_succ {c : Char} {text : List Char} {v : Json}
    (h : ∀ n rest, 2 * text.length < n → EndsNumber rest →
      scanValue (n + 1) (c :: text ++ rest) = some (v, rest)) : ReadsFrom (c :: text) v := by
  intro n rest hn hrest
  rw [List.length_cons] at hn
  obtain ⟨n, rfl⟩ : ∃ k, n = k + 1 := ⟨n - 1, by omega⟩
  exact h n rest (by omega) hrest

/-- A value without parts is read from its text. -/
theorem readsFrom_atom {v : Json} (hv : v.IsPlain) (hbare : IsBare v) :
    ReadsFrom (atom v) v := by
  cases hv with
  | null =>
    exact readsFrom_of_succ fun _ _ _ _ =>
      scanValue_solid (by decide) (by decide) (by decide) _ _
  | bool b =>
    cases b with
    | false =>
      exact readsFrom_of_succ fun _ _ _ _ =>
        scanValue_solid (by decide) (by decide) (by decide) _ _
    | true =>
      exact readsFrom_of_succ fun _ _ _ _ =>
        scanValue_solid (by decide) (by decide) (by decide) _ _
  | natural k =>
    obtain ⟨c, r, hdigits, hc⟩ := digits_cons k
    obtain ⟨hspace, hbracket, hbrace⟩ := solid_digit hc
    rw [atom, hdigits]
    refine readsFrom_of_succ fun n rest _ hrest => ?_
    rw [List.cons_append, scanValue_solid hspace hbracket hbrace, scanAtom_digit hc,
      ← List.cons_append, ← hdigits]
    exact scanNumber_digits k hrest
  | string s =>
    refine readsFrom_of_succ fun n rest _ _ => ?_
    show scanValue (n + 1) (quote s ++ rest) = _
    rw [quote_append, scanValue_solid (by decide) (by decide) (by decide), scanAtom,
      scanString_quoted]
    rfl
  | array hitems =>
    obtain rfl := hbare
    exact readsFrom_of_succ fun _ _ _ _ => scanValue_emptyArray rfl rfl
  | object hmembers =>
    obtain rfl := hbare
    exact readsFrom_of_succ fun _ _ _ _ => scanValue_emptyObject rfl rfl

namespace Layout

variable (l : Layout)

/-- The text of a value starts with a character that is no blank and no bracket that closes. -/
theorem write_head {v : Json} (hv : v.IsPlain) (level : Nat) :
    ∃ c r, l.write level v = c :: r ∧ isSpace c = false ∧ c ≠ ']' := by
  cases hv with
  | null => exact ⟨'n', _, l.write_bare level .null trivial, by decide, by decide⟩
  | bool b =>
    rw [l.write_bare level (.bool b) trivial]
    cases b <;> exact ⟨_, _, rfl, by decide, by decide⟩
  | natural n =>
    obtain ⟨c, r, h, hc⟩ := digits_cons n
    have hclose : c ≠ ']' := by
      rintro rfl
      exact absurd hc (by decide)
    exact ⟨c, r, (l.write_bare level (.natural n) trivial).trans h, (solid_digit hc).1, hclose⟩
  | string s => exact ⟨'"', _, l.write_bare level (.string s) trivial, by decide, by decide⟩
  | @array items h =>
    cases items with
    | nil => exact ⟨'[', _, l.write_bare level (.array []) rfl, by decide, by decide⟩
    | cons v items => exact ⟨'[', _, l.write_array level v items, by decide, by decide⟩
  | @object members h =>
    cases members with
    | nil => exact ⟨'\x7b', _, l.write_bare level (.object []) rfl, by decide, by decide⟩
    | cons m members => exact ⟨'\x7b', _, l.write_object level m members, by decide, by decide⟩

theorem readsFrom_bare {v : Json} (hv : v.IsPlain) (hbare : IsBare v) (level : Nat) :
    ReadsFrom (l.write level v) v := by
  rw [l.write_bare level v hbare]
  exact readsFrom_atom hv hbare

/-- A plain value is read from its text at any level. -/
theorem readsFrom {v : Json} (hv : v.IsPlain) (level : Nat) : ReadsFrom (l.write level v) v := by
  induction hv generalizing level with
  | null => exact l.readsFrom_bare .null trivial level
  | bool b => exact l.readsFrom_bare (.bool b) trivial level
  | natural n => exact l.readsFrom_bare (.natural n) trivial level
  | string s => exact l.readsFrom_bare (.string s) trivial level
  | @array items hitems ih =>
    cases items with
    | nil => exact l.readsFrom_bare (.array hitems) rfl level
    | cons v items =>
      rw [l.write_array]
      refine readsFrom_of_succ fun n rest hn _ => ?_
      rw [List.length_append] at hn
      simp only [List.append_assoc, List.cons_append, List.nil_append]
      -- Behind the bracket stands an item, and no item starts with a bracket that closes.
      obtain ⟨c, r, hhead, hspace, hclose⟩ := l.write_head (hitems v (by simp)) (level + 1)
      obtain ⟨r', hskip⟩ := skipSpace_spread (l.isGap_gap (level + 1)) hhead hspace
        (items.map (l.write (level + 1))) (l.gap level ++ ']' :: rest)
      rw [scanValue_array (skipSpace_solid (by decide) _) (by simp [hskip, hclose]),
        scanItems_spread (l.write (level + 1)) (l.isGap_gap _) (l.isGap_gap _)
          (fun x hx => ih x hx (level + 1)) (by omega)]
      rfl
  | @object members hmembers ih =>
    cases members with
    | nil => exact l.readsFrom_bare (.object hmembers) rfl level
    | cons m members =>
      rw [l.write_object]
      refine readsFrom_of_succ fun n rest hn _ => ?_
      rw [List.length_append] at hn
      simp only [List.append_assoc, List.cons_append, List.nil_append]
      have hquote : memberText l.behind (l.write (level + 1)) m = '"' :: _ := quote_append ..
      obtain ⟨r', hskip⟩ := skipSpace_spread (l.isGap_gap (level + 1)) hquote (by decide)
        (members.map (memberText l.behind (l.write (level + 1)))) (l.gap level ++ '\x7d' :: rest)
      rw [scanValue_object (skipSpace_solid (by decide) _) (by simp [hskip]),
        scanMembers_spread (l.write (level + 1)) (l.isGap_gap _) (l.isGap_gap _) l.isGap_behind
          (fun x hx => ih x hx (level + 1)) (by omega), Option.map_some, objectOf_texts]

/-- A plain value is read back from its text, with nothing left over. -/
theorem parse_write {v : Json} (hv : v.IsPlain) (level : Nat) :
    parse (String.ofList (l.write level v)) = some v := by
  have hread := l.readsFrom hv level (2 * (l.write level v).length + 2) [] (by omega)
    (by simp [EndsNumber])
  rw [List.append_nil] at hread
  rw [parse, String.toList_ofList]
  show (scanValue _ _).bind _ = _
  rw [hread]
  rfl

end Layout

/-- A plain value is read back from its pretty text. -/
theorem parse_pretty {j : Json} (hj : j.IsPlain) : parse j.pretty = some j :=
  Layout.pretty.parse_write hj 0

/-- A plain value is read back from its compact text. -/
theorem parse_compact {j : Json} (hj : j.IsPlain) : parse j.compact = some j :=
  Layout.compact.parse_write hj 0

end GraphSchema.Json
