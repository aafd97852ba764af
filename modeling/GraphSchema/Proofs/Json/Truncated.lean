import GraphSchema.Proofs.Json.RoundTrip

/-!
# Truncated JSON

What a scanner reads up to a closing mark it also reads from any longer text, so that the text of
an object is not read before its end.
-/

namespace GraphSchema.Json

theorem scanCodes_step {cs : List Char} {code : Nat} {codes : List Nat} {r : List Char}
    (h : ((scanCodes cs).bind fun x => some (code :: x.1, x.2)) = some (codes, r)) :
    ∃ others, scanCodes cs = some (others, r) ∧ codes = code :: others := by
  obtain ⟨x, hx, heq⟩ := Option.bind_eq_some_iff.mp h
  obtain ⟨rfl, rfl⟩ := Prod.mk.inj (Option.some.inj heq)
  exact ⟨x.1, hx, rfl⟩

theorem scanCodes_append {cs : List Char} {codes : List Nat} {r : List Char}
    (h : scanCodes cs = some (codes, r)) (t : List Char) :
    scanCodes (cs ++ t) = some (codes, r ++ t) := by
  induction cs using scanCodes.induct generalizing codes r with
  | case1 => exact absurd h (by simp [scanCodes])
  | case2 cs =>
    obtain ⟨rfl, rfl⟩ := Prod.mk.inj (Option.some.inj h)
    rfl
  | case3 a b c d cs ih =>
    rw [scanCodes] at h
    obtain ⟨code, hcode, h⟩ := Option.bind_eq_some_iff.mp h
    obtain ⟨others, hothers, rfl⟩ := scanCodes_step h
    simp only [List.cons_append, scanCodes, hcode, ih hothers]
    rfl
  | case4 c cs hlong ih =>
    rw [scanCodes] at h
    · obtain ⟨x, hx, h⟩ := Option.bind_eq_some_iff.mp h
      obtain ⟨others, hothers, rfl⟩ := scanCodes_step h
      have hc : c ≠ 'u' := by
        rintro rfl
        have hnone : unescape? 'u' = none := by decide
        rw [hnone] at hx
        exact absurd hx (by simp)
      simp only [List.cons_append, scanCodes_letter hc hx, ih hothers]
      rfl
    · exact hlong
  | case5 c cs hquote hcode hletter hbad =>
    rw [scanCodes, if_pos hbad] at h
    · exact absurd h (by simp)
    · exact hquote
    · exact hcode
    · exact hletter
  | case6 c cs hquote hcode hletter hgood ih =>
    have hback : c ≠ '\\' := fun hc => hgood (.inr hc)
    have hlow : ¬c.toNat < 32 := fun hc => hgood (.inl hc)
    rw [scanCodes_plain hquote hback hlow] at h
    obtain ⟨others, hothers, rfl⟩ := scanCodes_step h
    rw [List.cons_append, scanCodes_plain hquote hback hlow, ih hothers]
    rfl

theorem scanString_append {cs : List Char} {s : Option String} {r : List Char}
    (h : scanString cs = some (s, r)) (t : List Char) :
    scanString (cs ++ t) = some (s, r ++ t) := by
  obtain ⟨⟨codes, r'⟩, hcodes, heq⟩ := Option.bind_eq_some_iff.mp h
  obtain ⟨rfl, rfl⟩ := Prod.mk.inj (Option.some.inj heq)
  rw [scanString, scanCodes_append hcodes]
  rfl

theorem scanDigits_append {cs digits r : List Char} (h : scanDigits cs = (digits, r))
    (hr : r ≠ []) (t : List Char) : scanDigits (cs ++ t) = (digits, r ++ t) := by
  rw [scanDigits, List.span_eq_takeWhile_dropWhile] at h
  obtain ⟨hdigits, hrest⟩ := Prod.mk.inj h
  have hsplit : cs = digits ++ r := by rw [← hdigits, ← hrest, List.takeWhile_append_dropWhile]
  have hall : ∀ c ∈ digits, c.isDigit = true := by
    intro c hc
    rw [← hdigits] at hc
    exact List.all_eq_true.mp List.all_takeWhile c hc
  have hend : ∀ c ∈ (r ++ t).head?, c.isDigit = false := by
    obtain ⟨x, l, rfl⟩ := List.exists_cons_of_ne_nil hr
    have hx := List.head?_dropWhile_not Char.isDigit cs
    rw [hrest] at hx
    intro c hc
    rw [List.cons_append, List.head?_cons, Option.mem_some_iff] at hc
    subst hc
    simpa using hx
  rw [hsplit, List.append_assoc]
  exact Text.span_append hall hend

/-- What a scanner reads before the end of a text it reads from a longer text too, and it does not
stop before the end when it is there from the start. -/
structure Extends {α : Type} (scan : List Char → Option (α × List Char)) : Prop where
  nil : ∀ {a r}, scan [] = some (a, r) → r = []
  append : ∀ {cs a r}, scan cs = some (a, r) → r ≠ [] → ∀ t, scan (cs ++ t) = some (a, r ++ t)

theorem Extends.bind {α β : Type} {scan : List Char → Option (α × List Char)}
    {next : α → List Char → Option (β × List Char)} (hscan : Extends scan)
    (hnext : ∀ a, Extends (next a)) : Extends fun cs => (scan cs).bind fun x => next x.1 x.2 := by
  constructor
  · intro b r h
    obtain ⟨⟨a, l⟩, ha, hb⟩ := Option.bind_eq_some_iff.mp h
    have hl : l = [] := hscan.nil ha
    subst hl
    exact (hnext a).nil hb
  · intro cs b r h hr t
    obtain ⟨⟨a, l⟩, ha, hb⟩ := Option.bind_eq_some_iff.mp h
    have hl : l ≠ [] := by
      rintro rfl
      exact hr ((hnext a).nil hb)
    have happend := hscan.append ha hl t
    simp only [happend, Option.bind_some]
    exact (hnext a).append hb hr t

theorem extends_some {α : Type} (a : α) : Extends fun cs => some (a, cs) := by
  constructor
  · intro b r h
    exact (Prod.mk.inj (Option.some.inj h)).2.symm
  · intro cs b r h hr t
    obtain ⟨rfl, rfl⟩ := Prod.mk.inj (Option.some.inj h)
    rfl

/-- Digits that have to be there, whatever is made of them. -/
theorem extends_digits {α : Type} (make : List Char → α) :
    Extends fun cs => if (scanDigits cs).1.isEmpty then none
      else some (make (scanDigits cs).1, (scanDigits cs).2) := by
  constructor
  · intro a r h
    exact absurd h (by simp [scanDigits, List.span, List.span.loop])
  · intro cs a r h hr t
    rcases hdigits : scanDigits cs with ⟨digits, l⟩
    simp only [hdigits] at h
    by_cases hempty : digits.isEmpty = true
    · rw [if_pos hempty] at h
      exact absurd h (by simp)
    · rw [if_neg hempty] at h
      obtain ⟨rfl, rfl⟩ := Prod.mk.inj (Option.some.inj h)
      simp only [scanDigits_append hdigits hr t, if_neg hempty]

theorem extends_whole : Extends scanWhole := by
  have hdigits := extends_digits id
  constructor
  · intro digits r h
    exact hdigits.nil h
  · intro cs digits r h hr t
    cases cs with
    | nil => exact absurd (hdigits.nil h) hr
    | cons c l =>
      by_cases hzero : c = '0'
      · subst hzero
        obtain ⟨rfl, rfl⟩ := Prod.mk.inj (Option.some.inj h)
        rfl
      · have hother : ∀ l, scanWhole (c :: l) = if (scanDigits (c :: l)).1.isEmpty then none
            else some (id (scanDigits (c :: l)).1, (scanDigits (c :: l)).2) := by
          intro l
          rw [scanWhole]
          · rfl
          · intro l' heq
            exact hzero (List.cons.inj heq).1
        rw [hother] at h
        rw [List.cons_append, hother]
        exact hdigits.append h hr t

theorem extends_fraction : Extends scanFraction := by
  constructor
  · intro digits r h
    exact (Prod.mk.inj (Option.some.inj h)).2.symm
  · intro cs digits r h hr t
    cases cs with
    | nil => exact absurd (Prod.mk.inj (Option.some.inj h)).2.symm hr
    | cons c l =>
      by_cases hpoint : c = '.'
      · subst hpoint
        exact (extends_digits ('.' :: ·)).append h hr t
      · have hother : ∀ l, scanFraction (c :: l) = some ([], c :: l) := by
          intro l
          rw [scanFraction]
          intro l' heq
          exact hpoint (List.cons.inj heq).1
        rw [hother] at h
        rw [List.cons_append, hother]
        obtain ⟨rfl, rfl⟩ := Prod.mk.inj (Option.some.inj h)
        rfl

theorem extends_exponent : Extends scanExponent := by
  constructor
  · intro digits r h
    exact (Prod.mk.inj (Option.some.inj h)).2.symm
  · intro cs digits r h hr t
    cases cs with
    | nil => exact absurd (Prod.mk.inj (Option.some.inj h)).2.symm hr
    | cons c l =>
      rw [List.cons_append]
      unfold scanExponent at h ⊢
      by_cases hc : c = 'e' ∨ c = 'E'
      · simp only [if_pos hc] at h ⊢
        cases l with
        | nil => exact absurd ((extends_digits (c :: [] ++ ·)).nil h) hr
        | cons x l =>
          rw [List.cons_append]
          by_cases hplus : x = '+'
          · subst hplus
            exact (extends_digits (c :: ['+'] ++ ·)).append h hr t
          by_cases hminus : x = '-'
          · subst hminus
            exact (extends_digits (c :: ['-'] ++ ·)).append h hr t
          · split at h
            · next heq => exact absurd (List.cons.inj heq).1 hplus
            · next heq => exact absurd (List.cons.inj heq).1 hminus
            · split
              · next heq => exact absurd (List.cons.inj heq).1 hplus
              · next heq => exact absurd (List.cons.inj heq).1 hminus
              · exact (extends_digits (c :: [] ++ ·)).append h hr t
      · simp only [if_neg hc] at h ⊢
        obtain ⟨rfl, rfl⟩ := Prod.mk.inj (Option.some.inj h)
        rfl

/-- The number that its parts spell. -/
def numberOf (sign whole fraction exponent : List Char) : Json :=
  if sign.isEmpty ∧ fraction.isEmpty ∧ exponent.isEmpty then natural (digitsValue whole)
  else number (String.ofList (sign ++ whole ++ fraction ++ exponent))

/-- Reads the parts of a number behind its sign. -/
def scanUnsigned (sign cs : List Char) : Option (Json × List Char) :=
  (scanWhole cs).bind fun x => (scanFraction x.2).bind fun y => (scanExponent y.2).bind fun z =>
    some (numberOf sign x.1 y.1 z.1, z.2)

theorem extends_unsigned (sign : List Char) : Extends (scanUnsigned sign) :=
  extends_whole.bind fun whole => extends_fraction.bind fun fraction =>
    extends_exponent.bind fun exponent => extends_some (numberOf sign whole fraction exponent)

theorem scanUnsigned_eq (sign cs : List Char) : scanUnsigned sign cs = (do
    let (whole, r) ← scanWhole cs
    let (fraction, r) ← scanFraction r
    let (exponent, r) ← scanExponent r
    if sign.isEmpty ∧ fraction.isEmpty ∧ exponent.isEmpty then
      return (natural (digitsValue whole), r)
    else
      return (number (String.ofList (sign ++ whole ++ fraction ++ exponent)), r)) := by
  refine Option.bind_congr fun x _ => Option.bind_congr fun y _ => Option.bind_congr fun z _ => ?_
  obtain ⟨exponent, r⟩ := z
  simp only [numberOf]
  split
  · rfl
  · rfl

theorem scanNumber_minus (cs : List Char) : scanNumber ('-' :: cs) = scanUnsigned ['-'] cs := by
  rw [scanUnsigned_eq]
  rfl

theorem scanNumber_other {c : Char} (hc : c ≠ '-') (cs : List Char) :
    scanNumber (c :: cs) = scanUnsigned [] (c :: cs) := by
  rw [scanUnsigned_eq]
  unfold scanNumber
  split
  next sign r hsign =>
    split at hsign
    · next heq => exact absurd (List.cons.inj heq).1 hc
    · obtain ⟨rfl, rfl⟩ := Prod.mk.inj hsign
      rfl

theorem extends_number : Extends scanNumber := by
  constructor
  · intro v r h
    exact (extends_unsigned []).nil h
  · intro cs v r h hr t
    cases cs with
    | nil => exact absurd ((extends_unsigned []).nil h) hr
    | cons c l =>
      rw [List.cons_append]
      by_cases hc : c = '-'
      · subst hc
        rw [scanNumber_minus] at h ⊢
        exact (extends_unsigned ['-']).append h hr t
      · rw [scanNumber_other hc] at h ⊢
        exact (extends_unsigned []).append h hr t

/-- A number starts with a minus or a digit. -/
theorem scanNumber_none {c : Char} (hminus : c ≠ '-') (hdigit : c.isDigit = false)
    (cs : List Char) : scanNumber (c :: cs) = none := by
  have hdigits : scanDigits (c :: cs) = ([], c :: cs) :=
    Text.span_append (w := []) (by simp) (by simpa using hdigit)
  have hwhole : scanWhole (c :: cs) = none := by
    rw [scanWhole]
    · rw [hdigits]
      rfl
    · intro r h
      rw [(List.cons.inj h).1] at hdigit
      exact absurd hdigit (by decide)
  rw [scanNumber_other hminus, scanUnsigned, hwhole]
  rfl

theorem extends_atom : Extends scanAtom := by
  constructor
  · intro v r h
    exact absurd h (by simp [scanAtom_nil])
  · intro cs v r h hr t
    unfold scanAtom at h
    split at h
    · obtain ⟨rfl, rfl⟩ := Prod.mk.inj (Option.some.inj h)
      rfl
    · obtain ⟨rfl, rfl⟩ := Prod.mk.inj (Option.some.inj h)
      rfl
    · obtain ⟨rfl, rfl⟩ := Prod.mk.inj (Option.some.inj h)
      rfl
    · obtain ⟨⟨s, r'⟩, hs, heq⟩ := Option.bind_eq_some_iff.mp h
      obtain ⟨rfl, rfl⟩ := Prod.mk.inj (Option.some.inj heq)
      rw [List.cons_append, scanAtom, scanString_append hs]
      rfl
    · have happend := extends_number.append h hr t
      cases cs with
      | nil => exact absurd (extends_number.nil h) hr
      | cons c l =>
        have hne : ∀ x : Char, x ≠ '-' → x.isDigit = false → c ≠ x := by
          rintro x hminus hdigit rfl
          rw [scanNumber_none hminus hdigit] at h
          exact absurd h (by simp)
        rw [List.cons_append] at happend ⊢
        rw [scanAtom]
        · exact happend
        · intro r' heq
          exact hne 'n' (by decide) (by decide) (List.cons.inj heq).1
        · intro r' heq
          exact hne 't' (by decide) (by decide) (List.cons.inj heq).1
        · intro r' heq
          exact hne 'f' (by decide) (by decide) (List.cons.inj heq).1
        · intro r' heq
          exact hne '"' (by decide) (by decide) (List.cons.inj heq).1

theorem head?_skipSpace_append {cs : List Char} {c : Char} (hcs : skipSpace cs ≠ [])
    (h : (skipSpace cs).head? ≠ some c) (t : List Char) :
    (skipSpace (cs ++ t)).head? ≠ some c := by
  obtain ⟨x, r, hx⟩ := List.exists_cons_of_ne_nil hcs
  rw [hx] at h
  rw [skipSpace_append hx]
  exact h

theorem skipSpace_ne_nil_of_items {n : Nat} {cs r : List Char} {items : List Json}
    (h : scanItems n cs = some (items, r)) : skipSpace cs ≠ [] := by
  intro hnil
  rw [← scanItems_skipSpace, hnil, scanItems_nil] at h
  exact absurd h (by simp)

theorem skipSpace_ne_nil_of_members {n : Nat} {cs r : List Char}
    {members : List (Option String × Json)} (h : scanMembers n cs = some (members, r)) :
    skipSpace cs ≠ [] := by
  intro hnil
  rw [← scanMembers_skipSpace, hnil, scanMembers_nil] at h
  exact absurd h (by simp)

/-- With more fuel and more text behind, a value that ends before the text does is read alike. -/
def ValueExtends (n : Nat) : Prop :=
  ∀ {cs v r m}, scanValue n cs = some (v, r) → r ≠ [] → n ≤ m → ∀ t,
    scanValue m (cs ++ t) = some (v, r ++ t)

/-- Items end with a bracket, so they need not end before the text does. -/
def ItemsExtend (n : Nat) : Prop :=
  ∀ {cs items r m}, scanItems n cs = some (items, r) → n ≤ m → ∀ t,
    scanItems m (cs ++ t) = some (items, r ++ t)

/-- Members end with a brace, so they need not end before the text does. -/
def MembersExtend (n : Nat) : Prop :=
  ∀ {cs members r m}, scanMembers n cs = some (members, r) → n ≤ m → ∀ t,
    scanMembers m (cs ++ t) = some (members, r ++ t)

theorem valueExtends_succ {n : Nat} (hitems : ItemsExtend n) (hmembers : MembersExtend n) :
    ValueExtends (n + 1) := by
  intro cs v r m h hr hm t
  obtain ⟨m, rfl⟩ : ∃ k, m = k + 1 := ⟨m - 1, by omega⟩
  obtain ⟨r₁, hcs, hclose, rfl⟩ | ⟨r₁, items, hcs, hopen, hscan, rfl⟩ |
    ⟨r₁, hcs, hclose, rfl⟩ | ⟨r₁, members, hcs, hopen, hscan, rfl⟩ |
    ⟨harray, hobject, hscan⟩ := scanValue_cases h
  · exact scanValue_emptyArray (skipSpace_append hcs t) (skipSpace_append hclose t)
  · have hopened := head?_skipSpace_append (skipSpace_ne_nil_of_items hscan) hopen t
    rw [scanValue_array (skipSpace_append hcs t) hopened, hitems hscan (by omega) t]
    rfl
  · exact scanValue_emptyObject (skipSpace_append hcs t) (skipSpace_append hclose t)
  · have hopened := head?_skipSpace_append (skipSpace_ne_nil_of_members hscan) hopen t
    rw [scanValue_object (skipSpace_append hcs t) hopened, hmembers hscan (by omega) t]
    rfl
  · have hsolid : skipSpace cs ≠ [] := by
      intro hnil
      rw [hnil, scanAtom_nil] at hscan
      exact absurd hscan (by simp)
    obtain ⟨c, r₁, hcs⟩ := List.exists_cons_of_ne_nil hsolid
    rw [scanValue_atom (head?_skipSpace_append hsolid harray t)
      (head?_skipSpace_append hsolid hobject t), skipSpace_append hcs, ← List.cons_append, ← hcs]
    exact extends_atom.append hscan hr t

theorem ne_nil_of_mark {c : Char} {r s : List Char} (h : skipSpace r = c :: s) : r ≠ [] := by
  rintro rfl
  exact absurd h (by simp [skipSpace])

theorem itemsExtend_succ {n : Nat} (hvalue : ValueExtends n) (hitems : ItemsExtend n) :
    ItemsExtend (n + 1) := by
  intro cs items r m h hm t
  obtain ⟨m, rfl⟩ : ∃ k, m = k + 1 := ⟨m - 1, by omega⟩
  obtain ⟨v, r₁, hv, hbehind⟩ := scanItems_cases h
  -- A mark stands behind the item, so the item ends before the text does.
  have hr : r₁ ≠ [] := by
    rcases hbehind with ⟨hclose, -⟩ | ⟨_, _, hcomma, -, -⟩
    · exact ne_nil_of_mark hclose
    · exact ne_nil_of_mark hcomma
  have hvalue' := hvalue hv hr (show n ≤ m by omega) t
  rcases hbehind with ⟨hclose, rfl⟩ | ⟨r₂, others, hcomma, hscan, rfl⟩
  · exact scanItems_last hvalue' (skipSpace_append hclose t)
  · rw [scanItems_more hvalue' (skipSpace_append hcomma t), hitems hscan (by omega) t]
    rfl

theorem membersExtend_succ {n : Nat} (hvalue : ValueExtends n) (hmembers : MembersExtend n) :
    MembersExtend (n + 1) := by
  intro cs members r m h hm t
  obtain ⟨m, rfl⟩ : ∃ k, m = k + 1 := ⟨m - 1, by omega⟩
  obtain ⟨r₁, key, r₂, r₃, v, r₄, hcs, hkey, hcolon, hv, hbehind⟩ := scanMembers_cases h
  have hr : r₄ ≠ [] := by
    rcases hbehind with ⟨hclose, -⟩ | ⟨_, _, hcomma, -, -⟩
    · exact ne_nil_of_mark hclose
    · exact ne_nil_of_mark hcomma
  have hvalue' := hvalue hv hr (show n ≤ m by omega) t
  rcases hbehind with ⟨hclose, rfl⟩ | ⟨r₅, others, hcomma, hscan, rfl⟩
  · exact scanMembers_last (skipSpace_append hcs t) (scanString_append hkey t)
      (skipSpace_append hcolon t) hvalue' (skipSpace_append hclose t)
  · rw [scanMembers_more (skipSpace_append hcs t) (scanString_append hkey t)
      (skipSpace_append hcolon t) hvalue' (skipSpace_append hcomma t), hmembers hscan (by omega) t]
    rfl

theorem scans_extend (n : Nat) : ValueExtends n ∧ ItemsExtend n ∧ MembersExtend n := by
  induction n with
  | zero =>
    refine ⟨?_, ?_, ?_⟩
    · intro cs v r m h
      exact absurd h (by simp [scanValue])
    · intro cs items r m h
      exact absurd h (by simp [scanItems])
    · intro cs members r m h
      exact absurd h (by simp [scanMembers])
  | succ n ih =>
    obtain ⟨hvalue, hitems, hmembers⟩ := ih
    exact ⟨valueExtends_succ hitems hmembers, itemsExtend_succ hvalue hitems,
      membersExtend_succ hvalue hmembers⟩

/-- What is read as an object from a part of a text is read from the whole text. -/
theorem scanValue_opened {cs : List Char} {v : Json} {r : List Char} {n : Nat}
    (h : scanValue n cs = some (v, r)) (hopen : (skipSpace cs).head? = some '\x7b') {m : Nat}
    (hm : n ≤ m) (t : List Char) : scanValue m (cs ++ t) = some (v, r ++ t) := by
  obtain ⟨l, hcs⟩ := List.head?_eq_some_iff.mp hopen
  cases n with
  | zero => exact absurd h (by simp [scanValue])
  | succ n =>
    obtain ⟨m, rfl⟩ : ∃ k, m = k + 1 := ⟨m - 1, by omega⟩
    obtain ⟨r₁, heq, -, -⟩ | ⟨r₁, items, heq, -, -, -⟩ | ⟨r₁, heq, hclose, rfl⟩ |
      ⟨r₁, members, heq, hmore, hscan, rfl⟩ | ⟨-, hobject, -⟩ := scanValue_cases h
    · rw [hcs] at heq
      exact absurd (List.cons.inj heq).1 (by decide)
    · rw [hcs] at heq
      exact absurd (List.cons.inj heq).1 (by decide)
    · exact scanValue_emptyObject (skipSpace_append heq t) (skipSpace_append hclose t)
    · have hopened := head?_skipSpace_append (skipSpace_ne_nil_of_members hscan) hmore t
      rw [scanValue_object (skipSpace_append heq t) hopened,
        (scans_extend n).2.2 hscan (by omega) t]
      rfl
    · exact absurd hopen hobject

theorem prettyChars_object (level : Nat) (members : List (String × Json)) :
    ∃ r, prettyChars level (object members) = '\x7b' :: r := by
  cases members with
  | nil => exact ⟨_, rfl⟩
  | cons m members => exact ⟨_, rfl⟩

/-- Whatever is read from the first part of the text of an object is this object. -/
theorem parse_truncated {members : List (String × Json)} (hplain : (object members).IsPlain)
    {text : String} (htext : text.toList <+: (object members).pretty.toList) {j : Json}
    (h : parse text = some j) : j = object members := by
  obtain ⟨t, ht⟩ := htext
  rw [pretty, String.toList_ofList] at ht
  obtain ⟨⟨v, rest⟩, hscan, hj⟩ := Option.bind_eq_some_iff.mp h
  have hopen : (skipSpace text.toList).head? = some '\x7b' := by
    obtain ⟨r, hr⟩ := prettyChars_object 0 members
    cases htext : text.toList with
    | nil =>
      rw [htext] at hscan
      exact absurd hscan (by simp [scanValue, skipSpace, scanAtom_nil])
    | cons c l =>
      rw [htext, hr, List.cons_append] at ht
      rw [(List.cons.inj ht).1, skipSpace_solid (by decide)]
      rfl
  have hlength : text.toList.length ≤ (prettyChars 0 (object members)).length := by
    rw [← ht, List.length_append]
    omega
  -- Whatever the part was read as, the whole text is read as the same.
  have hwhole : scanValue (2 * (prettyChars 0 (object members)).length + 2)
      (prettyChars 0 (object members)) = some (v, rest ++ t) := by
    rw [← ht]
    rw [← ht] at hlength
    exact scanValue_opened hscan hopen (by omega) t
  have hback : scanValue (2 * (prettyChars 0 (object members)).length + 2)
      (prettyChars 0 (object members) ++ []) = some (object members, []) :=
    Layout.pretty.readsFrom hplain 0 _ [] (by show 2 * (prettyChars 0 _).length ≤ _; omega)
      (by simp [EndsNumber])
  rw [List.append_nil, hwhole] at hback
  simp only at hj
  split at hj
  · rw [← Option.some.inj hj]
    exact (Prod.mk.inj (Option.some.inj hback)).1
  · exact absurd hj (by simp)

end GraphSchema.Json
