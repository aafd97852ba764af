import GraphSchema.Proofs.Decimal.Shortest
import GraphSchema.Sdl.Token

/-!
# Numerals

A whole number of 64 bits is read from its digits, and a binary64 number from its shortest decimal
unless its exponent is written with a nine in front.
-/

namespace GraphSchema.Sdl

/-- Whether a whole number has 64 bits. -/
def IsInt64 (n : Int) : Prop := Int64.minValue.toInt ≤ n ∧ n ≤ Int64.maxValue.toInt

namespace Numeral

theorem splitLast?_eq_none {mark : Char → Bool} {cs : List Char}
    (h : ∀ c ∈ cs, mark c = false) : splitLast? mark cs = none := by
  have hall : ∀ c ∈ cs.reverse, (fun c => !mark c) c = true := by simpa using h
  have hspan := Text.span_append hall (show ∀ c ∈ ([] : List Char).head?, _ from by simp)
  rw [List.append_nil] at hspan
  unfold splitLast?
  rw [hspan]

theorem isDelimiter_cases {c : Char} (h : isDelimiter c = true) :
    c.isDigit = false ∧ Token.isNameRest c = false ∧ c ≠ '"' := by
  simp only [isDelimiter, List.contains_eq_mem, List.mem_cons, List.not_mem_nil, or_false,
    decide_eq_true_eq] at h
  rcases h with h | h | h | h | h | h | h | h | h | h | h | h | h | h | h | h | h | h | h <;>
    subst c <;> decide

theorem not_isDelimiter_of_isDigit {c : Char} (h : c.isDigit = true) : isDelimiter c = false := by
  cases hc : isDelimiter c with
  | false => rfl
  | true =>
    have hfalse := (isDelimiter_cases hc).1
    rw [h] at hfalse
    exact absurd hfalse (by decide)

theorem isDigits_iff {cs : List Char} :
    isDigits cs = true ↔ cs ≠ [] ∧ ∀ c ∈ cs, c.isDigit = true := by
  simp [isDigits]

theorem isDigits_digits (n : Nat) : isDigits (Nat.toDigits 10 n) = true :=
  isDigits_iff.mpr ⟨Nat.toDigits_ne_nil, fun _ => Text.isDigit_of_mem⟩

/-- A numeral with its sign. -/
def signed (negative : Bool) (cs : List Char) : List Char := if negative then '-' :: cs else cs

theorem whole?_signed {digits : List Char} (hdigits : isDigits digits = true)
    (hzeros : digits.length = 1 ∨ digits.head? ≠ some '0') (negative : Bool) :
    whole? (signed negative digits) = some (negative, digits) := by
  have hcheck : (isDigits digits && (digits.length == 1 || digits.head? != some '0')) = true := by
    simpa [hdigits] using hzeros
  have hsign : ∀ r, digits ≠ '-' :: r := by
    rintro r rfl
    simp [isDigits, Char.isDigit] at hdigits
  cases negative with
  | true => exact if_pos hcheck
  | false =>
    show whole? digits = some (false, digits)
    cases digits with
    | nil => exact if_pos hcheck
    | cons c r =>
      have hc : c ≠ '-' := by
        rintro rfl
        exact hsign r rfl
      unfold whole?
      split
      next negative' digits' hsplit =>
        split at hsplit
        · next r' h => exact absurd (List.cons.inj h).1 hc
        · obtain ⟨rfl, rfl⟩ := Prod.mk.inj hsplit
          exact if_pos hcheck

theorem whole?_digits (n : Nat) (negative : Bool) :
    whole? (signed negative (Nat.toDigits 10 n)) = some (negative, Nat.toDigits 10 n) := by
  apply whole?_signed (isDigits_digits n)
  by_cases hn : n = 0
  · subst n
    exact .inl rfl
  · exact .inr (Text.head?_toDigits hn)

theorem toList_int (n : Int) :
    (toString n).toList = signed (decide (n < 0)) (Nat.toDigits 10 n.natAbs) := by
  rw [Int.toString_eq_repr, Int.repr_eq_if]
  unfold signed
  split
  · next h =>
    rw [Nat.toList_repr, if_neg (by simpa using h), show n.toNat = n.natAbs by omega]
  · next h =>
    rw [String.toList_append, Nat.toList_repr, if_pos (by simpa using h),
      show (-n).toNat = n.natAbs by omega]
    rfl

theorem signed_inj {negative other : Bool} {cs ds : List Char} (hcs : cs.head? ≠ some '-')
    (hds : ds.head? ≠ some '-') (h : signed negative cs = signed other ds) :
    negative = other ∧ cs = ds := by
  cases negative with
  | true =>
    cases other with
    | true => exact ⟨rfl, (List.cons.inj h).2⟩
    | false => exact absurd (congrArg List.head? h).symm hds
  | false =>
    cases other with
    | true => exact absurd (congrArg List.head? h) hcs
    | false => exact ⟨rfl, h⟩

theorem head?_ne_sign {digits : List Char} (hdigits : isDigits digits = true) (cs : List Char) :
    (digits ++ cs).head? ≠ some '-' := by
  obtain ⟨hne, hall⟩ := isDigits_iff.mp hdigits
  cases digits with
  | nil => exact absurd rfl hne
  | cons c r =>
    intro h
    obtain rfl : c = '-' := Option.some.inj h
    exact absurd (hall '-' (by simp)) (by decide)

theorem toString_int_injective : Function.Injective (toString : Int → String) := by
  intro m n h
  have htexts := congrArg String.toList h
  rw [toList_int, toList_int] at htexts
  have hsign (k : Int) : (Nat.toDigits 10 k.natAbs).head? ≠ some '-' := by
    have h := head?_ne_sign (isDigits_digits k.natAbs) []
    rwa [List.append_nil] at h
  obtain ⟨hnegative, hdigits⟩ := signed_inj (hsign m) (hsign n) htexts
  have habs := congrArg digitsValue hdigits
  rw [digitsValue, Text.foldl_digits, digitsValue, Text.foldl_digits] at habs
  have hiff := decide_eq_decide.mp hnegative
  omega

theorem int?_int {n : Int} (hn : IsInt64 n) : int? (toString n).toList = some (.int n) := by
  have hvalue : (if decide (n < 0) = true then -(digitsValue (Nat.toDigits 10 n.natAbs) : Int)
      else digitsValue (Nat.toDigits 10 n.natAbs)) = n := by
    rw [digitsValue, Text.foldl_digits]
    simp only [decide_eq_true_eq]
    split <;> omega
  rw [toList_int, int?, whole?_digits, Option.bind_eq_bind, Option.bind_some]
  simp only [hvalue]
  exact if_pos hn

/-- Behind the first character of a numeral without a fraction stand digits alone. -/
theorem signed_cases (negative : Bool) {digits : List Char} (hdigits : isDigits digits = true) :
    ∃ c r, signed negative digits = c :: r ∧ (c = '-' ∨ c.isDigit = true) ∧
      ∀ x ∈ r, x.isDigit = true := by
  obtain ⟨hne, hall⟩ := isDigits_iff.mp hdigits
  cases negative with
  | true => exact ⟨'-', digits, rfl, .inl rfl, hall⟩
  | false =>
    cases digits with
    | nil => exact absurd rfl hne
    | cons c r => exact ⟨c, r, rfl, .inr (hall c (by simp)), fun x hx => hall x (by simp [hx])⟩

theorem toList_int_cases (n : Int) : ∃ c r, (toString n).toList = c :: r ∧
    (c = '-' ∨ c.isDigit = true) ∧ ∀ x ∈ r, x.isDigit = true := by
  rw [toList_int]
  exact signed_cases _ (isDigits_digits _)

/-- Characters none of which starts a fraction or an exponent. -/
def Unmarked (cs : List Char) : Prop :=
  ∀ c ∈ cs, isExponentMark c = false ∧ (c == '.') = false

theorem unmarked_digits {cs : List Char} (h : ∀ c ∈ cs, c.isDigit = true) : Unmarked cs := by
  intro c hc
  have hne (x : Char) (hx : x.isDigit = false) : c ≠ x := by
    rintro rfl
    rw [h c hc] at hx
    exact absurd hx (by decide)
  simp [isExponentMark, hne 'e' (by decide), hne 'E' (by decide), hne '.' (by decide)]

theorem Unmarked.splitLast? {cs : List Char} (h : Unmarked cs) :
    splitLast? isExponentMark cs = none ∧ splitLast? (· == '.') cs = none :=
  ⟨splitLast?_eq_none fun x hx => (h x hx).1, splitLast?_eq_none fun x hx => (h x hx).2⟩

theorem value?_int {n : Int} (hn : IsInt64 n) : value? (toString n).toList = some (.int n) := by
  obtain ⟨c, r, h, _, hr⟩ := toList_int_cases n
  have hint := int?_int hn
  rw [h] at hint ⊢
  obtain ⟨hmark, hpoint⟩ := (unmarked_digits hr).splitLast?
  unfold value?
  rw [List.drop_one, List.tail_cons, hmark, hpoint]
  exact hint

theorem digitsValue_append (cs ds : List Char) :
    digitsValue (cs ++ ds) = digitsValue cs * 10 ^ ds.length + digitsValue ds := by
  induction ds using List.reverseRecOn with
  | nil => simp [digitsValue]
  | append_singleton ds d ih =>
    have hlast (l : List Char) : digitsValue (l ++ [d]) = digitsValue l * 10 + (d.toNat - 48) := by
      simp [digitsValue]
    rw [← List.append_assoc, hlast, hlast, ih, List.length_append, List.length_singleton, pow_succ]
    ring

theorem digitsValue_zeros (n : Nat) : digitsValue (List.replicate n '0') = 0 := by
  induction n with
  | zero => rfl
  | succ n ih =>
    rw [List.replicate_succ', digitsValue_append, ih]
    decide

theorem splitLast?_append {mark : Char → Bool} {c : Char} (hc : mark c = true) {after : List Char}
    (h : ∀ x ∈ after, mark x = false) (before : List Char) :
    splitLast? mark (before ++ c :: after) = some (before, after) := by
  have hall : ∀ x ∈ after.reverse, (fun x => !mark x) x = true := by simpa using h
  have hspan : (after.reverse ++ c :: before.reverse).span (fun x => !mark x) =
      (after.reverse, c :: before.reverse) := Text.span_append hall (by simp [hc])
  have hreverse : (before ++ c :: after).reverse = after.reverse ++ c :: before.reverse := by simp
  unfold splitLast?
  rw [hreverse, hspan]
  simp

theorem unmarked_exponent (e : Int) : Unmarked (toString e).toList := by
  obtain ⟨x, r, h, hx, hr⟩ := toList_int_cases e
  rw [h]
  intro c hc
  rcases List.mem_cons.mp hc with rfl | hc
  · rcases hx with rfl | hx
    · decide
    · have hself : Unmarked [c] := unmarked_digits (by simpa using hx)
      exact hself c (by simp)
  · exact unmarked_digits hr c hc

section Parts

variable {c : Char} {whole fraction behind : List Char} {e : Int}

theorem value?_fraction (hwhole : Unmarked whole) (hfraction : Unmarked fraction)
    (hne : fraction ≠ []) :
    value? (c :: (whole ++ '.' :: fraction)) = float? (c :: whole) fraction 0 := by
  have hpoint : splitLast? (· == '.') (whole ++ '.' :: fraction) = some (whole, fraction) :=
    splitLast?_append rfl (fun x hx => (hfraction x hx).2) whole
  have hmark : splitLast? isExponentMark (whole ++ '.' :: fraction) = none :=
    splitLast?_eq_none fun x hx => by
      rcases List.mem_append.mp hx with hx | hx
      · exact (hwhole x hx).1
      rcases List.mem_cons.mp hx with rfl | hx
      · decide
      · exact (hfraction x hx).1
  unfold value?
  rw [List.drop_one, List.tail_cons, hmark, hpoint]
  simp [hne]

theorem value?_exponent (hwhole : Unmarked whole) (hbehind : Unmarked behind)
    (he : exponent? behind = some e) :
    value? (c :: (whole ++ 'e' :: behind)) = float? (c :: whole) [] e := by
  have hmark : splitLast? isExponentMark (whole ++ 'e' :: behind) = some (whole, behind) :=
    splitLast?_append rfl (fun x hx => (hbehind x hx).1) whole
  have hpoint : splitLast? (· == '.') (whole ++ 'e' :: behind) = none :=
    splitLast?_eq_none fun x hx => by
      rcases List.mem_append.mp hx with hx | hx
      · exact (hwhole x hx).2
      rcases List.mem_cons.mp hx with rfl | hx
      · decide
      · exact (hbehind x hx).2
  unfold value?
  rw [List.drop_one, List.tail_cons, hmark, hpoint]
  simp [he]

theorem value?_fraction_exponent (hfraction : Unmarked fraction) (hbehind : Unmarked behind)
    (hne : fraction ≠ []) (he : exponent? behind = some e) :
    value? (c :: (whole ++ '.' :: fraction ++ 'e' :: behind)) =
      float? (c :: whole) fraction e := by
  have hmark : splitLast? isExponentMark (whole ++ '.' :: fraction ++ 'e' :: behind) =
      some (whole ++ '.' :: fraction, behind) :=
    splitLast?_append rfl (fun x hx => (hbehind x hx).1) _
  have hpoint : splitLast? (· == '.') (whole ++ '.' :: fraction ++ 'e' :: behind) =
      some (whole, fraction ++ 'e' :: behind) := by
    rw [List.append_assoc, List.cons_append]
    refine splitLast?_append rfl (fun x hx => ?_) whole
    rcases List.mem_append.mp hx with hx | hx
    · exact (hfraction x hx).2
    rcases List.mem_cons.mp hx with rfl | hx
    · decide
    · exact (hbehind x hx).2
  have hinner : splitLast? (· == '.') (whole ++ '.' :: fraction) = some (whole, fraction) :=
    splitLast?_append rfl (fun x hx => (hfraction x hx).2) whole
  have hnone : '.' ∉ behind := fun h => absurd (hbehind '.' h).2 (by decide)
  unfold value?
  rw [List.drop_one, List.tail_cons, hmark, hpoint]
  simp [hinner, hne, hnone, he]

/-- A numeral whose exponent has no value has none. -/
theorem value?_no_exponent (hbehind : Unmarked behind) (he : exponent? behind = none) :
    value? (c :: (whole ++ 'e' :: behind)) = none := by
  have hmark : splitLast? isExponentMark (whole ++ 'e' :: behind) = some (whole, behind) :=
    splitLast?_append rfl (fun x hx => (hbehind x hx).1) whole
  unfold value?
  rw [List.drop_one, List.tail_cons, hmark]
  cases splitLast? (· == '.') (whole ++ 'e' :: behind) with
  | none => simp [he]
  | some _ => cases splitLast? (· == '.') whole <;> simp [he]

end Parts

/-- A number as it is written: digits, and behind them a fraction, an exponent or both. -/
structure Written where
  whole : List Char
  fraction : List Char
  exponent : Option Int

namespace Written

/-- The characters of the number, without a sign. -/
def text (w : Written) : List Char :=
  w.whole ++ (if w.fraction.isEmpty then [] else '.' :: w.fraction) ++
    (w.exponent.elim [] fun e => 'e' :: (toString e).toList)

def decimal (w : Written) : Decimal :=
  ⟨digitsValue (w.whole ++ w.fraction), w.exponent.getD 0 - w.fraction.length⟩

/-- What is written is no whole number, and has no superfluous zeros. -/
structure Formed (w : Written) : Prop where
  whole : isDigits w.whole = true
  zeros : w.whole.length = 1 ∨ w.whole.head? ≠ some '0'
  fraction : ∀ c ∈ w.fraction, c.isDigit = true
  float : w.fraction ≠ [] ∨ w.exponent ≠ none

/-- What is written can be read, and not as a whole number. -/
structure Valid (w : Written) : Prop extends Formed w where
  exponent : ∀ e ∈ w.exponent, exponent? (toString e).toList = some e

variable {w : Written}

/-- The characters behind the whole part. -/
def behind (w : Written) : List Char :=
  (if w.fraction.isEmpty then [] else '.' :: w.fraction) ++
    (w.exponent.elim [] fun e => 'e' :: (toString e).toList)

theorem text_eq (w : Written) : w.text = w.whole ++ w.behind := by
  rw [text, behind, List.append_assoc]

theorem head?_exponent (e : Option Int) :
    ∀ c ∈ (e.elim [] fun e => 'e' :: (toString e).toList).head?, c = 'e' := by
  cases e with
  | none => simp
  | some e => simp

/-- Behind the whole part stands the mark of a fraction or of an exponent. -/
theorem Formed.behind_cons (hw : w.Formed) : ∃ c r, w.behind = c :: r ∧ c.isDigit = false := by
  unfold behind
  by_cases hfraction : w.fraction = []
  · obtain ⟨e, he⟩ := Option.ne_none_iff_exists'.mp (hw.float.resolve_left fun h => h hfraction)
    rw [hfraction, he]
    exact ⟨'e', _, rfl, by decide⟩
  · rw [if_neg (by simpa using hfraction)]
    exact ⟨'.', _, rfl, by decide⟩

theorem Formed.head?_behind (hw : w.Formed) : ∀ c ∈ w.behind.head?, c.isDigit = false := by
  obtain ⟨x, r, h, hx⟩ := hw.behind_cons
  rw [h]
  intro c hc
  obtain rfl := Option.some.inj hc
  exact hx

theorem exponent_inj {e f : Option Int} (h : (e.elim [] fun e => 'e' :: (toString e).toList) =
    f.elim [] fun e => 'e' :: (toString e).toList) : e = f := by
  cases e with
  | none =>
    cases f with
    | none => rfl
    | some f => exact absurd h (by simp)
  | some e =>
    cases f with
    | none => exact absurd h (by simp)
    | some f =>
      have htexts := String.toList_injective (List.cons.inj h).2
      rw [toString_int_injective htexts]

theorem Formed.value?_eq_none (hw : w.Formed) {e : Int} (he : w.exponent = some e)
    (hnone : exponent? (toString e).toList = none) (negative : Bool) :
    value? (signed negative w.text) = none := by
  obtain ⟨c, r, hfirst, -, -⟩ := signed_cases negative hw.whole
  have htext : signed negative w.text =
      c :: ((r ++ if w.fraction.isEmpty then [] else '.' :: w.fraction) ++
        'e' :: (toString e).toList) := by
    rw [text, he, Option.elim_some, ← List.cons_append, ← List.cons_append, ← hfirst]
    cases negative <;> rfl
  rw [htext]
  exact value?_no_exponent (unmarked_exponent e) hnone

/-- The parts of a number are told by its characters. -/
theorem Formed.text_inj {v : Written} (hw : w.Formed) (hv : v.Formed) (h : w.text = v.text) :
    w = v := by
  rw [text_eq, text_eq] at h
  obtain ⟨hwhole, hbehind⟩ := Text.append_inj_of_run (isDigits_iff.mp hw.whole).2
    (isDigits_iff.mp hv.whole).2 hw.head?_behind hv.head?_behind h
  have hend (e : Option Int) :
      ∀ c ∈ (e.elim [] fun e => 'e' :: (toString e).toList).head?, c.isDigit = false := by
    intro c hc
    rw [head?_exponent e c hc]
    decide
  have hmark (e : Option Int) (cs : List Char) :
      (e.elim [] fun e => 'e' :: (toString e).toList) ≠ '.' :: cs := fun heq =>
    absurd (head?_exponent e '.' (by rw [heq]; rfl)) (by decide)
  have hparts : w.fraction = v.fraction ∧ w.exponent = v.exponent := by
    unfold behind at hbehind
    by_cases hempty : w.fraction = [] <;> by_cases hempty' : v.fraction = []
    · rw [hempty, hempty'] at hbehind ⊢
      exact ⟨rfl, exponent_inj hbehind⟩
    · rw [hempty, List.isEmpty_nil, if_pos rfl, if_neg (by simpa using hempty')] at hbehind
      exact absurd hbehind (hmark _ _)
    · rw [hempty', if_pos (by rfl : List.isEmpty [] = true), if_neg (by simpa using hempty)]
        at hbehind
      exact absurd hbehind.symm (hmark _ _)
    · rw [if_neg (by simpa using hempty), if_neg (by simpa using hempty'), List.cons_append,
        List.cons_append] at hbehind
      obtain ⟨hfraction, hexponent⟩ := Text.append_inj_of_run hw.fraction hv.fraction (hend _)
        (hend _) (List.cons.inj hbehind).2
      exact ⟨hfraction, exponent_inj hexponent⟩
  obtain ⟨whole, fraction, exponent⟩ := w
  obtain ⟨whole', fraction', exponent'⟩ := v
  rw [mk.injEq]
  exact ⟨hwhole, hparts⟩

theorem float?_signed (hw : w.Valid) (negative : Bool) :
    float? (signed negative w.whole) w.fraction (w.exponent.getD 0) =
      some (.float (Binary64.ofDecimal negative w.decimal)) := by
  have hall : w.fraction.all Char.isDigit = true := List.all_eq_true.mpr hw.fraction
  rw [float?, whole?_signed hw.whole hw.zeros, Option.bind_eq_bind, Option.bind_some]
  exact if_pos hall

theorem value?_text (hw : w.Valid) (negative : Bool) :
    value? (signed negative w.text) = some (.float (Binary64.ofDecimal negative w.decimal)) := by
  obtain ⟨c, r, hfirst, -, hr⟩ := signed_cases negative hw.whole
  have hsigned (cs : List Char) : signed negative (w.whole ++ cs) = c :: (r ++ cs) := by
    rw [← List.cons_append, ← hfirst]
    cases negative <;> rfl
  have hwhole := unmarked_digits hr
  have hfraction := unmarked_digits hw.fraction
  rw [← float?_signed hw, hfirst, text, List.append_assoc, hsigned]
  cases he : w.exponent with
  | none =>
    have hne : w.fraction ≠ [] := hw.float.resolve_right fun h => h he
    rw [if_neg (by simpa using hne), Option.elim_none, List.append_nil]
    exact value?_fraction hwhole hfraction hne
  | some e =>
    have hexponent := hw.exponent e he
    have hbehind := unmarked_exponent e
    rw [Option.elim_some, Option.getD_some]
    by_cases hne : w.fraction = []
    · rw [hne, List.isEmpty_nil, if_pos rfl, List.nil_append]
      exact value?_exponent hwhole hbehind hexponent
    · rw [if_neg (by simpa using hne), ← List.append_assoc]
      exact value?_fraction_exponent hfraction hbehind hne hexponent

end Written

end Numeral

end GraphSchema.Sdl
