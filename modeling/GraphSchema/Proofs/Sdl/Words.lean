import GraphSchema.Proofs.Sdl.Floats

/-!
# Words

Names, numbers and quoted strings as they stand in schema text. A word is read back whole if it is
bounded: the text behind it ends or goes on with a delimiter.
-/

namespace GraphSchema.Sdl

/-- Whether a text is a name of the schema language. -/
def IsName (s : String) : Prop :=
  ∃ c r, s.toList = c :: r ∧ Token.isNameStart c = true ∧ ∀ x ∈ r, Token.isNameRest x = true

instance (s : String) : Decidable (IsName s) :=
  match h : s.toList with
  | [] => isFalse (by rintro ⟨c, r, hs, -, -⟩; simp [h] at hs)
  | c :: r =>
    if hc : Token.isNameStart c = true ∧ r.all Token.isNameRest = true then
      isTrue ⟨c, r, h, hc.1, List.all_eq_true.mp hc.2⟩
    else
      isFalse (by
        rintro ⟨x, l, hs, hx, hl⟩
        rw [h] at hs
        obtain ⟨rfl, rfl⟩ := List.cons.inj hs
        exact hc ⟨hx, List.all_eq_true.mpr hl⟩)

/-- Whether a word may stand before a text. -/
def Bounded (cs : List Char) : Prop := ∀ c ∈ cs.head?, Numeral.isDelimiter c = true

/-- The words of schema text and their tokens. -/
inductive Word : List Char → Token → Prop
  | name {s : String} (hs : IsName s) : Word s.toList (.name s)
  | int {n : Int} (hn : IsInt64 n) : Word (toString n).toList (.int n)
  | float {x : Binary64} (hx : x.IsReadable) (hfinite : x.isInfinite = false) :
      Word x.render.toList (.float x)
  | string (s : String) : Word (Quoted.quote s).toList (.string s)

theorem bounded_nil : Bounded [] := by simp [Bounded]

theorem bounded_cons {c : Char} (hc : Numeral.isDelimiter c = true) (cs : List Char) :
    Bounded (c :: cs) := by
  simpa [Bounded] using hc

theorem Bounded.head?_ne {cs : List Char} (hcs : Bounded cs) {c : Char}
    (hc : Numeral.isDelimiter c = false) : cs.head? ≠ some c := by
  intro h
  have hd := hcs c h
  rw [hc] at hd
  exact absurd hd (by decide)

namespace Quoted

/-- A character is written as a letter behind a backslash, as its code, or as it is. -/
theorem escape_cases (c : Char) :
    (∃ e, e ≠ 'u' ∧ unescape? e = some c ∧ escape c = ['\\', e]) ∨
      (isControl c = true ∧
        escape c = '\\' :: 'u' :: Text.hexQuad Text.hexDigitUpper c.toNat) ∨
      (c ≠ '"' ∧ c ≠ '\\' ∧ c ≠ '\n' ∧ escape c = [c]) := by
  by_cases hletter : c ∈ ['"', '\\', '\n', '\r', '\t']
  · simp only [List.mem_cons, List.not_mem_nil, or_false] at hletter
    refine .inl ?_
    rcases hletter with rfl | rfl | rfl | rfl | rfl
    · exact ⟨'"', by decide, rfl, rfl⟩
    · exact ⟨'\\', by decide, rfl, rfl⟩
    · exact ⟨'n', by decide, rfl, rfl⟩
    · exact ⟨'r', by decide, rfl, rfl⟩
    · exact ⟨'t', by decide, rfl, rfl⟩
  · simp only [List.mem_cons, List.not_mem_nil, or_false, not_or] at hletter
    obtain ⟨hquote, hback, hfeed, hreturn, htab⟩ := hletter
    unfold escape
    rw [if_neg hquote, if_neg hback, if_neg hfeed, if_neg hreturn, if_neg htab]
    by_cases hcontrol : isControl c = true
    · exact .inr (.inl ⟨hcontrol, if_pos hcontrol⟩)
    · exact .inr (.inr ⟨hquote, hback, hfeed, if_neg hcontrol⟩)

theorem scan_letter {e x : Char} (he : e ≠ 'u') (hx : unescape? e = some x) (cs : List Char) :
    scan ('\\' :: e :: cs) = (scan cs).bind fun r => some (x :: r.1, r.2) := by
  rw [scan, hx]
  · rfl
  · intro a b c d r h
    exact absurd h he

/-- A control character is written as two zeros and two digits, which no sign comes before. -/
theorem scan_code {c : Char} (hc : isControl c = true) (cs : List Char) :
    scan ('\\' :: 'u' :: Text.hexQuad Text.hexDigitUpper c.toNat ++ cs) =
      (scan cs).bind fun r => some (c :: r.1, r.2) := by
  have hlt : c.toNat < 0xA0 := by
    simp only [isControl, Bool.or_eq_true, Bool.and_eq_true, decide_eq_true_eq] at hc
    omega
  have hnumber := Text.hexNumber?_hexQuad Text.hexValue?_hexDigitUpper
    (show c.toNat < 65536 by omega)
  have hzero : Text.hexDigitUpper (c.toNat / 4096 % 16) ≠ '+' := by
    rw [show c.toNat / 4096 % 16 = 0 by omega]
    decide
  have hcode : unescapeCode? (Text.hexDigitUpper (c.toNat / 4096 % 16))
      (Text.hexDigitUpper (c.toNat / 256 % 16)) (Text.hexDigitUpper (c.toNat / 16 % 16))
      (Text.hexDigitUpper (c.toNat % 16)) = some c := by
    unfold Text.hexQuad at hnumber
    rw [unescapeCode?, if_neg hzero, hnumber]
    show (if 0xD800 ≤ c.toNat ∧ c.toNat < 0xE000 then none else some (Char.ofNat c.toNat)) = some c
    rw [if_neg (by omega), Char.ofNat_toNat]
  simp only [Text.hexQuad, List.cons_append, List.nil_append, scan, hcode]
  rfl

theorem scan_plain {c : Char} (hquote : c ≠ '"') (hback : c ≠ '\\') (hfeed : c ≠ '\n')
    (cs : List Char) : scan (c :: cs) = (scan cs).bind fun r => some (c :: r.1, r.2) := by
  rw [scan.eq_def]
  split <;> simp_all

theorem scan_escape (c : Char) (cs : List Char) :
    scan (escape c ++ cs) = (scan cs).bind fun r => some (c :: r.1, r.2) := by
  obtain ⟨e, he, hx, h⟩ | ⟨hcontrol, h⟩ | ⟨hquote, hback, hfeed, h⟩ := escape_cases c
  · rw [h]
    exact scan_letter he hx cs
  · rw [h]
    exact scan_code hcontrol cs
  · rw [h]
    exact scan_plain hquote hback hfeed cs

theorem scan_quoted (s cs : List Char) :
    scan (s.flatMap escape ++ '"' :: cs) = some (s, cs) := by
  induction s with
  | nil => rw [List.flatMap_nil, List.nil_append, scan]
  | cons c s ih =>
    rw [List.flatMap_cons, List.append_assoc, scan_escape, ih]
    rfl

theorem escape_head (c : Char) : ∃ x r, escape c = x :: r ∧ x ≠ '"' := by
  obtain ⟨e, _, _, h⟩ | ⟨_, h⟩ | ⟨hquote, _, _, h⟩ := escape_cases c
  · exact ⟨'\\', [e], h, by decide⟩
  · exact ⟨'\\', _, h, by decide⟩
  · exact ⟨c, [], h, hquote⟩

theorem quote_append (s : String) (cs : List Char) :
    (quote s).toList ++ cs = '"' :: (s.toList.flatMap escape ++ '"' :: cs) := by
  simp [quote, quoteChars]

end Quoted

/-- A character that stands for itself outside strings and ends no word. -/
def IsInert (c : Char) : Prop := Numeral.isDelimiter c = false ∧ c ≠ '"'

theorem IsInert.ne {c x : Char} (hc : IsInert c) (hx : Numeral.isDelimiter x = true) : c ≠ x := by
  rintro rfl
  rw [IsInert, hx] at hc
  exact absurd hc.1 (by decide)

theorem IsName.inert {s : String} (hs : IsName s) : ∀ c ∈ s.toList, IsInert c := by
  obtain ⟨x, r, h, hx, hr⟩ := hs
  rw [h]
  intro c hc
  have hrest : Token.isNameRest c = true := by
    rcases List.mem_cons.mp hc with rfl | hc
    · simp [Token.isNameRest, hx]
    · exact hr c hc
  constructor
  · cases hdelimiter : Numeral.isDelimiter c with
    | false => rfl
    | true =>
      rw [(Numeral.isDelimiter_cases hdelimiter).2.1] at hrest
      exact absurd hrest (by decide)
  · rintro rfl
    exact absurd hrest (by decide)

theorem inert_digit {c : Char} (hc : c.isDigit = true) : IsInert c := by
  refine ⟨Numeral.not_isDelimiter_of_isDigit hc, ?_⟩
  rintro rfl
  exact absurd hc (by decide)

/-- A text that is scanned as a numeral: it starts with a sign or a digit. -/
def IsNumeral (w : List Char) : Prop :=
  ∃ c r, w = c :: r ∧ (c = '-' ∨ c.isDigit = true) ∧ ∀ x ∈ r, IsInert x

theorem IsNumeral.append {w cs : List Char} (hw : IsNumeral w) (hcs : ∀ c ∈ cs, IsInert c) :
    IsNumeral (w ++ cs) := by
  obtain ⟨c, r, rfl, hc, hr⟩ := hw
  refine ⟨c, r ++ cs, rfl, hc, fun x hx => ?_⟩
  rcases List.mem_append.mp hx with hx | hx
  · exact hr x hx
  · exact hcs x hx

theorem IsNumeral.inert {w : List Char} (hw : IsNumeral w) : ∀ c ∈ w, IsInert c := by
  obtain ⟨x, r, rfl, hx, hr⟩ := hw
  intro c hc
  rcases List.mem_cons.mp hc with rfl | hc
  · rcases hx with rfl | hx
    · exact ⟨by decide, by decide⟩
    · exact inert_digit hx
  · exact hr c hc

theorem isNumeral_signed (negative : Bool) {digits : List Char}
    (hdigits : Numeral.isDigits digits = true) : IsNumeral (Numeral.signed negative digits) := by
  obtain ⟨c, r, h, hc, hr⟩ := Numeral.signed_cases negative hdigits
  exact ⟨c, r, h, hc, fun x hx => inert_digit (hr x hx)⟩

theorem isNumeral_int (n : Int) : IsNumeral (toString n).toList := by
  rw [Numeral.toList_int]
  exact isNumeral_signed _ (Numeral.isDigits_digits _)

theorem isNumeral_written {w : Numeral.Written} (hw : w.Formed) (negative : Bool) :
    IsNumeral (Numeral.signed negative w.text) := by
  have hsigned (cs : List Char) : Numeral.signed negative (w.whole ++ cs) =
      Numeral.signed negative w.whole ++ cs := by
    cases negative <;> rfl
  rw [Numeral.Written.text, List.append_assoc, hsigned]
  apply (isNumeral_signed negative hw.whole).append
  intro c hc
  rcases List.mem_append.mp hc with hc | hc
  · split at hc
    · exact absurd hc (by simp)
    rcases List.mem_cons.mp hc with rfl | hc
    · exact ⟨by decide, by decide⟩
    · exact inert_digit (hw.fraction c hc)
  · cases he : w.exponent with
    | none => exact absurd (he ▸ hc) (by simp)
    | some e =>
      rw [he, Option.elim_some] at hc
      rcases List.mem_cons.mp hc with rfl | hc
      · exact ⟨by decide, by decide⟩
      · exact (isNumeral_int e).inert c hc

/-- All floats but the positive infinity look like numerals. -/
theorem isNumeral_float {x : Binary64} (hx : x.isInfinite = true → x.negative = true) :
    IsNumeral x.render.toList := by
  cases hinfinite : x.isInfinite with
  | true =>
    rw [Binary64.toList_render_infinite hinfinite, hx hinfinite]
    refine ⟨'-', ['i', 'n', 'f'], rfl, .inl rfl, fun c hc => ?_⟩
    simp only [List.mem_cons, List.not_mem_nil, or_false] at hc
    rcases hc with rfl | rfl | rfl <;> exact ⟨by decide, by decide⟩
  | false =>
    obtain ⟨w, hw, htext, -, -⟩ := Binary64.render_formed hinfinite
    rw [htext]
    exact isNumeral_written hw x.negative

theorem isNumeral_finite {x : Binary64} (hfinite : x.isInfinite = false) :
    IsNumeral x.render.toList :=
  isNumeral_float fun hinfinite => absurd (hfinite.symm.trans hinfinite) Bool.false_ne_true

namespace Token

theorem isDelimiter_of_isPunctuator {c : Char} (h : isPunctuator c = true) :
    Numeral.isDelimiter c = true := by
  simp only [isPunctuator, List.contains_eq_mem, List.mem_cons, List.not_mem_nil, or_false,
    decide_eq_true_eq] at h
  rcases h with h | h | h | h | h | h | h | h | h | h | h | h | h <;> subst c <;> decide

theorem not_isNameStart_of_isDigit {c : Char} (h : c.isDigit = true) : isNameStart c = false := by
  have hcode : c.val ≤ '9'.val := of_decide_eq_true (Bool.and_eq_true_iff.mp h).2
  have hupper : c.isUpper = false :=
    decide_eq_false fun hc => absurd (UInt32.le_trans hc.1 hcode) (by decide)
  have hlower : c.isLower = false :=
    Bool.and_eq_false_imp.mpr fun hc =>
      absurd (UInt32.le_trans (of_decide_eq_true hc) hcode) (by decide)
  have halpha : c.isAlpha = false := Bool.or_eq_false_iff.mpr ⟨hupper, hlower⟩
  have hne : c ≠ '_' := by
    rintro rfl
    exact absurd h (by decide)
  simp [isNameStart, halpha, hne]

/-- How a character of its own kind starts a token. -/
theorem scan_cons {c : Char} (hquote : c ≠ '"') (hpoint : c ≠ '.') (r : List Char) :
    scan (c :: r) =
      if isNameStart c then
        let (text, rest) := r.span isNameRest
        some (name (String.ofList (c :: text)), rest)
      else if c == '-' || c.isDigit then do
        let (text, rest) := Numeral.scan r
        return (ofNumeral (← Numeral.value? (c :: text)), rest)
      else if isPunctuator c then some (punctuator c, r)
      else none := by
  rw [scan]
  · intro _ h
    exact absurd h hquote
  · exact hquote
  · intro _ h
    exact absurd h hpoint

theorem scan_mark {c : Char} (hc : isPunctuator c = true) (cs : List Char) :
    scan (c :: cs) = some (punctuator c, cs) := by
  have hdelimiter := isDelimiter_of_isPunctuator hc
  obtain ⟨hdigit, hrest, hquote⟩ := Numeral.isDelimiter_cases hdelimiter
  have hne : c ≠ '.' ∧ c ≠ '-' := by
    constructor <;> (rintro rfl; exact absurd hc (by decide))
  have hstart : isNameStart c = false := by
    cases h : isNameStart c with
    | false => rfl
    | true => simp [isNameRest, h] at hrest
  rw [scan_cons hquote hne.1, hstart, if_neg (by decide), if_neg (by simp [hne.2, hdigit]),
    if_pos hc]

theorem scan_name {s : String} (hs : IsName s) {cs : List Char} (hcs : Bounded cs) :
    scan (s.toList ++ cs) = some (name s, cs) := by
  obtain ⟨c, r, h, hc, hr⟩ := hs
  have hquote : c ≠ '"' := by
    rintro rfl
    exact absurd hc (by decide)
  have hpoint : c ≠ '.' := by
    rintro rfl
    exact absurd hc (by decide)
  have hspan := Text.span_append hr fun x hx => (Numeral.isDelimiter_cases (hcs x hx)).2.1
  rw [h, List.cons_append, scan_cons hquote hpoint, if_pos hc, hspan]
  show some (name (String.ofList (c :: r)), cs) = _
  rw [← h, String.ofList_toList]

theorem scan_numeral {w : List Char} (hw : IsNumeral w) {cs : List Char} (hcs : Bounded cs) :
    scan (w ++ cs) = (Numeral.value? w).map fun v => (ofNumeral v, cs) := by
  obtain ⟨c, r, rfl, hc, hr⟩ := hw
  have hspan : Numeral.scan (r ++ cs) = (r, cs) :=
    Text.span_append (fun x hx => by simp [(hr x hx).1]) (fun x hx => by simp [hcs x hx])
  have hne : ∀ x : Char, x ≠ '-' → x.isDigit = false → c ≠ x := by
    rintro x hx hdigit rfl
    simp [hx, hdigit] at hc
  have hstart : isNameStart c = false := by
    obtain rfl | hdigit := hc
    · decide
    · exact not_isNameStart_of_isDigit hdigit
  rw [List.cons_append, scan_cons (hne _ (by decide) (by decide)) (hne _ (by decide) (by decide)),
    hstart, if_neg (by decide), if_pos (by simpa using hc), hspan]
  show ((Numeral.value? (c :: r)).bind fun v => some (ofNumeral v, cs)) = _
  cases Numeral.value? (c :: r) <;> rfl

/-- A quoted string is one token. Only behind the empty one would a quote open a block string. -/
theorem scan_quote {s : String} {cs : List Char} (hcs : s = "" → cs.head? ≠ some '"') :
    scan ((Quoted.quote s).toList ++ cs) = some (string s, cs) := by
  have hscan := Quoted.scan_quoted s.toList cs
  rw [Quoted.quote_append, scan, hscan]
  · show some (string (String.ofList s.toList), cs) = _
    rw [String.ofList_toList]
  · intro r h
    cases hs : s.toList with
    | nil =>
      rw [hs, List.flatMap_nil, List.nil_append] at h
      exact hcs (String.toList_eq_nil_iff.mp hs) (by rw [(List.cons.inj h).2]; rfl)
    | cons c l =>
      obtain ⟨x, e, he, hx⟩ := Quoted.escape_head c
      rw [hs, List.flatMap_cons, he] at h
      exact hx (List.cons.inj h).1

/-- A bounded word is read back as its token. -/
theorem scan_word {w : List Char} {t : Token} (h : Word w t) {cs : List Char}
    (hcs : Bounded cs) : scan (w ++ cs) = some (t, cs) := by
  cases h with
  | name hs => exact scan_name hs hcs
  | int hn =>
    rw [scan_numeral (isNumeral_int _) hcs, Numeral.value?_int hn]
    rfl
  | float hx hfinite =>
    rw [scan_numeral (isNumeral_finite hfinite) hcs, Binary64.value?_render hx hfinite]
    rfl
  | string s => exact scan_quote fun _ => hcs.head?_ne (by decide)

end Token

end GraphSchema.Sdl
