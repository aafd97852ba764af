import GraphSchema.Proofs.Text.Scanning
import GraphSchema.Toml.Printer
import GraphSchema.Toml.Strings

/-!
# TOML strings are read back

Of each kind of string the written form is read back whole. Between three quotes, one or two more
may stand for themselves, even in front of the closing ones; so a run of them is followed from its
first quote on.
-/

namespace GraphSchema.Toml

/-- A character that is not written as it is in a basic string on one line. -/
def IsEscaped (c : Char) : Prop :=
  c = '"' ∨ c = '\\' ∨ c = '\t' ∨ c = '\n' ∨ needsEscape c = true

/-- An escape is a letter behind a backslash, or the code of the character. -/
theorem escape_cases {c : Char} (h : IsEscaped c) :
    (∃ e ∈ ['b', 't', 'n', 'f', 'r', '"', '\\'], unescape? e = some c ∧ escape c = ['\\', e]) ∨
      (c.toNat < 0x80 ∧ escape c = '\\' :: 'u' :: Text.hexQuad Text.hexDigitUpper c.toNat) := by
  by_cases hletter : c ∈ ['\x08', '\t', '\n', '\x0c', '\r', '"', '\\']
  · simp only [List.mem_cons, List.not_mem_nil, or_false] at hletter
    refine .inl ?_
    rcases hletter with rfl | rfl | rfl | rfl | rfl | rfl | rfl
    · exact ⟨'b', by decide, rfl, rfl⟩
    · exact ⟨'t', by decide, rfl, rfl⟩
    · exact ⟨'n', by decide, rfl, rfl⟩
    · exact ⟨'f', by decide, rfl, rfl⟩
    · exact ⟨'r', by decide, rfl, rfl⟩
    · exact ⟨'"', by decide, rfl, rfl⟩
    · exact ⟨'\\', by decide, rfl, rfl⟩
  · simp only [List.mem_cons, List.not_mem_nil, or_false, not_or] at hletter
    obtain ⟨hbackspace, htab, hfeed, hpage, hreturn, hquote, hback⟩ := hletter
    have hneeds : needsEscape c = true := by
      rcases h with h | h | h | h | h
      · exact absurd h hquote
      · exact absurd h hback
      · exact absurd h htab
      · exact absurd h hfeed
      · exact h
    simp only [needsEscape, Bool.and_eq_true, Bool.or_eq_true, decide_eq_true_eq] at hneeds
    refine .inr ⟨by omega, ?_⟩
    unfold escape
    rw [if_neg hbackspace, if_neg htab, if_neg hfeed, if_neg hpage, if_neg hreturn, if_neg hquote,
      if_neg hback]

theorem scalar?_hexQuad {c : Char} (h : c.toNat < 0x80) :
    scalar? (Text.hexQuad Text.hexDigitUpper c.toNat) = some c := by
  have hnumber := Text.hexNumber?_hexQuad Text.hexValue?_hexDigitUpper
    (show c.toNat < 65536 by omega)
  rw [scalar?, hnumber]
  show (if c.toNat < 0xD800 ∨ 0xE000 ≤ c.toNat ∧ c.toNat < 0x110000 then
    some (Char.ofNat c.toNat) else none) = some c
  rw [if_pos (.inl (by omega)), Char.ofNat_toNat]

theorem scanBasic_plain {c : Char} (hplain : isPlain c = true) (hquote : c ≠ '"')
    (hback : c ≠ '\\') (cs : List Char) :
    scanBasic (c :: cs) = (scanBasic cs).bind fun r => some (c :: r.1, r.2) := by
  rw [scanBasic.eq_def]
  split <;> simp_all

theorem scanBasic_escape {c : Char} (h : IsEscaped c) (cs : List Char) :
    scanBasic (escape c ++ cs) = (scanBasic cs).bind fun r => some (c :: r.1, r.2) := by
  obtain ⟨e, he, hx, hescape⟩ | ⟨hlow, hescape⟩ := escape_cases h
  · rw [hescape, List.cons_append, List.singleton_append, scanBasic, hx]
    · rfl
    · rintro a b c d r rfl
      exact absurd he (by decide)
    · rintro a b c d e f g h r rfl
      exact absurd he (by decide)
  · have hscalar := scalar?_hexQuad hlow
    rw [Text.hexQuad] at hscalar
    rw [hescape, Text.hexQuad]
    simp only [List.cons_append, List.nil_append, scanBasic, hscalar]
    rfl

/-- The ways in which the inside of a basic string goes on with a character. -/
theorem basicChars_cases (severalLines : Bool) (quotes run : Nat) (c : Char) (r : List Char) :
    (c = '"' ∧ run < quotes ∧
      basicChars severalLines quotes run (c :: r) =
        c :: basicChars severalLines quotes (run + 1) r) ∨
    (IsEscaped c ∧
      basicChars severalLines quotes run (c :: r) =
        escape c ++ basicChars severalLines quotes 0 r) ∨
    (c ≠ '"' ∧ c ≠ '\\' ∧ (isPlain c = true ∨ c = '\n' ∧ severalLines = true) ∧
      basicChars severalLines quotes run (c :: r) = c :: basicChars severalLines quotes 0 r) := by
  rw [basicChars]
  by_cases hquote : c = '"'
  · by_cases hrun : run < quotes
    · exact .inl ⟨hquote, hrun, by rw [if_pos hquote, if_pos hrun]⟩
    · exact .inr (.inl ⟨.inl hquote, by rw [if_pos hquote, if_neg hrun]⟩)
  rw [if_neg hquote]
  by_cases hfeed : c = '\n' ∧ severalLines = true
  · have hback : c ≠ '\\' := by
      rw [hfeed.1]
      decide
    exact .inr (.inr ⟨hquote, hback, .inr hfeed, if_pos hfeed⟩)
  rw [if_neg hfeed]
  by_cases hescaped : c = '\t' ∨ c = '\n' ∨ c = '\\' ∨ needsEscape c = true
  · have : IsEscaped c := by
      rcases hescaped with h | h | h | h
      · exact .inr (.inr (.inl h))
      · exact .inr (.inr (.inr (.inl h)))
      · exact .inr (.inl h)
      · exact .inr (.inr (.inr (.inr h)))
    exact .inr (.inl ⟨this, if_pos hescaped⟩)
  · refine .inr (.inr ⟨hquote, fun h => hescaped (by simp [h]), .inl ?_, if_neg hescaped⟩)
    simp only [not_or, needsEscape, Bool.and_eq_true, Bool.or_eq_true,
      decide_eq_true_eq] at hescaped
    obtain ⟨htab, hline, -, hneeds⟩ := hescaped
    have hcode : ¬(c.toNat < 0x20 ∨ c.toNat = 0x7F) := fun h => hneeds ⟨⟨h, htab⟩, hline⟩
    simp only [isPlain, Bool.or_eq_true, Bool.and_eq_true, decide_eq_true_eq]
    exact .inr ⟨by omega, by omega⟩

theorem scanBasic_basicChars (s rest : List Char) :
    scanBasic (basicChars false 0 0 s ++ '"' :: rest) = some (s, rest) := by
  induction s with
  | nil => rw [basicChars, List.nil_append, scanBasic]
  | cons c s ih =>
    obtain ⟨-, hrun, -⟩ | ⟨hescaped, h⟩ | ⟨hquote, hback, hplain, h⟩ :=
      basicChars_cases false 0 0 c s
    · exact absurd hrun (Nat.not_lt_zero 0)
    · rw [h, List.append_assoc, scanBasic_escape hescaped, ih]
      rfl
    · have hplain : isPlain c = true := by simpa using hplain
      rw [h, List.cons_append, scanBasic_plain hplain hquote hback, ih]
      rfl

theorem scanLiteral_plain {s : List Char} (hplain : ∀ c ∈ s, isPlain c = true)
    (hquote : '\'' ∉ s) (rest : List Char) :
    scanLiteral (s ++ '\'' :: rest) = some (s, rest) := by
  induction s with
  | nil => rw [List.nil_append, scanLiteral]
  | cons c s ih =>
    obtain ⟨hc, hs⟩ := List.ne_and_not_mem_of_not_mem_cons hquote
    rw [List.cons_append, scanLiteral, if_pos (hplain c (by simp)),
      ih (fun x hx => hplain x (by simp [hx])) hs]
    · rfl
    · exact fun h => hc h.symm

/-- A character stands for itself, unless it is one of three quotes in a row. -/
theorem scanBasicLines_own {c : Char} (hown : isPlain c = true ∨ c = '\n') (hback : c ≠ '\\')
    {cs : List Char} (hquote : c = '"' → ∀ r, cs ≠ '"' :: '"' :: r) :
    scanBasicLines .nothing (c :: cs) =
      (scanBasicLines .nothing cs).bind fun r => some (c :: r.1, r.2) := by
  have hreturn : c ≠ '\r' := by
    rintro rfl
    exact absurd hown (by decide)
  have hif : (isPlain c = true ∧ c ≠ '\\') ∨ c = '\n' := hown.imp_left fun h => ⟨h, hback⟩
  rw [scanBasicLines, if_pos hif]
  · rfl
  all_goals intros; simp_all

theorem scanBasicLines_escape {c : Char} (h : IsEscaped c) (cs : List Char) :
    scanBasicLines .nothing (escape c ++ cs) =
      (scanBasicLines .nothing cs).bind fun r => some (c :: r.1, r.2) := by
  obtain ⟨e, he, hx, hescape⟩ | ⟨hlow, hescape⟩ := escape_cases h
  · rw [hescape, List.cons_append, List.singleton_append]
    simp only [List.mem_cons, List.not_mem_nil, or_false] at he
    rcases he with rfl | rfl | rfl | rfl | rfl | rfl | rfl
    all_goals
      rw [scanBasicLines, hx] <;> simp [isSpace]
  · have hscalar := scalar?_hexQuad hlow
    rw [Text.hexQuad] at hscalar
    rw [hescape, Text.hexQuad]
    simp only [List.cons_append, List.nil_append, scanBasicLines, hscalar]
    rfl

section

variable {scan : List Char → Option (List Char × List Char)} {mark : Char}

/-- Fewer than three quotes in a row stand for themselves. -/
theorem scan_run (hone : ∀ cs, (∀ r, cs ≠ mark :: mark :: r) →
      scan (mark :: cs) = (scan cs).bind fun r => some (mark :: r.1, r.2))
    {run : Nat} (hrun : run ≤ 2) {cs : List Char} (hcs : cs.head? ≠ some mark) :
    scan (List.replicate run mark ++ cs) =
      (scan cs).bind fun r => some (List.replicate run mark ++ r.1, r.2) := by
  induction run with
  | zero =>
    show scan cs = _
    cases scan cs <;> rfl
  | succ run ih =>
    have hshort : ∀ r, List.replicate run mark ++ cs ≠ mark :: mark :: r := by
      intro r h
      cases run with
      | zero => exact hcs (by rw [show cs = mark :: mark :: r from h]; rfl)
      | succ run =>
        obtain rfl : run = 0 := by omega
        exact hcs (by rw [(List.cons.inj (show mark :: cs = mark :: mark :: r from h)).2]; rfl)
    rw [List.replicate_succ, List.cons_append, hone _ hshort, ih (by omega)]
    cases scan cs <;> rfl

end

/-- Of the quotes at the end the last three close the string. -/
theorem scanBasicLines_close {run : Nat} (hrun : run ≤ 2) {rest : List Char}
    (hrest : rest.head? ≠ some '"') :
    scanBasicLines .nothing (List.replicate run '"' ++ '"' :: '"' :: '"' :: rest) =
      some (List.replicate run '"', rest) := by
  have hend : ∀ r, rest ≠ '"' :: r := by
    rintro r rfl
    exact hrest rfl
  match run, hrun with
  | 0, _ =>
    show scanBasicLines .nothing ('"' :: '"' :: '"' :: rest) = _
    rw [scanBasicLines] <;> simp_all
  | 1, _ =>
    show scanBasicLines .nothing ('"' :: '"' :: '"' :: '"' :: rest) = _
    rw [scanBasicLines] <;> simp_all
  | 2, _ => rfl

/-- Behind a run of quotes that stand for themselves, the closing ones are found. -/
theorem scanBasicLines_basicChars (s : List Char) {run : Nat} (hrun : run ≤ 2) {rest : List Char}
    (hrest : rest.head? ≠ some '"') :
    scanBasicLines .nothing
        (List.replicate run '"' ++ (basicChars true 2 run s ++ '"' :: '"' :: '"' :: rest)) =
      some (List.replicate run '"' ++ s, rest) := by
  have hone : ∀ cs, (∀ r, cs ≠ '"' :: '"' :: r) → scanBasicLines .nothing ('"' :: cs) =
      (scanBasicLines .nothing cs).bind fun r => some ('"' :: r.1, r.2) := by
    intro cs hcs
    exact scanBasicLines_own (.inl (by decide)) (by decide) fun _ => hcs
  induction s generalizing run with
  | nil =>
    rw [basicChars, List.nil_append, List.append_nil]
    exact scanBasicLines_close hrun hrest
  | cons c s ih =>
    obtain ⟨rfl, hmore, h⟩ | ⟨hescaped, h⟩ | ⟨hquote, hback, hplain, h⟩ :=
      basicChars_cases true 2 run c s
    · have hnext := ih (show run + 1 ≤ 2 by omega)
      rw [List.replicate_succ', List.append_assoc, List.append_assoc] at hnext
      rw [h]
      exact hnext
    · have hhead : (escape c ++ (basicChars true 2 0 s ++ '"' :: '"' :: '"' :: rest)).head? ≠
          some '"' := by
        obtain ⟨e, -, -, hescape⟩ | ⟨-, hescape⟩ := escape_cases hescaped <;> simp [hescape]
      have hnext := ih (Nat.zero_le 2)
      rw [List.replicate_zero, List.nil_append, List.nil_append] at hnext
      rw [h, List.append_assoc, scan_run hone hrun hhead, scanBasicLines_escape hescaped, hnext]
      rfl
    · have hown : isPlain c = true ∨ c = '\n' := hplain.imp_right And.left
      have hnext := ih (Nat.zero_le 2)
      rw [List.replicate_zero, List.nil_append, List.nil_append] at hnext
      rw [h, List.cons_append, scan_run hone hrun (by simpa using hquote),
        scanBasicLines_own hown hback fun h => absurd h hquote, hnext]
      rfl

theorem scanLiteralLines_own {c : Char} (hown : isPlain c = true ∨ c = '\n') {cs : List Char}
    (hquote : c = '\'' → ∀ r, cs ≠ '\'' :: '\'' :: r) :
    scanLiteralLines (c :: cs) =
      (scanLiteralLines cs).bind fun r => some (c :: r.1, r.2) := by
  have hreturn : c ≠ '\r' := by
    rintro rfl
    exact absurd hown (by decide)
  rw [scanLiteralLines, if_pos hown]
  · rfl
  all_goals intros; simp_all

theorem scanLiteralLines_close {run : Nat} (hrun : run ≤ 2) {rest : List Char}
    (hrest : rest.head? ≠ some '\'') :
    scanLiteralLines (List.replicate run '\'' ++ '\'' :: '\'' :: '\'' :: rest) =
      some (List.replicate run '\'', rest) := by
  have hend : ∀ r, rest ≠ '\'' :: r := by
    rintro r rfl
    exact hrest rfl
  match run, hrun with
  | 0, _ =>
    show scanLiteralLines ('\'' :: '\'' :: '\'' :: rest) = _
    rw [scanLiteralLines] <;> simp_all
  | 1, _ =>
    show scanLiteralLines ('\'' :: '\'' :: '\'' :: '\'' :: rest) = _
    rw [scanLiteralLines] <;> simp_all
  | 2, _ => rfl

theorem le_longestRun (mark : Char) (run : Nat) (s : List Char) : run ≤ longestRun mark run s := by
  induction s generalizing run with
  | nil => exact Nat.le_refl run
  | cons c s ih =>
    rw [longestRun]
    split
    · exact Nat.le_of_succ_le (ih (run + 1))
    · exact Nat.le_max_left _ _

theorem scanLiteralLines_plain {s : List Char} (hplain : ∀ c ∈ s, isPlain c = true ∨ c = '\n')
    {run : Nat} (hrun : longestRun '\'' run s ≤ 2) {rest : List Char}
    (hrest : rest.head? ≠ some '\'') :
    scanLiteralLines (List.replicate run '\'' ++ (s ++ '\'' :: '\'' :: '\'' :: rest)) =
      some (List.replicate run '\'' ++ s, rest) := by
  have hone : ∀ cs, (∀ r, cs ≠ '\'' :: '\'' :: r) → scanLiteralLines ('\'' :: cs) =
      (scanLiteralLines cs).bind fun r => some ('\'' :: r.1, r.2) := by
    intro cs hcs
    exact scanLiteralLines_own (.inl (by decide)) fun _ => hcs
  induction s generalizing run with
  | nil =>
    rw [List.nil_append, List.append_nil]
    exact scanLiteralLines_close hrun hrest
  | cons c s ih =>
    have hs : ∀ x ∈ s, isPlain x = true ∨ x = '\n' := fun x hx => hplain x (by simp [hx])
    rw [longestRun] at hrun
    split at hrun
    · next hquote =>
      have hnext := ih hs hrun
      rw [List.replicate_succ', List.append_assoc, List.append_assoc] at hnext
      rw [hquote]
      exact hnext
    · next hquote =>
      have hnext := ih hs (show longestRun '\'' 0 s ≤ 2 by omega)
      rw [List.replicate_zero, List.nil_append, List.nil_append] at hnext
      rw [List.cons_append, scan_run hone (by omega) (by simpa using hquote),
        scanLiteralLines_own (hplain c (by simp)) fun h => absurd h hquote, hnext]
      rfl

theorem longestRun_pos {mark : Char} {s : List Char} (h : mark ∈ s) (run : Nat) :
    0 < longestRun mark run s := by
  induction s generalizing run with
  | nil => exact absurd h (by simp)
  | cons c s ih =>
    rw [longestRun]
    split
    · exact Nat.lt_of_lt_of_le (Nat.succ_pos run) (le_longestRun mark (run + 1) s)
    · next hc =>
      have hs : mark ∈ s := (List.mem_cons.mp h).resolve_left fun h => hc h.symm
      exact Nat.lt_of_lt_of_le (ih hs 0) (Nat.le_max_right _ _)

/-- The line end behind the opening quotes is passed, and nothing else is. -/
theorem dropLineEnd_firstLineEnd {s cs : List Char}
    (h : '\n' ∉ s → ∀ c ∈ cs.head?, c ≠ '\n' ∧ c ≠ '\r') :
    dropLineEnd (firstLineEnd s ++ cs) = cs := by
  unfold firstLineEnd
  split
  · rfl
  · next hs =>
    have hhead := h (by simpa using hs)
    rw [List.nil_append]
    cases cs with
    | nil => rfl
    | cons c cs =>
      obtain ⟨hfeed, hreturn⟩ := hhead c rfl
      unfold dropLineEnd
      split <;> simp_all

/-- What may stand behind a string: no quote, which would be taken for one of its own. -/
def EndsString (cs : List Char) : Prop := ∀ c ∈ cs.head?, c ≠ '"' ∧ c ≠ '\''

theorem EndsString.double {cs : List Char} (h : EndsString cs) : cs.head? ≠ some '"' :=
  fun hc => (h _ hc).1 rfl

theorem EndsString.single {cs : List Char} (h : EndsString cs) : cs.head? ≠ some '\'' :=
  fun hc => (h _ hc).2 rfl

theorem basic_append (s rest : List Char) :
    basic s ++ rest = '"' :: (basicChars false 0 0 s ++ '"' :: rest) := by
  simp [basic]

theorem literal_append (s rest : List Char) :
    literal s ++ rest = '\'' :: (s ++ '\'' :: rest) := by
  simp [literal]

theorem scanString_basic (s : List Char) {rest : List Char} (hrest : EndsString rest) :
    scanString (basic s ++ rest) = some (s, rest) := by
  have hne : ∀ r, basicChars false 0 0 s ++ '"' :: rest ≠ '"' :: '"' :: r := by
    intro r h
    cases s with
    | nil => exact hrest.double (by rw [(List.cons.inj h).2]; rfl)
    | cons c s =>
      obtain ⟨-, hrun, -⟩ | ⟨hescaped, hchars⟩ | ⟨hquote, -, -, hchars⟩ :=
        basicChars_cases false 0 0 c s
      · exact absurd hrun (Nat.not_lt_zero 0)
      · obtain ⟨e, -, -, hescape⟩ | ⟨-, hescape⟩ := escape_cases hescaped <;>
          simp [hchars, hescape] at h
      · rw [hchars] at h
        exact hquote (List.cons.inj h).1
  have hscan := scanBasic_basicChars s rest
  rw [basic_append, scanString, hscan]
  exact hne

theorem scanString_literal {s : List Char} (hplain : ∀ c ∈ s, isPlain c = true)
    (hquote : '\'' ∉ s) {rest : List Char} (hrest : EndsString rest) :
    scanString (literal s ++ rest) = some (s, rest) := by
  have hne : ∀ r, s ++ '\'' :: rest ≠ '\'' :: '\'' :: r := by
    intro r h
    cases s with
    | nil => exact hrest.single (by rw [(List.cons.inj h).2]; rfl)
    | cons c s => exact hquote (by rw [(List.cons.inj h).1]; simp)
  rw [literal_append, scanString, scanLiteral_plain hplain hquote]
  exact hne

theorem scanString_basicLines (s : List Char) {rest : List Char} (hrest : EndsString rest) :
    scanString (basicLines s ++ rest) = some (s, rest) := by
  have hhead : '\n' ∉ s → ∀ c ∈ (basicChars true 2 0 s ++ '"' :: '"' :: '"' :: rest).head?,
      c ≠ '\n' ∧ c ≠ '\r' := by
    intro hfeed x hx
    cases s with
    | nil =>
      obtain rfl := Option.some.inj hx
      decide
    | cons c s =>
      obtain ⟨rfl, -, h⟩ | ⟨hescaped, h⟩ | ⟨-, -, hown, h⟩ := basicChars_cases true 2 0 c s
      · rw [h] at hx
        obtain rfl := Option.some.inj hx
        decide
      · obtain ⟨e, -, -, hescape⟩ | ⟨-, hescape⟩ := escape_cases hescaped
        all_goals
          rw [h, hescape] at hx
          obtain rfl := Option.some.inj hx
          decide
      · rw [h] at hx
        obtain rfl := Option.some.inj hx
        have hc : c ≠ '\n' := fun hc => hfeed (by simp [hc])
        refine ⟨hc, ?_⟩
        rintro rfl
        exact absurd hown (by decide)
  have hscan := scanBasicLines_basicChars s (Nat.zero_le 2) hrest.double
  have htext : basicLines s ++ rest = '"' :: '"' :: '"' ::
      (firstLineEnd s ++ (basicChars true 2 0 s ++ '"' :: '"' :: '"' :: rest)) := by
    simp [basicLines]
  rw [htext, scanString, dropLineEnd_firstLineEnd hhead]
  exact hscan

theorem scanString_literalLines {s : List Char} (hplain : ∀ c ∈ s, isPlain c = true ∨ c = '\n')
    (hrun : longestRun '\'' 0 s ≤ 2) {rest : List Char} (hrest : EndsString rest) :
    scanString (literalLines s ++ rest) = some (s, rest) := by
  have hhead : '\n' ∉ s → ∀ c ∈ (s ++ '\'' :: '\'' :: '\'' :: rest).head?,
      c ≠ '\n' ∧ c ≠ '\r' := by
    intro hfeed x hx
    cases s with
    | nil =>
      obtain rfl := Option.some.inj hx
      decide
    | cons c s =>
      obtain rfl := Option.some.inj hx
      refine ⟨fun hc => hfeed (by simp [hc]), ?_⟩
      rintro rfl
      exact absurd (hplain '\r' (by simp)) (by decide)
  have hscan := scanLiteralLines_plain hplain hrun hrest.single
  have htext : literalLines s ++ rest = '\'' :: '\'' :: '\'' ::
      (firstLineEnd s ++ (s ++ '\'' :: '\'' :: '\'' :: rest)) := by
    simp [literalLines]
  rw [htext, scanString, dropLineEnd_firstLineEnd hhead]
  exact hscan

/-- Where nothing has to be escaped, every character but a line feed is plain. -/
theorem plain_of_not_needsEscape {s : List Char} (h : s.any needsEscape = false) :
    ∀ c ∈ s, isPlain c = true ∨ c = '\n' := by
  intro c hc
  have hneeds := List.any_eq_false.mp h c hc
  simp only [needsEscape, Bool.and_eq_true, Bool.or_eq_true, decide_eq_true_eq] at hneeds
  by_cases hfeed : c = '\n'
  · exact .inr hfeed
  by_cases htab : c = '\t'
  · exact .inl (by simp [isPlain, htab])
  have hcode : ¬(c.toNat < 0x20 ∨ c.toNat = 0x7F) := fun h => hneeds ⟨⟨h, htab⟩, hfeed⟩
  simp only [isPlain, Bool.or_eq_true, Bool.and_eq_true, decide_eq_true_eq]
  exact .inl (.inr ⟨by omega, by omega⟩)

/-- Every string is read back from its written form, whichever kind that is. -/
theorem scanString_quote (s : String) {rest : List Char} (hrest : EndsString rest) :
    scanString ((quote s).toList ++ rest) = some (s.toList, rest) := by
  rw [quote, String.toList_ofList]
  generalize s.toList = s
  unfold quoteChars
  dsimp only
  split
  · exact scanString_basic s hrest
  split
  · next h =>
    simp only [Bool.and_eq_true, Bool.not_eq_true', beq_iff_eq, List.contains_eq_mem,
      decide_eq_false_iff_not] at h
    obtain ⟨⟨hescapes, hsingles⟩, hfeed⟩ := h
    refine scanString_literal (fun c hc => ?_) (fun hc => ?_) hrest
    · refine (plain_of_not_needsEscape hescapes c hc).resolve_right ?_
      rintro rfl
      exact hfeed hc
    · exact absurd hsingles (Nat.ne_of_gt (longestRun_pos hc 0))
  split
  · exact scanString_basicLines s hrest
  split
  · next h =>
    simp only [Bool.and_eq_true, Bool.not_eq_true', decide_eq_true_eq] at h
    exact scanString_literalLines (plain_of_not_needsEscape h.1) h.2 hrest
  split
  · exact scanString_basicLines s hrest
  · exact scanString_basic s hrest

end GraphSchema.Toml
