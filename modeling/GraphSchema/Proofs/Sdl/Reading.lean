import GraphSchema.Proofs.Sdl.Spelling
import GraphSchema.Sdl.Parser

/-!
# Reading spelled text

What a parser reads at the front of a text whose tokens it is given, and what it leaves. The
choices of a parser hang on the next token, which the first characters behind the gaps tell.
-/

namespace GraphSchema.Sdl

/-- The characters that tell the first token of a text. A string is told by its quote. -/
def lead (cs : List Char) : List Char :=
  match cs.dropWhile isGap with
  | [] => []
  | c :: r =>
      if Token.isPunctuator c ∨ c = '"' then [c]
      else c :: r.takeWhile fun x => !Numeral.isDelimiter x

/-- The characters that tell a token. -/
def Token.lead : Token → List Char
  | punctuator c => [c]
  | name s => s.toList
  | int n => (toString n).toList
  | float x => x.render.toList
  | string _ => ['"']
  | _ => []

theorem lead_gap {c : Char} (hc : isGap c = true) (cs : List Char) : lead (c :: cs) = lead cs := by
  unfold lead
  rw [List.dropWhile_cons_of_pos hc]

theorem lead_mark {c : Char} (hc : Token.isPunctuator c = true) (cs : List Char) :
    lead (c :: cs) = [c] := by
  have hgap : ¬isGap c = true := by
    intro h
    simp only [isGap, Bool.or_eq_true, decide_eq_true_eq] at h
    rcases h with (rfl | rfl) | rfl <;> exact absurd hc (by decide)
  unfold lead
  rw [List.dropWhile_cons_of_neg hgap]
  exact if_pos (.inl hc)

theorem lead_quote (cs : List Char) : lead ('"' :: cs) = ['"'] := rfl

theorem lead_inert {w : List Char} (hne : w ≠ []) (hw : ∀ c ∈ w, IsInert c) {cs : List Char}
    (hcs : Bounded cs) : lead (w ++ cs) = w := by
  cases w with
  | nil => exact absurd rfl hne
  | cons c r =>
    have hc := hw c (by simp)
    have hgap : ¬isGap c = true := by
      simp [isGap, hc.ne (show Numeral.isDelimiter ' ' = true by decide),
        hc.ne (show Numeral.isDelimiter ',' = true by decide),
        hc.ne (show Numeral.isDelimiter '\n' = true by decide)]
    have hmark : ¬(Token.isPunctuator c = true ∨ c = '"') := by
      rintro (h | h)
      · exact hc.ne (Token.isDelimiter_of_isPunctuator h) rfl
      · exact hc.2 h
    have hrun : (r ++ cs).takeWhile (fun x => !Numeral.isDelimiter x) = r := by
      rw [List.takeWhile_append_of_pos fun x hx => by simp [(hw x (by simp [hx])).1]]
      cases cs with
      | nil => simp
      | cons x cs => simp [hcs x rfl]
    unfold lead
    rw [List.cons_append, List.dropWhile_cons_of_neg hgap]
    simp only [hmark, ↓reduceIte, hrun]

theorem lead_name {s : String} (hs : IsName s) {cs : List Char} (hcs : Bounded cs) :
    lead (s.toList ++ cs) = s.toList := by
  refine lead_inert ?_ hs.inert hcs
  obtain ⟨c, r, h, -, -⟩ := hs
  simp [h]

theorem lead_name_ne {s : String} (hs : IsName s) {c : Char}
    (hc : Token.isPunctuator c = true) {cs : List Char} (hcs : Bounded cs) :
    lead (s.toList ++ cs) ≠ [c] := by
  rw [lead_name hs hcs]
  intro h
  exact (hs.inert c (by simp [h])).ne (Token.isDelimiter_of_isPunctuator hc) rfl

/-- A word is told by its token, and is no punctuator. -/
theorem lead_word {w : List Char} {t : Token} (hw : Word w t) {cs : List Char}
    (hcs : Bounded cs) : lead (w ++ cs) = t.lead ∧
      ∃ c r, t.lead = c :: r ∧ Token.isPunctuator c = false := by
  have hinert : ∀ {c : Char}, IsInert c → Token.isPunctuator c = false := by
    intro c hc
    cases h : Token.isPunctuator c with
    | false => rfl
    | true => exact absurd rfl (hc.ne (Token.isDelimiter_of_isPunctuator h))
  have hnumeral : ∀ {w : List Char}, IsNumeral w → lead (w ++ cs) = w ∧
      ∃ c r, w = c :: r ∧ Token.isPunctuator c = false := by
    intro w hw
    have hall := hw.inert
    obtain ⟨c, r, rfl, -, -⟩ := hw
    exact ⟨lead_inert (by simp) hall hcs, c, r, rfl, hinert (hall c (by simp))⟩
  cases hw with
  | name hs =>
    have hall := hs.inert
    refine ⟨lead_name hs hcs, ?_⟩
    obtain ⟨c, r, h, -, -⟩ := hs
    exact ⟨c, r, h, hinert (hall c (by simp [h]))⟩
  | int hn => exact hnumeral (isNumeral_int _)
  | float hx hfinite => exact hnumeral (isNumeral_finite hfinite)
  | string s =>
    rw [Quoted.quote_append]
    exact ⟨rfl, '"', [], rfl, by decide⟩

theorem Spells.lead_eq {cs : List Char} {ts : List Token} (h : Spells cs ts) :
    lead cs = (ts.head?.map Token.lead).getD [] := by
  induction h with
  | nil => rfl
  | gap hc h ih => rw [lead_gap hc, ih]
  | mark hc h ih => exact lead_mark hc _
  | word hw hcs h ih => exact (lead_word hw hcs).1

/-- A text with a punctuator in front has it as its first token. -/
theorem Spells.head_mark {cs : List Char} {ts : List Token} (h : Spells cs ts) {c : Char}
    (hlead : lead cs = [c]) (hc : Token.isPunctuator c = true) :
    ts.head? = some (.punctuator c) := by
  induction h with
  | nil => exact absurd hlead (by simp [lead])
  | gap hgap h ih => exact ih (lead_gap hgap _ ▸ hlead)
  | mark hmark h ih =>
    rw [lead_mark hmark] at hlead
    rw [(List.cons.inj hlead).1]
    rfl
  | word hw hcs h ih =>
    obtain ⟨hword, x, r, hx, hmark⟩ := lead_word hw hcs
    rw [hword, hx] at hlead
    rw [(List.cons.inj hlead).1, hc] at hmark
    exact absurd hmark (by decide)

/-- A text with nothing in front has no tokens. -/
theorem Spells.eq_nil {cs : List Char} {ts : List Token} (h : Spells cs ts)
    (hlead : lead cs = []) : ts = [] := by
  induction h with
  | nil => rfl
  | gap hgap h ih => exact ih (lead_gap hgap _ ▸ hlead)
  | mark hmark h ih =>
    rw [lead_mark hmark] at hlead
    exact absurd hlead (by simp)
  | word hw hcs h ih =>
    obtain ⟨hword, x, r, hx, -⟩ := lead_word hw hcs
    rw [hword, hx] at hlead
    exact absurd hlead (by simp)

/-- A text may stand behind a word, and its first token is none of some. -/
def Avoids (words : List String) (cs : List Char) : Prop :=
  Bounded cs ∧ ∀ w ∈ words, lead cs ≠ w.toList

theorem Avoids.mono {words more : List String} {cs : List Char} (h : Avoids more cs)
    (hsub : ∀ w ∈ words, w ∈ more) : Avoids words cs :=
  ⟨h.1, fun w hw => h.2 w (hsub w hw)⟩

theorem avoids_mark {words : List String} {c : Char} (hc : Token.isPunctuator c = true)
    (hne : ∀ w ∈ words, [c] ≠ w.toList) (cs : List Char) : Avoids words (c :: cs) := by
  refine ⟨bounded_cons (Token.isDelimiter_of_isPunctuator hc) cs, fun w hw => ?_⟩
  rw [lead_mark hc]
  exact hne w hw

theorem avoids_gap {words : List String} {c : Char} (hc : isGap c = true) {cs : List Char}
    (h : ∀ w ∈ words, lead cs ≠ w.toList) : Avoids words (c :: cs) := by
  have hdelimiter : Numeral.isDelimiter c = true := by
    simp only [isGap, Bool.or_eq_true, decide_eq_true_eq] at hc
    rcases hc with (rfl | rfl) | rfl <;> decide
  refine ⟨bounded_cons hdelimiter cs, fun w hw => ?_⟩
  rw [lead_gap hc]
  exact h w hw

/-- The text `cs` is the token `t` and the text `rest`. -/
def Starts (t : Token) (cs rest : List Char) : Prop :=
  ∀ {ts : List Token}, Spells rest ts → Spells cs (t :: ts)

theorem starts_word {w cs : List Char} {t : Token} (hw : Word w t) (hcs : Bounded cs) :
    Starts t (w ++ cs) cs := fun h => .word hw hcs h

theorem starts_mark {c : Char} (hc : Token.isPunctuator c = true) (cs : List Char) :
    Starts (.punctuator c) (c :: cs) cs := fun h => .mark hc h

/-- The parser `p` reads `a` at the front of the text `cs` and leaves the text `rest`. The tokens
`used` are spelled in between. -/
structure Reads {α : Type} (used : List Token) (p : Parser α) (cs : List Char) (a : α)
    (rest : List Char) : Prop where
  spells : ∀ {ts : List Token}, Spells rest ts → Spells cs (used ++ ts)
  runs : ∀ {ts : List Token} {front back : List Located}, Spells rest ts →
    front.map (·.token) = used → back.map (·.token) = ts → p (front ++ back) = .ok (a, back)

namespace Reads

variable {α β : Type} {used more : List Token} {t : Token} {p : Parser α} {k : α → Parser β}
  {cs mid rest : List Char} {a : α} {b : β}

theorem pure (a : α) (cs : List Char) : Reads [] (Pure.pure a : Parser α) cs a cs where
  spells h := h
  runs := by
    intro ts front back h hfront hback
    rw [List.map_eq_nil_iff.mp hfront]
    rfl

theorem bind (hp : Reads used p cs a mid) (hk : Reads more (k a) mid b rest) :
    Reads (used ++ more) (p >>= k) cs b rest where
  spells h := by
    rw [List.append_assoc]
    exact hp.spells (hk.spells h)
  runs := by
    intro ts front back h hfront hback
    obtain ⟨first, second, rfl, hfirst, hsecond⟩ := List.map_eq_append_iff.mp hfront
    have hbehind : (second ++ back).map (·.token) = more ++ ts := by
      rw [List.map_append, hsecond, hback]
    have hrun := hp.runs (hk.spells h) hfirst hbehind
    rw [List.append_assoc]
    show (p (first ++ (second ++ back)) >>= fun x => k x.1 x.2) = _
    rw [hrun]
    exact hk.runs h hsecond hback

theorem map (f : α → β) (hp : Reads used p cs a rest) : Reads used (f <$> p) cs (f a) rest where
  spells := hp.spells
  runs := by
    intro ts front back h hfront hback
    show (p (front ++ back) >>= fun x => Except.ok (f x.1, x.2)) = _
    rw [hp.runs h hfront hback]
    rfl

theorem gap {c : Char} (hc : isGap c = true) (h : Reads used p cs a rest) :
    Reads used p (c :: cs) a rest where
  spells hrest := .gap hc (h.spells hrest)
  runs := h.runs

/-- Reading one token. -/
theorem one (ht : Starts t cs rest)
    (hp : ∀ {l : Located} {r : List Located}, l.token = t → p (l :: r) = .ok (a, r)) :
    Reads [t] p cs a rest where
  spells := ht
  runs := by
    intro ts front back h hfront hback
    obtain ⟨l, rfl, hl⟩ := List.map_eq_singleton_iff.mp hfront
    exact hp hl

theorem expect (ht : Starts t cs rest) : Reads [t] (Parser.expect t) cs () rest :=
  one ht fun hl => by
    rw [Parser.expect, if_pos hl]

theorem mark {c : Char} (hc : Token.isPunctuator c = true) (cs : List Char) :
    Reads [.punctuator c] (Parser.mark c) (c :: cs) () cs :=
  expect (starts_mark hc cs)

theorem skip (ht : Starts t cs rest) : Reads [t] Parser.skip cs () rest :=
  one ht fun _ => rfl

theorem name {s : String} (hs : IsName s) (hcs : Bounded cs) :
    Reads [.name s] Parser.name (s.toList ++ cs) s cs :=
  one (starts_word (.name hs) hcs) fun {l} {r} hl => by
    obtain ⟨q, token⟩ := l
    obtain rfl : token = .name s := hl
    rfl

theorem string (s : String) (hcs : Bounded cs) :
    Reads [.string s] Parser.string? ((Quoted.quote s).toList ++ cs) (some s) cs :=
  one (starts_word (.string s) hcs) fun {l} {r} hl => by
    obtain ⟨q, token⟩ := l
    obtain rfl : token = .string s := hl
    rfl

theorem accept (ht : Starts t cs rest) : Reads [t] (Parser.accept t) cs true rest :=
  one ht fun hl => by
    rw [Parser.accept, if_pos hl]

theorem not_accept (h : lead cs ≠ t.lead) : Reads [] (Parser.accept t) cs false cs where
  spells hcs := hcs
  runs := by
    intro ts front back hcs hfront hback
    rw [List.map_eq_nil_iff.mp hfront, List.nil_append]
    cases back with
    | nil => rfl
    | cons l r =>
      have hne : l.token ≠ t := by
        intro hl
        rw [hcs.lead_eq, ← hback, ← hl] at h
        exact h rfl
      rw [Parser.accept, if_neg hne]

/-- What looks at the next token knows it. -/
theorem peek {k : Option Token → Parser β} (h : Reads (t :: used) (k (some t)) cs b rest) :
    Reads (t :: used) (Parser.peek >>= k) cs b rest where
  spells := h.spells
  runs := by
    intro ts front back hrest hfront hback
    obtain ⟨l, r, rfl, hl, hr⟩ := List.map_eq_cons_iff.mp hfront
    rw [← h.runs hrest hfront hback, ← hl]
    rfl

/-- Before a name there is no string to read. -/
theorem no_string {k : Option String → Parser β} (ht : Parser.isName t = true)
    (h : Reads (t :: used) (k none) cs b rest) :
    Reads (t :: used) (Parser.string? >>= k) cs b rest where
  spells := h.spells
  runs := by
    intro ts front back hrest hfront hback
    obtain ⟨⟨q, token⟩, r, rfl, hl, hr⟩ := List.map_eq_cons_iff.mp hfront
    obtain rfl : token = t := hl
    rw [← h.runs hrest hfront hback]
    cases token with
    | string s => exact absurd ht Bool.false_ne_true
    | _ => rfl

end Reads

/-- The parser `p`, given enough fuel, reads a text as `a` whatever of a kind stands behind it. The
first token of the text is of a kind as well. -/
def Legible {α : Type} (first : Token → Bool) (p : Nat → Parser α) (text : List Char) (a : α)
    (follow : List Char → Prop) : Prop :=
  ∃ t used, first t = true ∧ ∀ {n : Nat} {rest : List Char}, used.length < n → follow rest →
    Reads (t :: used) (p n) (text ++ rest) a rest

theorem legible_of_succ {α : Type} {first : Token → Bool} {p : Nat → Parser α} {text : List Char}
    {a : α} {follow : List Char → Prop} (t : Token) (used : List Token) (ht : first t = true)
    (h : ∀ {k : Nat} {rest : List Char}, used.length ≤ k → follow rest →
      Reads (t :: used) (p (k + 1)) (text ++ rest) a rest) : Legible first p text a follow := by
  refine ⟨t, used, ht, fun {n rest} hn hrest => ?_⟩
  cases n with
  | zero => exact absurd hn (Nat.not_lt_zero _)
  | succ k => exact h (Nat.le_of_lt_succ hn) hrest

/-- No text of a kind starts with a token that `first` holds of. -/
def Stops (first : Token → Bool) (cs : List Char) : Prop :=
  ∀ {ts : List Token}, Spells cs ts → ∀ t ∈ ts.head?, first t = false

theorem stops_mark {first : Token → Bool} {c : Char} (hc : Token.isPunctuator c = true)
    (hfirst : first (.punctuator c) = false) {cs : List Char} (hlead : lead cs = [c]) :
    Stops first cs := by
  intro ts h t ht
  rw [h.head_mark hlead hc] at ht
  exact Option.some.inj ht ▸ hfirst

theorem stops_of_lead_ne {c : Char} {cs : List Char} (h : lead cs ≠ [c]) :
    Stops (· == .punctuator c) cs := by
  intro ts hcs t ht
  rw [hcs.lead_eq, ht] at h
  have hne : t ≠ .punctuator c := by
    rintro rfl
    exact h rfl
  simpa using hne

theorem stops_nil {first : Token → Bool} {cs : List Char} (h : lead cs = []) :
    Stops first cs := by
  intro ts hcs t ht
  rw [hcs.eq_nil h] at ht
  exact absurd ht (by simp)

namespace Legible

variable {α : Type} {first : Token → Bool} {p : Nat → Parser α} {text : List Char} {a : α}
  {follow : List Char → Prop}

theorem gap {blanks : List Char} (hblanks : ∀ c ∈ blanks, isGap c = true)
    (h : Legible first p text a follow) : Legible first p (blanks ++ text) a follow := by
  obtain ⟨t, used, ht, hreads⟩ := h
  refine ⟨t, used, ht, fun {n rest} hn hrest => ?_⟩
  induction blanks with
  | nil => exact hreads hn hrest
  | cons c blanks ih =>
    exact .gap (hblanks c (by simp)) (ih fun x hx => hblanks x (by simp [hx]))

/-- The tokens that are left are fuel enough. -/
theorem fueled (h : Legible first p text a follow) :
    Legible first (fun _ ts => p (ts.length + 1) ts) text a follow := by
  obtain ⟨t, used, ht, hreads⟩ := h
  refine ⟨t, used, ht, fun {n rest} _ hrest => ⟨?_, ?_⟩⟩
  · exact (hreads (Nat.lt_succ_self _) hrest).spells
  · intro ts front back hback hfront hts
    have hlength : used.length < (front ++ back).length + 1 := by
      have h := congrArg List.length hfront
      rw [List.length_map, List.length_cons] at h
      rw [List.length_append]
      omega
    exact (hreads hlength hrest).runs hback hfront hts

end Legible

theorem intercalate_cons {α : Type} (blanks x : List α) (xs : List (List α)) :
    blanks.intercalate (x :: xs) = x ++ xs.flatMap fun y => blanks ++ y := by
  induction xs generalizing x with
  | nil => simp
  | cons y ys ih =>
    rw [List.intercalate_cons_cons, ih, List.flatMap_cons, List.append_assoc, List.append_assoc]

section Separated

variable {α : Type} (write : α → List Char) (x : α) (xs : List α) (rest : List Char)

/-- Items with a comma and a blank before each. -/
def further : List Char := xs.flatMap (fun y => [',', ' '] ++ write y) ++ rest

theorem further_cons : further write (x :: xs) rest =
    ',' :: ' ' :: (write x ++ further write xs rest) := by
  simp [further]

theorem separated_cons : [',', ' '].intercalate ((x :: xs).map write) ++ rest =
    write x ++ further write xs rest := by
  rw [List.map_cons, intercalate_cons, List.flatMap_map, List.append_assoc]
  rfl

variable {rest}

theorem bounded_further (hrest : Bounded rest) : Bounded (further write xs rest) := by
  cases xs with
  | nil => exact hrest
  | cons x xs => exact bounded_cons rfl _

end Separated

section Lists

variable {α β : Type} {first : Token → Bool} {item : Nat → Parser β} {write : α → List Char}
  {read : α → β} {follow : List Char → Prop} {blanks : List Char} {xs : List α}

theorem follow_flatMap (hfollow : ∀ x ∈ xs, ∀ cs, follow cs → follow (write x ++ cs))
    {rest : List Char} (hrest : follow rest) : follow (xs.flatMap write ++ rest) := by
  induction xs with
  | nil => exact hrest
  | cons x xs ih =>
    rw [List.flatMap_cons, List.append_assoc]
    exact hfollow x (by simp) _ (ih fun y hy => hfollow y (by simp [hy]))

theorem reads_manyWithin_nil {p : Parser β} {rest : List Char} (hstop : Stops first rest)
    (n : Nat) : Reads [] (Parser.manyWithin first p n) rest [] rest where
  spells h := h
  runs := by
    intro ts front back h hfront hback
    rw [List.map_eq_nil_iff.mp hfront, List.nil_append]
    cases n with
    | zero => rfl
    | succ n =>
      cases back with
      | nil => rfl
      | cons l r =>
        have hl := hstop h l.token (by rw [← hback]; rfl)
        show (if first l.token = true then _ else Pure.pure [] : Parser (List β)) (l :: r) = _
        rw [hl]
        rfl

theorem reads_manyWithin_cons {p : Parser β} {t : Token} {used more : List Token}
    {cs mid rest : List Char} {y : β} {ys : List β} {n : Nat} (ht : first t = true)
    (hy : Reads (t :: used) p cs y mid)
    (hys : Reads more (Parser.manyWithin first p n) mid ys rest) :
    Reads (t :: (used ++ (more ++ []))) (Parser.manyWithin first p (n + 1)) cs (y :: ys) rest := by
  refine .peek ?_
  show Reads _ (if first t = true then _ else Pure.pure [] : Parser (List β)) _ _ _
  rw [if_pos ht]
  exact hy.bind (hys.bind (.pure _ rest))

/-- Items are read one after another, up to a text that starts no more of them. -/
theorem reads_manyWithin (hitem : ∀ x ∈ xs, Legible first item (write x) (read x) follow)
    (hfollow : ∀ x ∈ xs, ∀ cs, follow cs → follow (write x ++ cs)) :
    ∃ used, xs.length ≤ used.length ∧ ∀ {k n : Nat} {rest : List Char}, used.length ≤ k →
      xs.length ≤ n → follow rest → Stops first rest →
        Reads used (Parser.manyWithin first (item k) n) (xs.flatMap write ++ rest) (xs.map read)
          rest := by
  -- An item takes a token at least, so the fuel that the tokens give is enough for the count.
  induction xs with
  | nil => exact ⟨[], Nat.le_refl _, fun _ _ _ hstop => reads_manyWithin_nil hstop _⟩
  | cons x xs ih =>
    obtain ⟨t, used, ht, hx⟩ := hitem x (by simp)
    have hrestFollow : ∀ y ∈ xs, ∀ cs, follow cs → follow (write y ++ cs) :=
      fun y hy => hfollow y (by simp [hy])
    obtain ⟨more, hlength, hxs⟩ := ih (fun y hy => hitem y (by simp [hy])) hrestFollow
    refine ⟨t :: (used ++ (more ++ [])), by simp; omega, fun {k n rest} hk hn hrest hstop => ?_⟩
    simp only [List.length_append, List.length_cons, List.length_nil] at hk hn
    have hbehind := follow_flatMap hrestFollow hrest
    cases n with
    | zero => omega
    | succ n =>
      rw [List.flatMap_cons, List.append_assoc, List.map_cons]
      exact reads_manyWithin_cons ht (hx (by omega) hbehind)
        (hxs (by omega) (by omega) hrest hstop)

/-- The tokens that are left are count enough, as each item takes one at least. -/
theorem reads_many {p : Parser β} {used : List Token} {cs rest : List Char} {ys : List β}
    (h : ∀ {n : Nat}, used.length ≤ n → Reads used (Parser.manyWithin first p n) cs ys rest) :
    Reads used (Parser.many first p) cs ys rest where
  spells := (h (Nat.le_refl _)).spells
  runs := by
    intro ts front back hback hfront hts
    have hlength : used.length ≤ (front ++ back).length := by
      have hcount := congrArg List.length hfront
      rw [List.length_map] at hcount
      rw [List.length_append]
      omega
    exact (h hlength).runs hback hfront hts

theorem reads_many_flatMap (hitem : ∀ x ∈ xs, Legible first item (write x) (read x) follow)
    (hfollow : ∀ x ∈ xs, ∀ cs, follow cs → follow (write x ++ cs)) :
    ∃ used, ∀ {k : Nat} {rest : List Char}, used.length ≤ k → follow rest → Stops first rest →
      Reads used (Parser.many first (item k)) (xs.flatMap write ++ rest) (xs.map read) rest := by
  obtain ⟨used, hlength, hreads⟩ := reads_manyWithin hitem hfollow
  exact ⟨used, fun hk hrest hstop =>
    reads_many fun hn => hreads hk (Nat.le_trans hlength hn) hrest hstop⟩

/-- Items with blanks between them are read one after another. -/
theorem reads_many_intercalate (hblanks : ∀ c ∈ blanks, isGap c = true)
    (hitem : ∀ x ∈ xs, Legible first item (write x) (read x) follow)
    (hfollow : ∀ x ∈ xs, ∀ cs, follow cs → follow (blanks ++ write x ++ cs)) :
    ∃ used, ∀ {k : Nat} {rest : List Char}, used.length ≤ k → follow rest → Stops first rest →
      Reads used (Parser.many first (item k)) (blanks.intercalate (xs.map write) ++ rest)
        (xs.map read) rest := by
  cases xs with
  | nil => exact ⟨[], fun _ _ hstop => reads_many fun _ => reads_manyWithin_nil hstop _⟩
  | cons x xs =>
    obtain ⟨t, used, ht, hx⟩ := hitem x (by simp)
    have hrestFollow : ∀ y ∈ xs, ∀ cs, follow cs → follow (blanks ++ write y ++ cs) :=
      fun y hy => hfollow y (by simp [hy])
    obtain ⟨more, hlength, hxs⟩ := reads_manyWithin
      (fun y hy => (hitem y (by simp [hy])).gap hblanks) hrestFollow
    refine ⟨t :: (used ++ (more ++ [])), fun {k rest} hk hrest hstop => reads_many ?_⟩
    intro n hn
    simp only [List.length_append, List.length_cons, List.length_nil] at hk hn
    have hbehind := follow_flatMap hrestFollow hrest
    cases n with
    | zero => omega
    | succ n =>
      rw [List.map_cons, intercalate_cons, List.flatMap_map, List.append_assoc, List.map_cons]
      exact reads_manyWithin_cons ht (hx (by omega) hbehind)
        (hxs (by omega) (by omega) hrest hstop)

/-- One item and more of them, each behind some blanks. -/
theorem legible_oneOrMore (hblanks : ∀ c ∈ blanks, isGap c = true) {x : α}
    (hitem : ∀ y ∈ x :: xs, Legible first item (write y) (read y) follow)
    (hfollow : ∀ y ∈ xs, ∀ cs, follow cs → follow (blanks ++ write y ++ cs)) :
    Legible first (fun k => Parser.oneOrMore first (item k))
      (blanks.intercalate ((x :: xs).map write)) ((x :: xs).map read)
      fun cs => follow cs ∧ Stops first cs := by
  obtain ⟨t, used, ht, hx⟩ := hitem x (by simp)
  obtain ⟨more, hxs⟩ :=
    reads_many_flatMap (fun y hy => (hitem y (by simp [hy])).gap hblanks) hfollow
  refine ⟨t, used ++ (more ++ []), ht, fun {n rest} hn hrest => ?_⟩
  simp only [List.length_append] at hn
  have hhead := hx (n := n) (by omega) (follow_flatMap hfollow hrest.1)
  have htail := hxs (k := n) (by omega) hrest.1 hrest.2
  rw [List.map_cons, intercalate_cons, List.flatMap_map, List.append_assoc]
  unfold Parser.oneOrMore
  exact hhead.bind (htail.bind (.pure _ rest))

end Lists

namespace Reads

variable {β : Type} {used : List Token} {inner : Parser (List β)} {cs mid rest : List Char}
  {xs : List β} {opening closing : Char}

theorem between (hopening : Token.isPunctuator opening = true)
    (hinner : Reads used inner cs xs mid)
    (hclosing : Reads [.punctuator closing] (Parser.mark closing) mid () rest) :
    Reads (Token.punctuator opening :: (used ++ [Token.punctuator closing]))
      (Parser.between opening closing inner) (opening :: cs) xs rest := by
  unfold Parser.between
  refine (Reads.accept (starts_mark hopening cs)).bind ?_
  exact hinner.bind (hclosing.bind (.pure xs rest))

theorem not_between (h : lead cs ≠ [opening]) :
    Reads [] (Parser.between opening closing inner) cs [] cs :=
  (Reads.not_accept h).bind (.pure [] cs)

end Reads

theorem lead_separated {c : Char} {x : String} (hx : IsName x) (xs : List String)
    {rest : List Char} (hrest : Bounded rest) :
    lead ([' ', c, ' '].intercalate ((x :: xs).map String.toList) ++ rest) = x.toList := by
  have hbehind : ∀ y ∈ xs, ∀ cs, Bounded cs → Bounded ([' ', c, ' '] ++ y.toList ++ cs) :=
    fun _ _ _ _ => bounded_cons rfl _
  rw [List.map_cons, intercalate_cons, List.flatMap_map, List.append_assoc]
  exact lead_name hx (follow_flatMap hbehind hrest)

/-- Names with a mark between them. -/
theorem legible_separated {c : Char} (hc : Token.isPunctuator c = true) {x : String}
    {xs : List String} (hxs : ∀ y ∈ x :: xs, IsName y) :
    Legible Parser.isName (fun _ => Parser.separated c Parser.name)
      ([' ', c, ' '].intercalate ((x :: xs).map String.toList)) (x :: xs)
      (Avoids [String.singleton c]) := by
  have hitem : ∀ y ∈ xs, Legible (· == .punctuator c)
      (fun _ => do Parser.mark c; Parser.name) ([' ', c, ' '] ++ y.toList) y Bounded := by
    intro y hy
    refine ⟨.punctuator c, [Token.name y], by simp, fun {n rest} _ hrest => ?_⟩
    exact .gap rfl ((Reads.mark hc _).bind (.gap rfl (.name (hxs y (by simp [hy])) hrest)))
  have hbehind : ∀ y ∈ xs, ∀ cs, Bounded cs → Bounded ([' ', c, ' '] ++ y.toList ++ cs) :=
    fun _ _ _ _ => bounded_cons rfl _
  obtain ⟨more, hmore⟩ := reads_many_flatMap (β := String) hitem hbehind
  refine ⟨.name x, more ++ [], rfl, fun {n rest} _ hrest => ?_⟩
  have hhead := Reads.name (hxs x (by simp)) (follow_flatMap hbehind hrest.1)
  have hstop : lead rest ≠ [c] := by simpa using hrest.2
  have htail := hmore (Nat.le_refl _) hrest.1 (stops_of_lead_ne hstop)
  rw [List.map_id'] at htail
  rw [List.map_cons, intercalate_cons, List.flatMap_map, List.append_assoc]
  unfold Parser.separated
  exact hhead.bind (htail.bind (.pure _ rest))

end GraphSchema.Sdl
