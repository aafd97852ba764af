import GraphSchema.Proofs.Toml.Strings
import GraphSchema.Toml.Parser

/-!
# TOML keys and values are read back

A written key is read back up to the blanks behind it, and so are headers of one or two keys. Of
values these are strings, flags, and arrays of strings on one line or on several.
-/

namespace GraphSchema.Toml

namespace Reader

variable {α β : Type}

theorem bind_eq {x : Reader α} {cs r : List Char} {a : α} (h : x cs = some (a, r))
    (f : α → Reader β) : (x >>= f) cs = f a r := by
  show (x cs >>= fun p => f p.1 p.2) = f a r
  rw [h]
  rfl

/-- A text that does not start with a blank. -/
def Solid (cs : List Char) : Prop := ∀ c ∈ cs.head?, isSpace c = false

theorem solid_cons {c : Char} (hc : isSpace c = false) (cs : List Char) : Solid (c :: cs) := by
  simpa [Solid] using hc

theorem space_solid {cs : List Char} (h : Solid cs) : space cs = some ((), cs) := by
  cases cs with
  | nil => rfl
  | cons c cs =>
    have hc : isSpace c = false := h c rfl
    show some ((), List.dropWhile isSpace (c :: cs)) = _
    rw [List.dropWhile_cons_of_neg (by simp [hc])]

theorem accept_self (c : Char) (cs : List Char) : accept c (c :: cs) = some (true, cs) := by
  rw [accept, if_pos rfl]

theorem accept_ne {c : Char} {cs : List Char} (h : cs.head? ≠ some c) :
    accept c cs = some (false, cs) := by
  cases cs with
  | nil => rfl
  | cons d cs =>
    have hd : d ≠ c := by simpa using h
    rw [accept, if_neg hd]

theorem char_self (c : Char) (cs : List Char) : char c (c :: cs) = some ((), cs) := by
  rw [char, if_pos rfl]

/-- A key starts with a quote or with a character that needs none. -/
theorem quoteKey_head (k : String) :
    ∃ c r, (quoteKey k).toList = c :: r ∧ (isBare c = true ∨ c = '"' ∨ c = '\'') := by
  rw [quoteKey, String.toList_ofList]
  generalize k.toList = s
  unfold keyChars
  dsimp only
  split
  · next h =>
    obtain ⟨hne, hall⟩ := Bool.and_eq_true_iff.mp h
    cases s with
    | nil => exact absurd hne (by decide)
    | cons c s => exact ⟨c, s, rfl, .inl (List.all_eq_true.mp hall c (by simp))⟩
  split
  · exact ⟨'"', _, rfl, .inr (.inl rfl)⟩
  split
  · exact ⟨'\'', _, rfl, .inr (.inr rfl)⟩
  · exact ⟨'"', _, rfl, .inr (.inl rfl)⟩

theorem keyPart_bare {s rest : List Char} (hne : s ≠ []) (hall : ∀ c ∈ s, isBare c = true)
    (hrest : ∀ c ∈ rest.head?, isBare c = false) :
    keyPart (s ++ rest) = some (String.ofList s, rest) := by
  have hspan : (s ++ rest).span isBare = (s, rest) := Text.span_append hall hrest
  have hmark (c : Char) (hc : isBare c = false) (r : List Char) : s ++ rest ≠ c :: r := by
    intro heq
    obtain ⟨d, l, rfl⟩ := List.exists_cons_of_ne_nil hne
    have hd := hall d (by simp)
    rw [(List.cons.inj heq).1, hc] at hd
    exact absurd hd (by decide)
  rw [keyPart, hspan]
  · simpa using hne
  · exact hmark '"' (by decide)
  · exact hmark '\'' (by decide)

/-- Every key is read back from its written form, whichever kind that is. -/
theorem keyPart_quoteKey (k : String) {rest : List Char}
    (hrest : ∀ c ∈ rest.head?, isBare c = false) :
    keyPart ((quoteKey k).toList ++ rest) = some (k, rest) := by
  have hbasic (s : List Char) : keyPart (basic s ++ rest) = some (String.ofList s, rest) := by
    rw [basic_append, keyPart, scanBasic_basicChars]
    rfl
  suffices hchars : ∀ s, keyPart (keyChars s ++ rest) = some (String.ofList s, rest) by
    rw [quoteKey, String.toList_ofList, hchars, String.ofList_toList]
  intro s
  unfold keyChars
  dsimp only
  split
  · next h =>
    obtain ⟨hne, hall⟩ := Bool.and_eq_true_iff.mp h
    exact keyPart_bare (by simpa using hne) (List.all_eq_true.mp hall) hrest
  split
  · exact hbasic s
  split
  · next h =>
    simp only [Bool.and_eq_true, Bool.not_eq_true', List.contains_eq_mem,
      decide_eq_false_iff_not, List.any_eq_false, Bool.or_eq_true, decide_eq_true_eq] at h
    obtain ⟨hescapes, hquote⟩ := h
    have hplain : ∀ c ∈ s, isPlain c = true := by
      intro c hc
      have hneeds : s.any needsEscape = false :=
        List.any_eq_false.mpr fun x hx h => hescapes x hx (.inl h)
      exact (plain_of_not_needsEscape hneeds c hc).resolve_right fun h => hescapes c hc (.inr h)
    rw [literal_append, keyPart, scanLiteral_plain hplain hquote]
    rfl
  · exact hbasic s

theorem head?_quoteKey_ne (k : String) (cs : List Char) {c : Char}
    (hc : isBare c = false ∧ c ≠ '"' ∧ c ≠ '\'') :
    ((quoteKey k).toList ++ cs).head? ≠ some c := by
  obtain ⟨d, r, hchars, hd⟩ := quoteKey_head k
  rw [hchars, List.cons_append, List.head?_cons]
  intro h
  obtain rfl := Option.some.inj h
  obtain ⟨hbare, hdouble, hsingle⟩ := hc
  rcases hd with hd | hd | hd
  · exact absurd (hbare.symm.trans hd) (by decide)
  · exact hdouble hd
  · exact hsingle hd

theorem solid_quoteKey (k : String) (cs : List Char) : Solid ((quoteKey k).toList ++ cs) := by
  intro c hc
  cases hspace : isSpace c with
  | false => rfl
  | true =>
    simp only [isSpace, Bool.or_eq_true, decide_eq_true_eq] at hspace
    rcases hspace with rfl | rfl
    · exact absurd hc (head?_quoteKey_ne k cs (by decide))
    · exact absurd hc (head?_quoteKey_ne k cs (by decide))

/-- What may stand behind a key, apart from blanks: no dot, which would go on with the key. -/
def EndsKey (cs : List Char) : Prop :=
  (∀ c ∈ cs.head?, isBare c = false) ∧ (cs.dropWhile isSpace).head? ≠ some '.'

theorem keyParts_end {cs : List Char} (h : EndsKey cs) {n : Nat} (hn : cs.length ≤ n) :
    keyParts n cs = some ([], cs.dropWhile isSpace) := by
  cases n with
  | zero =>
    obtain rfl := List.length_eq_zero_iff.mp (Nat.le_zero.mp hn)
    rfl
  | succ n =>
    rw [keyParts, bind_eq (show space cs = some ((), _) from rfl), bind_eq (accept_ne h.2)]
    rfl

theorem key_single (k : String) {rest : List Char} (hrest : EndsKey rest) :
    key ((quoteKey k).toList ++ rest) = some (([], k), rest.dropWhile isSpace) := by
  have hmore : keyParts rest.length rest = some ([], rest.dropWhile isSpace) :=
    keyParts_end hrest (Nat.le_refl _)
  rw [key, bind_eq (keyPart_quoteKey k hrest.1),
    bind_eq (x := fun cs => keyParts cs.length cs) hmore]
  rfl

/-- A key with a dot leads through the table of its first part. -/
theorem key_pair (k l : String) {rest : List Char} (hrest : EndsKey rest) :
    key ((quoteKey k).toList ++ '.' :: ((quoteKey l).toList ++ rest)) =
      some (([k], l), rest.dropWhile isSpace) := by
  have hdot : ∀ c ∈ ('.' :: ((quoteKey l).toList ++ rest)).head?, isBare c = false := by
    simp [isBare]
  have hparts : ∀ n, rest.length ≤ n →
      keyParts (n + 1) ('.' :: ((quoteKey l).toList ++ rest)) =
        some ([l], rest.dropWhile isSpace) := by
    intro n hn
    rw [keyParts, bind_eq (space_solid (solid_cons rfl _)), bind_eq (accept_self '.' _), if_pos rfl,
      bind_eq (space_solid (solid_quoteKey l rest)), bind_eq (keyPart_quoteKey l hrest.1),
      bind_eq (keyParts_end hrest hn)]
    rfl
  have hmore : keyParts ('.' :: ((quoteKey l).toList ++ rest)).length
      ('.' :: ((quoteKey l).toList ++ rest)) = some ([l], rest.dropWhile isSpace) :=
    hparts _ (by simp)
  rw [key, bind_eq (keyPart_quoteKey k hdot),
    bind_eq (x := fun cs => keyParts cs.length cs) hmore]
  rfl

theorem endsKey_bracket (cs : List Char) : EndsKey (']' :: cs) := by
  simp [EndsKey, isBare, isSpace]

theorem header_key {cs rest : List Char} {path : List String} {last : String}
    (hsolid : Solid cs) (hcs : cs.head? ≠ some '[')
    (hkey : key cs = some ((path, last), ']' :: rest)) :
    header ('[' :: cs) = some ((false, path, last), rest) := by
  rw [header, bind_eq (char_self '[' _), bind_eq (accept_ne hcs), bind_eq (space_solid hsolid),
    bind_eq hkey]
  show (space >>= _) _ = _
  rw [bind_eq (space_solid (solid_cons rfl _)), bind_eq (char_self ']' rest)]
  rfl

theorem header_single (k : String) (rest : List Char) :
    header ('[' :: ((quoteKey k).toList ++ ']' :: rest)) = some ((false, [], k), rest) :=
  header_key (solid_quoteKey k _) (head?_quoteKey_ne k _ (by decide))
    (key_single k (endsKey_bracket rest))

theorem header_pair (k l : String) (rest : List Char) :
    header ('[' :: ((quoteKey k).toList ++ '.' :: (quoteKey l).toList ++ ']' :: rest)) =
      some ((false, [k], l), rest) := by
  rw [List.append_assoc, List.cons_append]
  exact header_key (solid_quoteKey k _) (head?_quoteKey_ne k _ (by decide))
    (key_pair k l (endsKey_bracket rest))

theorem blankLines_solid {cs r : List Char} (hcs : cs.dropWhile isSpace = r)
    (hr : r.head? ≠ some '#' ∧ r.head? ≠ some '\n' ∧ r.head? ≠ some '\r') (n : Nat) :
    blankLines (n + 1) cs = some ((), r) := by
  have hspace : space cs = some ((), r) := by rw [← hcs]; rfl
  rw [blankLines, bind_eq hspace, bind_eq (show peek r = some (r.head?, r) from rfl)]
  refine congrFun (g := (pure () : Reader Unit)) ?_ r
  split
  · next h => exact absurd h hr.1
  · next h => exact absurd h hr.2.1
  · next h => exact absurd h hr.2.2
  · rfl

theorem blanks_solid {cs : List Char} (hsolid : Solid cs)
    (hcs : cs.head? ≠ some '#' ∧ cs.head? ≠ some '\n' ∧ cs.head? ≠ some '\r') :
    blanks cs = some ((), cs) := by
  have hspace := (Prod.mk.inj (Option.some.inj (space_solid hsolid))).2
  exact blankLines_solid hspace hcs cs.length

/-- A line end is passed with the blanks of the next line. -/
theorem blanks_feed {cs r : List Char} (hcs : cs.dropWhile isSpace = r)
    (hr : r.head? ≠ some '#' ∧ r.head? ≠ some '\n' ∧ r.head? ≠ some '\r') :
    blanks ('\n' :: cs) = some ((), r) := by
  show blankLines (cs.length + 1 + 1) ('\n' :: cs) = _
  rw [blankLines, bind_eq (space_solid (solid_cons rfl _)),
    bind_eq (show peek ('\n' :: cs) = some (some '\n', '\n' :: cs) from rfl)]
  show (lineEnd >>= fun _ => blankLines (cs.length + 1)) ('\n' :: cs) = _
  rw [bind_eq (show lineEnd ('\n' :: cs) = some ((), cs) from rfl)]
  exact blankLines_solid hcs hr cs.length

/-- A string starts with a quote of its kind. -/
theorem quote_head (s : String) :
    ∃ c r, (quote s).toList = c :: r ∧ (c = '"' ∨ c = '\'') := by
  rw [quote, String.toList_ofList]
  generalize s.toList = s
  unfold quoteChars
  dsimp only
  split
  · exact ⟨'"', _, rfl, .inl rfl⟩
  split
  · exact ⟨'\'', _, rfl, .inr rfl⟩
  split
  · exact ⟨'"', _, rfl, .inl rfl⟩
  split
  · exact ⟨'\'', _, rfl, .inr rfl⟩
  split
  · exact ⟨'"', _, rfl, .inl rfl⟩
  · exact ⟨'"', _, rfl, .inl rfl⟩

theorem head?_quote_ne (s : String) (cs : List Char) {c : Char} (hc : c ≠ '"' ∧ c ≠ '\'') :
    ((quote s).toList ++ cs).head? ≠ some c := by
  obtain ⟨d, r, hchars, hd⟩ := quote_head s
  rw [hchars, List.cons_append, List.head?_cons]
  intro h
  obtain rfl := Option.some.inj h
  exact hd.elim hc.1 hc.2

theorem solid_quote (s : String) (cs : List Char) : Solid ((quote s).toList ++ cs) := by
  obtain ⟨c, r, hchars, hc⟩ := quote_head s
  intro x hx
  rw [hchars] at hx
  obtain rfl := Option.some.inj hx
  rcases hc with rfl | rfl <;> rfl

theorem valueWithin_quote (depth : Nat) (s : String) {rest : List Char} (hrest : EndsString rest) :
    valueWithin depth ((quote s).toList ++ rest) = some (.string s, rest) := by
  have hscalar : scalar ((quote s).toList ++ rest) = some (.string s, rest) := by
    rw [scalar, scanString_quote s hrest]
    simp only [String.ofList_toList]
  cases depth with
  | zero => exact hscalar
  | succ depth =>
    rw [valueWithin, bind_eq (show peek ((quote s).toList ++ rest) = some (_, _) from rfl)]
    refine (congrFun (g := scalar) ?_ _).trans hscalar
    split
    · next h => exact absurd h (head?_quote_ne s rest (by decide))
    · next h => exact absurd h (head?_quote_ne s rest (by decide))
    · rfl

theorem valueWithin_flag (b : Bool) (rest : List Char) :
    valueWithin limit ((if b then "true" else "false").toList ++ '\n' :: rest) =
      some (.boolean b, '\n' :: rest) := by
  cases b
  · rfl
  · rfl

/-- A mark that ends a string is passed over by no blank. -/
theorem blanks_mark {c : Char} (hc : c = ',' ∨ c = ']') (cs : List Char) :
    blanks (c :: cs) = some ((), c :: cs) := by
  rcases hc with rfl | rfl <;> exact blanks_solid (solid_cons rfl _) (by simp)

theorem endsString_mark {c : Char} (hc : c = ',' ∨ c = ']' ∨ c = '\n') (cs : List Char) :
    EndsString (c :: cs) := by
  rcases hc with rfl | rfl | rfl <;> simp [EndsString]

theorem length_le_lines {f : String → List Char} (hf : ∀ s, f s ≠ []) (ss : List String) :
    ss.length ≤ (ss.flatMap f).length := by
  induction ss with
  | nil => exact Nat.le_refl 0
  | cons s ss ih =>
    have hpos := List.length_pos_iff.mpr (hf s)
    rw [List.flatMap_cons, List.length_append, List.length_cons]
    omega

/-- The items of an array that stand on lines of their own. -/
theorem items_lines (depth : Nat) (ss : List String) (rest : List Char) {n : Nat}
    (hn : ss.length < n) :
    items (valueWithin depth) n
        ('\n' :: (ss.flatMap (fun s => "    ".toList ++ (quote s).toList ++ [',', '\n']) ++
          ']' :: rest)) =
      some (ss.map .string, rest) := by
  induction ss generalizing n with
  | nil =>
    obtain ⟨n, rfl⟩ := Nat.exists_eq_succ_of_ne_zero (by omega : n ≠ 0)
    rw [items, bind_eq (blanks_feed (r := ']' :: rest) rfl (by simp)),
      bind_eq (accept_self ']' rest)]
    rfl
  | cons s ss ih =>
    obtain ⟨n, rfl⟩ := Nat.exists_eq_succ_of_ne_zero (by omega : n ≠ 0)
    have hmore := ih (n := n) (by simpa using hn)
    generalize hbehind : ss.flatMap (fun s => "    ".toList ++ (quote s).toList ++ [',', '\n']) ++
      ']' :: rest = behind at hmore
    have htext : (s :: ss).flatMap (fun s => "    ".toList ++ (quote s).toList ++ [',', '\n']) ++
        ']' :: rest = "    ".toList ++ ((quote s).toList ++ ',' :: '\n' :: behind) := by
      rw [← hbehind]
      simp
    have hdrop : ("    ".toList ++ ((quote s).toList ++ ',' :: '\n' :: behind)).dropWhile isSpace =
        (quote s).toList ++ ',' :: '\n' :: behind := by
      have hsolid := space_solid (solid_quote s (',' :: '\n' :: behind))
      rw [List.dropWhile_append_of_pos (by simp [isSpace])]
      exact (Prod.mk.inj (Option.some.inj hsolid)).2
    have hhead : ∀ {c : Char}, c ≠ '"' ∧ c ≠ '\'' →
        ((quote s).toList ++ ',' :: '\n' :: behind).head? ≠ some c := head?_quote_ne s _
    rw [htext, items, bind_eq (blanks_feed hdrop ⟨hhead (by decide), hhead (by decide),
      hhead (by decide)⟩), bind_eq (accept_ne (hhead (by decide)))]
    show (valueWithin depth >>= _) _ = _
    rw [bind_eq (valueWithin_quote depth s (endsString_mark (.inl rfl) _)),
      bind_eq (blanks_mark (.inl rfl) _), bind_eq (accept_self ',' _)]
    show (items (valueWithin depth) n >>= _) _ = _
    rw [bind_eq hmore]
    rfl

theorem valueWithin_array {depth : Nat} {cs rest : List Char} {vs : List Value}
    (h : items (valueWithin depth) (cs.length + 1) cs = some (vs, rest)) :
    valueWithin (depth + 1) ('[' :: cs) = some (.array vs, rest) := by
  rw [valueWithin, bind_eq (show peek ('[' :: cs) = some (some '[', _) from rfl)]
  show (char '[' >>= _) _ = _
  rw [bind_eq (char_self '[' cs),
    bind_eq (x := fun cs => items (valueWithin depth) (cs.length + 1) cs) h]
  rfl

/-- An array of strings is read back, on however many lines it stands. -/
theorem valueWithin_quoteAll (depth : Nat) (ss : List String) (rest : List Char) :
    valueWithin (depth + 1) ((quoteAll ss).toList ++ rest) =
      some (.array (ss.map .string), rest) := by
  unfold quoteAll
  split
  · show valueWithin (depth + 1) ('[' :: ']' :: rest) = _
    refine valueWithin_array ?_
    rw [items, bind_eq (blanks_mark (.inr rfl) rest), bind_eq (accept_self ']' rest)]
    rfl
  · next s =>
    have htext : ("[" ++ quote s ++ "]").toList ++ rest =
        '[' :: ((quote s).toList ++ ']' :: rest) := by
      simp
    have hhead : ∀ {c : Char}, c ≠ '"' ∧ c ≠ '\'' →
        ((quote s).toList ++ ']' :: rest).head? ≠ some c := head?_quote_ne s _
    rw [htext]
    refine valueWithin_array ?_
    rw [items, bind_eq (blanks_solid (solid_quote s _) ⟨hhead (by decide), hhead (by decide),
      hhead (by decide)⟩), bind_eq (accept_ne (hhead (by decide)))]
    show (valueWithin depth >>= _) _ = _
    rw [bind_eq (valueWithin_quote depth s (endsString_mark (.inr (.inl rfl)) _)),
      bind_eq (blanks_mark (.inr rfl) _), bind_eq (accept_ne (by simp))]
    show (char ']' >>= _) _ = _
    rw [bind_eq (char_self ']' rest)]
    rfl
  · have htext :
        ("[\n" ++ String.join (ss.map fun s => "    " ++ quote s ++ ",\n") ++ "]").toList ++ rest =
          '[' :: '\n' :: (ss.flatMap (fun s => "    ".toList ++ (quote s).toList ++ [',', '\n']) ++
            ']' :: rest) := by
      simp [List.flatMap_map]
    have hlines := length_le_lines (f := fun s => "    ".toList ++ (quote s).toList ++ [',', '\n'])
      (fun s => by simp) ss
    rw [htext]
    refine valueWithin_array (items_lines depth ss rest ?_)
    rw [List.length_cons, List.length_append]
    omega

end Reader

end GraphSchema.Toml
