import GraphSchema.Proofs.Sdl.Values

/-!
# Values told by their texts

The text of a value tells where it ends and which value it is, but for the positive infinity, which
is written as the name `inf`. So two values have one text exactly if they are the same up to that.
-/

namespace GraphSchema

namespace Binary64

/-- Whether a number is the positive infinity. -/
def isTop (x : Binary64) : Bool := x.isInfinite && !x.negative

theorem render_of_isTop {x : Binary64} (hx : x.isTop = true) : x.render = "inf" := by
  rw [isTop, Bool.and_eq_true, Bool.not_eq_true'] at hx
  apply String.toList_injective
  rw [toList_render_infinite hx.1, hx.2]
  rfl

end Binary64

namespace Sdl

namespace Value

mutual

/-- The value with the name `inf` in place of the positive infinity. -/
def namingInfinity : Value → Value
  | float x => if x.isTop then enum "inf" else float x
  | list items => list (namingItems items)
  | object fields => object (namingFields fields)
  | var name => var name
  | int n => int n
  | string s => string s
  | boolean b => boolean b
  | null => null
  | enum name => enum name

/-- The items of a list with the name in place of the infinity. -/
def namingItems : List Value → List Value
  | [] => []
  | v :: r => namingInfinity v :: namingItems r

/-- The fields of an object with the name in place of the infinity. -/
def namingFields : List (String × Value) → List (String × Value)
  | [] => []
  | (k, v) :: r => (k, namingInfinity v) :: namingFields r

end

theorem namingItems_eq_map (items : List Value) : namingItems items = items.map namingInfinity := by
  induction items with
  | nil => rfl
  | cons v items ih => rw [namingItems, ih, List.map_cons]

theorem namingFields_eq_map (fields : List (String × Value)) :
    namingFields fields = fields.map fun f => (f.1, f.2.namingInfinity) := by
  induction fields with
  | nil => rfl
  | cons f fields ih => rw [namingFields, ih, List.map_cons]

mutual

/-- The tokens that the text of a value is made of. -/
def tokens : Value → List Token
  | var name => [.punctuator '$', .name name]
  | int n => [.int n]
  | float x => [if x.isTop then .name "inf" else .float x]
  | string s => [.string s]
  | boolean b => [.name (if b then "true" else "false")]
  | null => [.name "null"]
  | enum name => [.name name]
  | list items => .punctuator '[' :: (tokensOfItems items ++ [.punctuator ']'])
  | object fields => .punctuator '\x7b' :: (tokensOfFields fields ++ [.punctuator '\x7d'])

/-- The tokens of the items of a list. -/
def tokensOfItems : List Value → List Token
  | [] => []
  | v :: r => tokens v ++ tokensOfItems r

/-- The tokens of the fields of an object. -/
def tokensOfFields : List (String × Value) → List Token
  | [] => []
  | (k, v) :: r => .name k :: .punctuator ':' :: (tokens v ++ tokensOfFields r)

end

theorem tokensOfItems_eq (items : List Value) : tokensOfItems items = items.flatMap tokens := by
  induction items with
  | nil => rfl
  | cons v items ih => rw [tokensOfItems, ih, List.flatMap_cons]

/-- The tokens of one field of an object. -/
def fieldTokens (f : String × Value) : List Token := .name f.1 :: .punctuator ':' :: f.2.tokens

theorem tokensOfFields_eq (fields : List (String × Value)) :
    tokensOfFields fields = fields.flatMap fieldTokens := by
  induction fields with
  | nil => rfl
  | cons f fields ih =>
    rw [tokensOfFields, ih, List.flatMap_cons]
    rfl

/-- The names that are values of their own. -/
def reserved : List String := ["true", "false", "null"]

/-- A value that text can spell: names are names of the language, and an enum value has none that
is a value of its own. -/
inductive Spelled : Value → Prop
  | var {name : String} (hname : IsName name) : Spelled (.var name)
  | int (n : Int) : Spelled (.int n)
  | float (x : Binary64) : Spelled (.float x)
  | string (s : String) : Spelled (.string s)
  | boolean (b : Bool) : Spelled (.boolean b)
  | null : Spelled .null
  | enum {name : String} (hname : IsName name) (hfree : name ∉ reserved) : Spelled (.enum name)
  | list {items : List Value} (hitems : ∀ v ∈ items, Spelled v) : Spelled (.list items)
  | object {fields : List (String × Value)} (hnames : ∀ f ∈ fields, IsName f.1)
      (hvalues : ∀ f ∈ fields, Spelled f.2) : Spelled (.object fields)

end Value

/-- A token that its text tells: a name of the language, or a number that is written as one. -/
def Token.IsTelling : Token → Prop
  | name s => IsName s
  | int _ => True
  | float x => x.isTop = false
  | _ => False

theorem isNumeral_of_isTop {x : Binary64} (hx : x.isTop = false) : IsNumeral x.render.toList := by
  refine isNumeral_float fun hinfinite => ?_
  rw [Binary64.isTop, hinfinite, Bool.true_and] at hx
  simpa using hx

theorem name_ne_numeral {s : String} (hs : IsName s) {w : List Char} (hw : IsNumeral w) :
    s.toList ≠ w := by
  intro h
  obtain ⟨c, r, hcs, hc, -⟩ := hs
  obtain ⟨d, l, rfl, hd, -⟩ := hw
  obtain rfl := (List.cons.inj (hcs.symm.trans h)).1
  rcases hd with rfl | hd
  · exact absurd hc (by decide)
  · rw [Token.not_isNameStart_of_isDigit hd] at hc
    exact absurd hc (by decide)

/-- A float is not written with a sign and digits alone. -/
theorem int_ne_float (n : Int) (x : Binary64) : (toString n).toList ≠ x.render.toList := by
  intro h
  rw [Numeral.toList_int] at h
  have hdigits := Numeral.isDigits_digits n.natAbs
  have hsign := Numeral.head?_ne_sign hdigits []
  rw [List.append_nil] at hsign
  have hall := (Numeral.isDigits_iff.mp hdigits).2
  cases hx : x.isInfinite with
  | true =>
    rw [Binary64.toList_render_infinite hx] at h
    obtain ⟨-, htext⟩ := Numeral.signed_inj hsign (by decide) h
    exact absurd (hall 'i' (by simp [htext])) (by decide)
  | false =>
    obtain ⟨w, hw, hwtext, -, -⟩ := Binary64.render_formed hx
    rw [hwtext] at h
    obtain ⟨-, htext⟩ := Numeral.signed_inj hsign (Binary64.head?_ne_sign_text hw) h
    obtain ⟨c, r, hbehind, hc⟩ := hw.behind_cons
    rw [Numeral.Written.text_eq, hbehind] at htext
    rw [hall c (by simp [htext])] at hc
    exact absurd hc (by decide)

namespace Token

/-- No two of these tokens have the same text. -/
theorem IsTelling.lead_inj {t u : Token} (ht : t.IsTelling) (hu : u.IsTelling)
    (h : t.lead = u.lead) : t = u := by
  cases t with
  | name s =>
    cases u with
    | name s' => rw [String.toList_injective h]
    | int n => exact absurd h (name_ne_numeral ht (isNumeral_int n))
    | float x => exact absurd h (name_ne_numeral ht (isNumeral_of_isTop hu))
    | _ => exact False.elim hu
  | int n =>
    cases u with
    | name s => exact absurd h.symm (name_ne_numeral hu (isNumeral_int n))
    | int m => rw [Numeral.toString_int_injective (String.toList_injective h)]
    | float x => exact absurd h (int_ne_float n x)
    | _ => exact False.elim hu
  | float x =>
    cases u with
    | name s => exact absurd h.symm (name_ne_numeral hu (isNumeral_of_isTop ht))
    | int n => exact absurd h.symm (int_ne_float n x)
    | float y => rw [Binary64.render_injective (String.toList_injective h)]
    | _ => exact False.elim hu
  | _ => exact False.elim ht

theorem IsTelling.lead_cons {t : Token} (ht : t.IsTelling) :
    ∃ c r, t.lead = c :: r ∧ ∀ x ∈ c :: r, IsInert x := by
  have hnumeral {w : List Char} (hw : IsNumeral w) :
      ∃ c r, w = c :: r ∧ ∀ x ∈ c :: r, IsInert x := by
    have hall := hw.inert
    obtain ⟨c, r, rfl, -, -⟩ := hw
    exact ⟨c, r, rfl, hall⟩
  cases t with
  | name s =>
    have hall := IsName.inert ht
    obtain ⟨c, r, h, -, -⟩ := ht
    exact ⟨c, r, h, h ▸ hall⟩
  | int n => exact hnumeral (isNumeral_int n)
  | float x => exact hnumeral (isNumeral_of_isTop ht)
  | _ => exact False.elim ht

end Token

/-- A word without quotes is told by what goes on up to a delimiter. -/
theorem inert_append_inj {w v r s : List Char} (hw : ∀ c ∈ w, IsInert c)
    (hv : ∀ c ∈ v, IsInert c) (hr : Bounded r) (hs : Bounded s) (h : w ++ r = v ++ s) :
    w = v ∧ r = s :=
  Text.append_inj_of_run (p := fun c => !Numeral.isDelimiter c) (fun c hc => by simp [(hw c hc).1])
    (fun c hc => by simp [(hv c hc).1]) (fun c hc => by simp [hr c hc])
    (fun c hc => by simp [hs c hc]) h

theorem quote_append_inj {s t : String} {r r' : List Char}
    (h : (Quoted.quote s).toList ++ r = (Quoted.quote t).toList ++ r') : s = t ∧ r = r' := by
  rw [Quoted.quote_append, Quoted.quote_append] at h
  have hscan := Quoted.scan_quoted s.toList r
  rw [(List.cons.inj h).2, Quoted.scan_quoted] at hscan
  obtain ⟨htext, hrest⟩ := Prod.mk.inj (Option.some.inj hscan)
  exact ⟨String.toList_injective htext.symm, hrest.symm⟩

section Separated

variable {α β : Type} {write : α → List Char} {f : α → β} {Q : α → Prop} {closing : Char}
  {xs ys : List α} {r s : List Char}

/-- The text of an item tells the item, up to `f`, and what is behind it. -/
def Tells (write : α → List Char) (f : α → β) (Q : α → Prop) (x : α) : Prop :=
  ∀ ⦃y⦄, Q y → ∀ ⦃r s⦄, Bounded r → Bounded s → write x ++ r = write y ++ s → f x = f y ∧ r = s

theorem further_inj (hclosing : Numeral.isDelimiter closing = true) (hcomma : closing ≠ ',')
    (hxs : ∀ x ∈ xs, Tells write f Q x) (hys : ∀ y ∈ ys, Q y)
    (h : further write xs (closing :: r) = further write ys (closing :: s)) :
    xs.map f = ys.map f ∧ r = s := by
  induction xs generalizing ys with
  | nil =>
    cases ys with
    | nil => exact ⟨rfl, (List.cons.inj h).2⟩
    | cons y ys => exact absurd (List.cons.inj h).1 hcomma
  | cons x xs ih =>
    cases ys with
    | nil => exact absurd (List.cons.inj h).1.symm hcomma
    | cons y ys =>
      rw [further_cons, further_cons] at h
      obtain ⟨hx, hxs⟩ := List.forall_mem_cons.mp hxs
      obtain ⟨hy, hys⟩ := List.forall_mem_cons.mp hys
      obtain ⟨hitem, hbehind⟩ := hx hy (bounded_further _ _ (bounded_cons hclosing r))
        (bounded_further _ _ (bounded_cons hclosing s)) (List.cons.inj (List.cons.inj h).2).2
      obtain ⟨hitems, hrest⟩ := ih hxs hys hbehind
      exact ⟨by rw [List.map_cons, List.map_cons, hitem, hitems], hrest⟩

/-- Items with commas between them are told by their text, up to `f`. -/
theorem separated_inj (hclosing : Numeral.isDelimiter closing = true) (hcomma : closing ≠ ',')
    (hstart : ∀ x, Q x → ∃ c l, write x = c :: l ∧ c ≠ closing) (hxs : ∀ x ∈ xs, Q x)
    (htells : ∀ x ∈ xs, Tells write f Q x) (hys : ∀ y ∈ ys, Q y)
    (h : [',', ' '].intercalate (xs.map write) ++ closing :: r =
      [',', ' '].intercalate (ys.map write) ++ closing :: s) : xs.map f = ys.map f ∧ r = s := by
  cases xs with
  | nil =>
    cases ys with
    | nil => exact ⟨rfl, (List.cons.inj h).2⟩
    | cons y ys =>
      obtain ⟨c, l, hwrite, hc⟩ := hstart y (hys y (by simp))
      rw [separated_cons, hwrite] at h
      exact absurd (List.cons.inj h).1.symm hc
  | cons x xs =>
    cases ys with
    | nil =>
      obtain ⟨c, l, hwrite, hc⟩ := hstart x (hxs x (by simp))
      rw [separated_cons, hwrite] at h
      exact absurd (List.cons.inj h).1 hc
    | cons y ys =>
      rw [separated_cons, separated_cons] at h
      obtain ⟨hx, hxs⟩ := List.forall_mem_cons.mp htells
      obtain ⟨hy, hys⟩ := List.forall_mem_cons.mp hys
      obtain ⟨hitem, hbehind⟩ := hx hy (bounded_further _ _ (bounded_cons hclosing r))
        (bounded_further _ _ (bounded_cons hclosing s)) h
      obtain ⟨hitems, hrest⟩ := further_inj hclosing hcomma hxs hys hbehind
      exact ⟨by rw [List.map_cons, List.map_cons, hitem, hitems], hrest⟩

end Separated

namespace Value

/-- The character that starts a value of more than one word, or of a quoted one. -/
def mark? : Value → Option Char
  | var _ => some '$'
  | string _ => some '"'
  | list _ => some '['
  | object _ => some '\x7b'
  | _ => none

/-- The value that a word says. -/
def ofToken : Token → Value
  | .int n => int n
  | .float x => float x
  | .name s =>
      if s = "true" then boolean true
      else if s = "false" then boolean false
      else if s = "null" then null
      else enum s
  | _ => null

variable {v w : Value}

/-- A value of one word is told by its token. -/
theorem Spelled.token (hv : v.Spelled) (hmark : v.mark? = none) : ∃ t : Token, t.IsTelling ∧
    v.render.toList = t.lead ∧ v.namingInfinity = ofToken t ∧ v.tokens = [t] := by
  cases hv with
  | int n => exact ⟨.int n, trivial, rfl, rfl, rfl⟩
  | float x =>
    cases hx : x.isTop with
    | false =>
      exact ⟨.float x, hx, rfl, by simp [namingInfinity, hx, ofToken], by simp [tokens, hx]⟩
    | true =>
      refine ⟨.name "inf", (by decide : IsName "inf"), ?_, by simp [namingInfinity, hx, ofToken],
        by simp [tokens, hx]⟩
      rw [render, Binary64.render_of_isTop hx]
      rfl
  | boolean b =>
    cases b with
    | true => exact ⟨.name "true", (by decide : IsName "true"), rfl, rfl, rfl⟩
    | false => exact ⟨.name "false", (by decide : IsName "false"), rfl, rfl, rfl⟩
  | null => exact ⟨.name "null", (by decide : IsName "null"), rfl, rfl, rfl⟩
  | @enum name hname hfree =>
    simp only [reserved, List.mem_cons, List.not_mem_nil, or_false, not_or] at hfree
    refine ⟨.name name, hname, rfl, ?_, rfl⟩
    rw [ofToken, if_neg hfree.1, if_neg hfree.2.1, if_neg hfree.2.2, namingInfinity]
  | _ => exact absurd hmark (by simp [mark?])

/-- The first character of a value is its mark, or one of a word. -/
theorem Spelled.head (hv : v.Spelled) : ∃ c r, v.render.toList = c :: r ∧
    (v.mark? = some c ∨ v.mark? = none ∧ IsInert c) := by
  cases hmark : v.mark? with
  | none =>
    obtain ⟨t, ht, htext, -, -⟩ := hv.token hmark
    obtain ⟨c, r, hlead, hinert⟩ := ht.lead_cons
    exact ⟨c, r, htext.trans hlead, .inr ⟨rfl, hinert c (by simp)⟩⟩
  | some c =>
    cases hv with
    | var hname =>
      obtain rfl := Option.some.inj hmark
      exact ⟨'$', _, String.toList_append, .inl rfl⟩
    | string s =>
      obtain rfl := Option.some.inj hmark
      have htext := Quoted.quote_append s []
      rw [List.append_nil] at htext
      exact ⟨'"', _, htext, .inl rfl⟩
    | list hitems =>
      obtain rfl := Option.some.inj hmark
      exact ⟨'[', _, toList_render_list _, .inl rfl⟩
    | object hnames hvalues =>
      obtain rfl := Option.some.inj hmark
      exact ⟨'\x7b', _, toList_render_object _, .inl rfl⟩
    | _ => exact absurd hmark (by simp [mark?])

theorem eq_of_mark? {c : Char} (hmark : v.mark? = some c) :
    c = '$' ∨ c = '"' ∨ c = '[' ∨ c = '\x7b' := by
  cases v <;> simp_all [mark?, eq_comm]

theorem not_inert_of_mark {c : Char} (hmark : v.mark? = some c) : ¬ IsInert c := by
  rintro ⟨hdelimiter, hquote⟩
  rcases eq_of_mark? hmark with rfl | rfl | rfl | rfl
  · exact absurd hdelimiter (by decide)
  · exact hquote rfl
  · exact absurd hdelimiter (by decide)
  · exact absurd hdelimiter (by decide)

theorem Spelled.mark?_eq (hv : v.Spelled) (hw : w.Spelled) {r s : List Char}
    (h : v.render.toList ++ r = w.render.toList ++ s) : v.mark? = w.mark? := by
  obtain ⟨c, l, htext, hc⟩ := hv.head
  obtain ⟨d, m, htext', hd⟩ := hw.head
  rw [htext, htext'] at h
  obtain rfl := (List.cons.inj h).1
  rcases hc with hc | ⟨hc, hinert⟩ <;> rcases hd with hd | ⟨hd, hinert'⟩
  · exact hc.trans hd.symm
  · exact absurd hinert' (not_inert_of_mark hc)
  · exact absurd hinert (not_inert_of_mark hd)
  · exact hc.trans hd.symm

/-- No value starts with the bracket that ends a list or an object. -/
theorem Spelled.head_ne (hv : v.Spelled) {closing : Char}
    (hclosing : closing = ']' ∨ closing = '\x7d') :
    ∃ c l, v.render.toList = c :: l ∧ c ≠ closing := by
  obtain ⟨c, l, htext, hc⟩ := hv.head
  refine ⟨c, l, htext, ?_⟩
  rintro rfl
  rcases hc with hmark | ⟨-, hinert⟩
  · have hmarks := eq_of_mark? hmark
    rcases hclosing with rfl | rfl <;> exact absurd hmarks (by decide)
  · rcases hclosing with rfl | rfl <;> exact hinert.ne (by decide) rfl

theorem Spelled.word_append_inj (hv : v.Spelled) (hw : w.Spelled) (hmark : v.mark? = none)
    {r s : List Char} (hr : Bounded r) (hs : Bounded s)
    (h : v.render.toList ++ r = w.render.toList ++ s) :
    v.namingInfinity = w.namingInfinity ∧ r = s := by
  obtain ⟨t, ht, htext, hvalue, -⟩ := hv.token hmark
  obtain ⟨u, hu, htext', hvalue', -⟩ := hw.token ((hv.mark?_eq hw h).symm.trans hmark)
  obtain ⟨_, _, hlead, hinert⟩ := ht.lead_cons
  obtain ⟨_, _, hlead', hinert'⟩ := hu.lead_cons
  rw [htext, htext'] at h
  obtain ⟨hwords, hrest⟩ := inert_append_inj (hlead ▸ hinert) (hlead' ▸ hinert') hr hs h
  rw [hvalue, hvalue', ht.lead_inj hu hwords]
  exact ⟨rfl, hrest⟩

section

variable {f : String × Value} (hname : IsName f.1)

include hname

theorem field_head_ne : ∃ c l, (f.1 ++ ": " ++ f.2.render).toList = c :: l ∧ c ≠ '\x7d' := by
  have hinert := hname.inert
  obtain ⟨c, l, hchars, -, -⟩ := hname
  refine ⟨c, l ++ ": ".toList ++ f.2.render.toList, by simp [hchars], ?_⟩
  exact (hinert c (by simp [hchars])).ne rfl

/-- The text of a field tells the field if that of its value tells the value. -/
theorem tells_field (hvalue : Tells (fun v => v.render.toList) namingInfinity Spelled f.2) :
    Tells (fun f : String × Value => (f.1 ++ ": " ++ f.2.render).toList)
      (fun f => (f.1, f.2.namingInfinity)) (fun f => IsName f.1 ∧ f.2.Spelled) f := by
  intro g hg r s hr hs h
  simp only [String.toList_append, List.append_assoc] at h
  obtain ⟨hnames, hbehind⟩ := inert_append_inj hname.inert hg.1.inert (bounded_cons rfl _)
    (bounded_cons rfl _) h
  obtain ⟨hvalues, hrest⟩ := hvalue hg.2 hr hs (List.cons.inj (List.cons.inj hbehind).2).2
  exact ⟨Prod.ext (String.toList_injective hnames) hvalues, hrest⟩

end

/-- The text of a value tells the value, up to the name of the infinity, and where it ends. -/
theorem Spelled.render_append_inj (hv : v.Spelled) (hw : w.Spelled) {r s : List Char}
    (hr : Bounded r) (hs : Bounded s) (h : v.render.toList ++ r = w.render.toList ++ s) :
    v.namingInfinity = w.namingInfinity ∧ r = s := by
  induction hv generalizing w r s with
  | @var name hname =>
    have hmark := (Spelled.var hname).mark?_eq hw h
    cases hw with
    | var hname' =>
      simp only [render, String.toList_append, List.append_assoc] at h
      obtain ⟨hnames, hrest⟩ :=
        inert_append_inj hname.inert hname'.inert hr hs (List.cons.inj h).2
      exact ⟨by rw [String.toList_injective hnames], hrest⟩
    | _ => exact absurd hmark (by simp [mark?])
  | int n => exact (Spelled.int n).word_append_inj hw rfl hr hs h
  | float x => exact (Spelled.float x).word_append_inj hw rfl hr hs h
  | boolean b => exact (Spelled.boolean b).word_append_inj hw rfl hr hs h
  | null => exact Spelled.null.word_append_inj hw rfl hr hs h
  | enum hname hfree => exact (Spelled.enum hname hfree).word_append_inj hw rfl hr hs h
  | string text =>
    have hmark := (Spelled.string text).mark?_eq hw h
    cases hw with
    | string text' =>
      obtain ⟨htexts, hrest⟩ := quote_append_inj h
      exact ⟨by rw [htexts], hrest⟩
    | _ => exact absurd hmark (by simp [mark?])
  | @list items hitems ih =>
    have hmark := (Spelled.list hitems).mark?_eq hw h
    cases hw with
    | @list items' hitems' =>
      rw [toList_render_list, toList_render_list, List.cons_append, List.cons_append,
        List.append_assoc, List.append_assoc] at h
      obtain ⟨hsame, hrest⟩ := separated_inj (f := namingInfinity) (Q := Spelled) rfl (by decide)
        (fun u hu => hu.head_ne (.inl rfl)) hitems
        (fun u hu y hy r s hr hs h => ih u hu hy hr hs h) hitems' (List.cons.inj h).2
      rw [namingInfinity, namingInfinity, namingItems_eq_map, namingItems_eq_map, hsame]
      exact ⟨rfl, hrest⟩
    | _ => exact absurd hmark (by simp [mark?])
  | @object fields hnames hvalues ih =>
    have hmark := (Spelled.object hnames hvalues).mark?_eq hw h
    cases hw with
    | @object fields' hnames' hvalues' =>
      rw [toList_render_object, toList_render_object, List.cons_append, List.cons_append,
        List.append_assoc, List.append_assoc] at h
      obtain ⟨hsame, hrest⟩ := separated_inj rfl (by decide) (fun f hf => field_head_ne hf.1)
        (fun f hf => ⟨hnames f hf, hvalues f hf⟩)
        (fun f hf => tells_field (hnames f hf) fun w hw r s hr hs h => ih f hf hw hr hs h)
        (fun f hf => ⟨hnames' f hf, hvalues' f hf⟩) (List.cons.inj h).2
      rw [namingInfinity, namingInfinity, namingFields_eq_map, namingFields_eq_map, hsame]
      exact ⟨rfl, hrest⟩
    | _ => exact absurd hmark (by simp [mark?])

theorem Spelled.render_namingInfinity (hv : v.Spelled) : v.namingInfinity.render = v.render := by
  induction hv with
  | float x =>
    rw [namingInfinity]
    split
    · next hx => rw [render, render, Binary64.render_of_isTop hx]
    · rfl
  | list _ ih =>
    rw [namingInfinity, namingItems_eq_map, render, renderItems_eq_map, List.map_map, render,
      renderItems_eq_map]
    exact congrArg (fun texts => "[" ++ ", ".intercalate texts ++ "]") (List.map_congr_left ih)
  | object _ _ ih =>
    rw [namingInfinity, namingFields_eq_map, render, renderFields_eq_map, List.map_map, render,
      renderFields_eq_map]
    refine congrArg (fun texts => "\x7b" ++ ", ".intercalate texts ++ "\x7d")
      (List.map_congr_left fun f hf => ?_)
    exact congrArg (f.1 ++ ": " ++ ·) (ih f hf)
  | _ => rfl

/-- Two values have one text exactly if they are the same up to the name of the infinity. -/
theorem Spelled.render_eq_iff (hv : v.Spelled) (hw : w.Spelled) :
    v.render = w.render ↔ v.namingInfinity = w.namingInfinity := by
  constructor
  · intro h
    exact (hv.render_append_inj hw bounded_nil bounded_nil (by rw [h])).1
  · intro h
    rw [← hv.render_namingInfinity, h, hw.render_namingInfinity]

end Value

end Sdl

end GraphSchema
