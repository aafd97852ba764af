import GraphSchema.Proofs.Sdl.Words
import GraphSchema.Sdl.Lexer

/-!
# What lexing gives

Names are names of the language, whole numbers have 64 bits, and never are more brackets open than
lexing follows.
-/

namespace GraphSchema.Sdl

namespace Numeral

theorem float?_ne_int (whole fraction : List Char) (exponent n : Int) :
    float? whole fraction exponent ≠ some (.int n) := by
  unfold float?
  intro h
  obtain ⟨⟨negative, digits⟩, -, h⟩ := Option.bind_eq_some_iff.mp h
  simp only at h
  split at h
  · exact absurd (Option.some.inj h) (by simp)
  · exact absurd h (by simp)

theorem isInt64_of_int? {cs : List Char} {n : Int} (h : int? cs = some (.int n)) : IsInt64 n := by
  unfold int? at h
  obtain ⟨⟨negative, digits⟩, -, h⟩ := Option.bind_eq_some_iff.mp h
  simp only at h
  generalize (if negative = true then -(digitsValue digits : Int) else digitsValue digits) = m at h
  split at h
  · next hrange =>
    obtain rfl := Value.int.inj (Option.some.inj h)
    exact hrange
  · exact absurd h (by simp)

theorem isInt64_of_value? {cs : List Char} {n : Int} (h : value? cs = some (.int n)) :
    IsInt64 n := by
  unfold value? at h
  simp only at h
  split at h
  · exact isInt64_of_int? h
  · split at h
    · exact absurd h (by simp)
    · exact absurd h (float?_ne_int _ _ _ n)
  · obtain ⟨e, -, h⟩ := Option.bind_eq_some_iff.mp h
    exact absurd h (float?_ne_int _ _ _ n)
  · obtain ⟨⟨whole, fraction⟩, -, h⟩ := Option.bind_eq_some_iff.mp h
    simp only at h
    split at h
    · exact absurd h (by simp)
    · obtain ⟨e, -, h⟩ := Option.bind_eq_some_iff.mp h
      exact absurd h (float?_ne_int _ _ _ n)

end Numeral

namespace Token

/-- A token of lexed text, where the floats are of some kind. -/
def IsGenuine (floats : Binary64 → Prop) : Token → Prop
  | name s => IsName s
  | int n => IsInt64 n
  | float x => floats x
  | _ => True

theorem isGenuine_of_scan {cs rest : List Char} {t : Token} (h : scan cs = some (t, rest))
    {floats : Binary64 → Prop} (hfloats : ∀ x, t = .float x → floats x) : t.IsGenuine floats := by
  unfold scan at h
  split at h
  · exact absurd h (by simp)
  · obtain ⟨⟨text, behind⟩, -, h⟩ := Option.bind_eq_some_iff.mp h
    obtain ⟨rfl, -⟩ := Prod.mk.inj (Option.some.inj h)
    exact trivial
  · obtain ⟨⟨text, behind⟩, -, h⟩ := Option.bind_eq_some_iff.mp h
    obtain ⟨rfl, -⟩ := Prod.mk.inj (Option.some.inj h)
    exact trivial
  · obtain ⟨rfl, -⟩ := Prod.mk.inj (Option.some.inj h)
    exact trivial
  · next c r _ _ _ =>
    split at h
    · next hc =>
      rw [List.span_eq_takeWhile_dropWhile] at h
      obtain ⟨rfl, -⟩ := Prod.mk.inj (Option.some.inj h)
      refine ⟨c, r.takeWhile isNameRest, String.toList_ofList, hc, ?_⟩
      exact fun x hx => List.mem_takeWhile_imp hx
    · split at h
      · obtain ⟨v, hv, h⟩ := Option.bind_eq_some_iff.mp h
        obtain ⟨rfl, -⟩ := Prod.mk.inj (Option.some.inj h)
        cases v with
        | int n => exact Numeral.isInt64_of_value? hv
        | float x => exact hfloats x rfl
      · split at h
        · obtain ⟨rfl, -⟩ := Prod.mk.inj (Option.some.inj h)
          exact trivial
        · exact absurd h (by simp)

end Token

/-- Tokens as lexing gives them at a place with some brackets open. -/
def Genuine (floats : Binary64 → Prop) : Nat → List Located → Prop
  | _, [] => True
  | n, l :: ls => l.token.IsGenuine floats ∧
      ∃ m, l.token.bracketsAfter? Lexed.bracketLimit n = some m ∧ Genuine floats m ls

namespace Lexed

theorem genuine_lexFrom {floats : Binary64 → Prop} (fuel n : Nat) (p : Position) (cs : List Char)
    (h : ∀ l ∈ (lexFrom fuel n p cs).tokens, ∀ x, l.token = .float x → floats x) :
    Genuine floats n (lexFrom fuel n p cs).tokens := by
  induction fuel generalizing n p cs with
  | zero => exact trivial
  | succ fuel ih =>
    unfold lexFrom at h ⊢
    simp only at h ⊢
    split
    · exact trivial
    · next hne =>
      rw [if_neg hne] at h
      split
      · exact trivial
      · next token rest m hnext =>
        rw [hnext] at h
        obtain ⟨⟨token', rest'⟩, hscan, hnext⟩ := Option.bind_eq_some_iff.mp hnext
        obtain ⟨m', hm, hnext⟩ := Option.bind_eq_some_iff.mp hnext
        obtain ⟨rfl, hrest⟩ := Prod.mk.inj (Option.some.inj hnext)
        obtain ⟨rfl, rfl⟩ := Prod.mk.inj hrest
        simp only [List.mem_cons, forall_eq_or_imp] at h
        obtain ⟨hhead, htail⟩ := h
        exact ⟨Token.isGenuine_of_scan hscan hhead, m', hm, ih m' _ _ htail⟩

/-- The numbers with a fraction or an exponent that a text holds. -/
def floats (l : Lexed) : List Binary64 :=
  l.tokens.filterMap fun t => match t.token with
    | .float x => some x
    | _ => none

theorem genuine_ofText {kind : Binary64 → Prop} (text : String)
    (h : ∀ x ∈ (ofText text).floats, kind x) : Genuine kind 0 (ofText text).tokens := by
  apply genuine_lexFrom
  intro l hl x hx
  exact h x (List.mem_filterMap.mpr ⟨l, hl, by rw [hx]⟩)

end Lexed

end GraphSchema.Sdl
