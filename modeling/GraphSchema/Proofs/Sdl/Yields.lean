import GraphSchema.Proofs.Sdl.Lexing
import GraphSchema.Sdl.Parser

/-!
# What parsers yield

What a parser reads of genuine tokens, with one rule for each combinator. How many brackets are open
behind it is told along with what it reads, so a parser that closes what it opens says so.
-/

namespace GraphSchema.Sdl

variable {α β : Type} {floats : Binary64 → Prop} {n : Nat}

/-- Whatever a parser reads of genuine tokens is as `Q` says of it and of the brackets open behind
it, and the tokens behind it are genuine. -/
def Yields (floats : Binary64 → Prop) (n : Nat) (p : Parser α) (Q : α → Nat → Prop) : Prop :=
  ∀ ⦃ls rest : List Located⦄ ⦃a : α⦄, Genuine floats n ls → p ls = .ok (a, rest) →
    ∃ m, Q a m ∧ Genuine floats m rest

/-- The same where the next token is known. -/
def YieldsAt (floats : Binary64 → Prop) (n : Nat) (t : Token) (p : Parser α)
    (Q : α → Nat → Prop) : Prop :=
  ∀ ⦃l : Located⦄ ⦃ls rest : List Located⦄ ⦃a : α⦄, l.token = t → Genuine floats n (l :: ls) →
    p (l :: ls) = .ok (a, rest) → ∃ m, Q a m ∧ Genuine floats m rest

/-- What is read is as `P` says, and so many brackets are open. -/
def Closed (P : α → Prop) (n : Nat) : α → Nat → Prop := fun a m => P a ∧ m = n

namespace Yields

variable {p : Parser α} {k : α → Parser β} {Q Q' : α → Nat → Prop} {R : β → Nat → Prop}

theorem yieldsAt (h : Yields floats n p Q) (t : Token) : YieldsAt floats n t p Q :=
  fun _ _ _ _ _ hls hrun => h hls hrun

theorem mono (h : Yields floats n p Q) (hQ : ∀ a m, Q a m → Q' a m) : Yields floats n p Q' := by
  intro ls rest a hls hrun
  obtain ⟨m, ha, hrest⟩ := h hls hrun
  exact ⟨m, hQ a m ha, hrest⟩

theorem pure {a : α} (h : Q a n) : Yields floats n (Pure.pure a) Q := by
  intro ls rest b hls hrun
  obtain ⟨rfl, rfl⟩ := Prod.mk.inj (Except.ok.inj hrun)
  exact ⟨n, h, hls⟩

theorem bind (hp : Yields floats n p Q) (hk : ∀ a m, Q a m → Yields floats m (k a) R) :
    Yields floats n (p >>= k) R := by
  intro ls rest b hls hrun
  change Except.bind (p ls) (fun r => k r.1 r.2) = .ok (b, rest) at hrun
  cases hpls : p ls with
  | error e =>
    rw [hpls] at hrun
    exact absurd hrun (by simp [Except.bind])
  | ok r =>
    rw [hpls] at hrun
    obtain ⟨m, ha, hrest⟩ := hp hls hpls
    exact hk r.1 m ha hrest hrun

theorem andThen {P : α → Prop} {m : Nat} (hp : Yields floats n p (Closed P m))
    (hk : ∀ a, P a → Yields floats m (k a) R) : Yields floats n (p >>= k) R := by
  refine hp.bind fun a m ha => ?_
  obtain ⟨ha, rfl⟩ := ha
  exact hk a ha

theorem map {f : α → β} (hp : Yields floats n p Q) (hf : ∀ a m, Q a m → R (f a) m) :
    Yields floats n (f <$> p) R := by
  rw [← bind_pure_comp]
  exact hp.bind fun a m ha => .pure (hf a m ha)

theorem failHere : Yields floats n (Parser.failHere : Parser α) Q := by
  intro ls rest a _ hrun
  cases ls <;> exact absurd hrun (by simp [Parser.failHere])

theorem failAt (q : Position) : Yields floats n (Parser.failAt q : Parser α) Q := by
  intro ls rest a _ hrun
  exact absurd hrun (by simp [Parser.failAt])

theorem position : Yields floats n Parser.position (Closed (fun _ => True) n) := by
  intro ls rest a hls hrun
  cases ls with
  | nil => exact absurd hrun (by simp [Parser.position])
  | cons l ls =>
    obtain ⟨-, rfl⟩ := Prod.mk.inj (Except.ok.inj hrun)
    exact ⟨n, ⟨trivial, rfl⟩, hls⟩

/-- A choice by the next token. -/
theorem peek {k : Option Token → Parser β} (hnone : Yields floats n (k none) R)
    (hsome : ∀ t, t.IsGenuine floats → YieldsAt floats n t (k (some t)) R) :
    Yields floats n (Parser.peek >>= k) R := by
  intro ls rest b hls hrun
  cases ls with
  | nil => exact hnone hls hrun
  | cons l ls => exact hsome l.token hls.1 rfl hls hrun

theorem expect {t : Token} : Yields floats n (Parser.expect t) fun _ m =>
    t.bracketsAfter? Lexed.bracketLimit n = some m := by
  intro ls rest a hls hrun
  cases ls with
  | nil => exact absurd hrun (by simp [Parser.expect])
  | cons l ls =>
    rw [Parser.expect] at hrun
    split at hrun
    · next ht =>
      obtain ⟨-, rfl⟩ := Prod.mk.inj (Except.ok.inj hrun)
      obtain ⟨-, m, hm, hrest⟩ := hls
      exact ⟨m, ht ▸ hm, hrest⟩
    · exact absurd hrun (by simp)

theorem accept {t : Token} {k : Bool → Parser β}
    (htrue : ∀ m, t.bracketsAfter? Lexed.bracketLimit n = some m → Yields floats m (k true) R)
    (hfalse : Yields floats n (k false) R) : Yields floats n (Parser.accept t >>= k) R := by
  intro ls rest b hls hrun
  cases ls with
  | nil => exact hfalse hls hrun
  | cons l ls =>
    change Except.bind (Parser.accept t (l :: ls)) (fun r => k r.1 r.2) = .ok (b, rest) at hrun
    rw [Parser.accept] at hrun
    split at hrun
    · next ht =>
      obtain ⟨-, m, hm, hrest⟩ := hls
      exact htrue m (ht ▸ hm) hrest hrun
    · exact hfalse hls hrun

/-- A token that opens no brackets may stand there or not. -/
theorem optional {t : Token} {p : Parser β}
    (ht : ∀ m, t.bracketsAfter? Lexed.bracketLimit n = some m → m = n) (h : Yields floats n p R) :
    Yields floats n (Parser.accept t >>= fun _ => p) R :=
  accept (fun m hm => ht m hm ▸ h) h

theorem name : Yields floats n Parser.name (Closed IsName n) := by
  intro ls rest a hls hrun
  cases ls with
  | nil => exact absurd hrun (by simp [Parser.name])
  | cons l ls =>
    obtain ⟨q, token⟩ := l
    obtain ⟨htoken, m, hm, hrest⟩ := hls
    cases token with
    | name s =>
      obtain ⟨rfl, rfl⟩ := Prod.mk.inj (Except.ok.inj hrun)
      exact ⟨m, ⟨htoken, (Option.some.inj hm).symm⟩, hrest⟩
    | _ => exact absurd hrun (by simp [Parser.name])

theorem string? : Yields floats n Parser.string? (Closed (fun _ => True) n) := by
  intro ls rest a hls hrun
  cases ls with
  | nil =>
    obtain ⟨-, rfl⟩ := Prod.mk.inj (Except.ok.inj hrun)
    exact ⟨n, ⟨trivial, rfl⟩, hls⟩
  | cons l ls =>
    obtain ⟨q, token⟩ := l
    cases token with
    | string s =>
      obtain ⟨-, rfl⟩ := Prod.mk.inj (Except.ok.inj hrun)
      obtain ⟨-, m, hm, hrest⟩ := hls
      exact ⟨m, ⟨trivial, (Option.some.inj hm).symm⟩, hrest⟩
    | _ =>
      obtain ⟨-, rfl⟩ := Prod.mk.inj (Except.ok.inj hrun)
      exact ⟨n, ⟨trivial, rfl⟩, hls⟩

end Yields

theorem YieldsAt.skip {t : Token} {k : Unit → Parser β} {R : β → Nat → Prop}
    (h : ∀ m, t.bracketsAfter? Lexed.bracketLimit n = some m → Yields floats m (k ()) R) :
    YieldsAt floats n t (Parser.skip >>= k) R := by
  intro l ls rest b ht hls hrun
  obtain ⟨-, m, hm, hrest⟩ := hls
  exact h m (ht ▸ hm) hrest hrun

/-! Items, and what stands between brackets. -/

theorem bracketsAfter?_opening {c : Char} (hc : c = '(' ∨ c = '[' ∨ c = '\x7b') {m : Nat}
    (h : (Token.punctuator c).bracketsAfter? Lexed.bracketLimit n = some m) :
    m = n + 1 ∧ n + 1 ≤ Lexed.bracketLimit := by
  rw [Token.bracketsAfter?, if_pos hc] at h
  split at h
  · next hlt => exact ⟨(Option.some.inj h).symm, hlt⟩
  · exact absurd h (by simp)

theorem bracketsAfter?_closing {c : Char} (hc : c = ')' ∨ c = ']' ∨ c = '\x7d') {m : Nat}
    (h : (Token.punctuator c).bracketsAfter? Lexed.bracketLimit (n + 1) = some m) : m = n := by
  have hopen : ¬(c = '(' ∨ c = '[' ∨ c = '\x7b') := by
    rcases hc with rfl | rfl | rfl <;> decide
  rw [Token.bracketsAfter?, if_neg hopen, if_pos hc] at h
  exact (Option.some.inj h).symm

namespace Yields

variable {P : α → Prop}

theorem mark {c : Char} (hopening : ¬(c = '(' ∨ c = '[' ∨ c = '\x7b'))
    (hclosing : ¬(c = ')' ∨ c = ']' ∨ c = '\x7d')) :
    Yields floats n (Parser.mark c) (Closed (fun _ => True) n) := by
  refine expect.mono fun _ m hm => ⟨trivial, ?_⟩
  rw [Token.bracketsAfter?, if_neg hopening, if_neg hclosing] at hm
  exact (Option.some.inj hm).symm

theorem close {c : Char} (hc : c = ')' ∨ c = ']' ∨ c = '\x7d') :
    Yields floats (n + 1) (Parser.mark c) (Closed (fun _ => True) n) :=
  expect.mono fun _ _ hm => ⟨trivial, bracketsAfter?_closing hc hm⟩

theorem manyWithin {starts : Token → Bool} {item : Parser α}
    (h : Yields floats n item (Closed P n)) (fuel : Nat) :
    Yields floats n (Parser.manyWithin starts item fuel) (Closed (fun xs => ∀ x ∈ xs, P x) n) := by
  induction fuel with
  | zero => exact .pure ⟨by simp, rfl⟩
  | succ fuel ih =>
    refine .peek (.pure ⟨by simp, rfl⟩) fun t _ => Yields.yieldsAt ?_ t
    show Yields floats n (if starts t = true then _ else Pure.pure [] : Parser (List α)) _
    split
    · refine h.andThen fun x hx => ih.andThen fun xs hxs => ?_
      exact .pure ⟨List.forall_mem_cons.mpr ⟨hx, hxs⟩, rfl⟩
    · exact .pure ⟨by simp, rfl⟩

theorem many {starts : Token → Bool} {item : Parser α} (h : Yields floats n item (Closed P n)) :
    Yields floats n (Parser.many starts item) (Closed (fun xs => ∀ x ∈ xs, P x) n) :=
  fun _ _ _ hls hrun => h.manyWithin _ hls hrun

theorem oneOrMore {starts : Token → Bool} {item : Parser α}
    (h : Yields floats n item (Closed P n)) :
    Yields floats n (Parser.oneOrMore starts item) (Closed (fun xs => ∀ x ∈ xs, P x) n) := by
  refine h.andThen fun x hx => h.many.andThen fun xs hxs => ?_
  exact .pure ⟨List.forall_mem_cons.mpr ⟨hx, hxs⟩, rfl⟩

theorem separated {c : Char} (hopening : ¬(c = '(' ∨ c = '[' ∨ c = '\x7b'))
    (hclosing : ¬(c = ')' ∨ c = ']' ∨ c = '\x7d')) {item : Parser α}
    (h : Yields floats n item (Closed P n)) :
    Yields floats n (Parser.separated c item) (Closed (fun xs => ∀ x ∈ xs, P x) n) := by
  have hmore : Yields floats n (do Parser.mark c; item) (Closed P n) :=
    (mark hopening hclosing).andThen fun _ _ => h
  refine h.andThen fun x hx => hmore.many.andThen fun xs hxs => ?_
  exact .pure ⟨List.forall_mem_cons.mpr ⟨hx, hxs⟩, rfl⟩

/-- Items between brackets are read with one more bracket open, for which there was room. -/
theorem between {opening closing : Char}
    (hopening : opening = '(' ∨ opening = '[' ∨ opening = '\x7b')
    (hclosing : closing = ')' ∨ closing = ']' ∨ closing = '\x7d') {inner : Parser (List α)}
    (h : Yields floats (n + 1) inner (Closed (fun xs => ∀ x ∈ xs, P x) (n + 1))) :
    Yields floats n (Parser.between opening closing inner)
      (Closed (fun xs => (xs ≠ [] → n + 1 ≤ Lexed.bracketLimit) ∧ ∀ x ∈ xs, P x) n) := by
  refine .accept (fun m hm => ?_) (.pure ⟨by simp, rfl⟩)
  obtain ⟨rfl, hroom⟩ := bracketsAfter?_opening hopening hm
  refine h.andThen fun xs hxs => (close hclosing).andThen fun _ _ => ?_
  exact .pure ⟨⟨fun _ => hroom, hxs⟩, rfl⟩

end Yields

end GraphSchema.Sdl
