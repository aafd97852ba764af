import GraphSchema.Proofs.Sdl.Spelling

/-!
# Quoted strings in a text

Quoting is undone by lexing. Whatever a string holds, its written form is one token of that value,
on one line, and lexing goes on right behind it.
-/

namespace GraphSchema.Sdl

theorem Position.after_eq_right (p : Position) {cs : List Char} (h : '\n' ∉ cs) :
    p.after cs = p.right cs.length := by
  induction cs generalizing p with
  | nil => rfl
  | cons c cs ih =>
    obtain ⟨hc, hcs⟩ := List.ne_and_not_mem_of_not_mem_cons h
    have hstep : p.after (c :: cs) = (p.right 1).after cs := by
      rw [after, List.foldl_cons, if_neg hc.symm, after]
    rw [hstep, ih _ hcs, List.length_cons, Nat.add_comm]
    simp [right, Nat.add_assoc]

namespace Quoted

theorem feed_notMem_escape (c : Char) : '\n' ∉ escape c := by
  have hdigit : ∀ d, d < 16 → Text.hexDigitUpper d ≠ '\n' := by decide
  obtain ⟨e, -, hx, h⟩ | ⟨-, h⟩ | ⟨-, -, hfeed, h⟩ := escape_cases c
  · rw [h]
    have he : e ≠ '\n' := by
      rintro rfl
      exact absurd hx (by simp [unescape?])
    simp [he.symm]
  · have hquad (n : Nat) : '\n' ≠ Text.hexDigitUpper (n % 16) :=
      (hdigit _ (Nat.mod_lt _ (by decide))).symm
    rw [h, Text.hexQuad]
    simp [hquad]
  · rw [h]
    simp [hfeed.symm]

/-- A quoted string stands on one line. -/
theorem feed_notMem_quote (s : String) : '\n' ∉ (quote s).toList := by
  have h := quote_append s []
  rw [List.append_nil] at h
  rw [h]
  simp [feed_notMem_escape]

end Quoted

namespace Lexed

/-- A quoted string is lexed to one token, which has its value and ends at its last character. -/
theorem lexFrom_quote {cs : List Char} (hcs : cs.head? ≠ some '"') (s : String)
    (n opened : Nat) (p : Position) :
    Token.scan ((Quoted.quote s).toList ++ cs) = some (.string s, cs) ∧
    lexFrom (n + 1) opened p ((Quoted.quote s).toList ++ cs) =
      let l := lexFrom n opened (p.right (Quoted.quote s).toList.length) cs
      { l with tokens := ⟨p, .string s⟩ :: l.tokens } := by
  have hscan := Token.scan_quote (s := s) fun _ => hcs
  have hend : p.after (((Quoted.quote s).toList ++ cs).take
      (((Quoted.quote s).toList ++ cs).length - cs.length)) =
        p.right (Quoted.quote s).toList.length := by
    rw [List.length_append, Nat.add_sub_cancel, List.take_left]
    exact p.after_eq_right (Quoted.feed_notMem_quote s)
  refine ⟨hscan, ?_⟩
  rw [← hend]
  rw [Quoted.quote_append] at hscan ⊢
  exact lexFrom_token (by decide) hscan rfl n p

/-- A text with control characters, and with backslashes before a quote. -/
def thornyText : String := "\x01 \\\n\u0085\\\\\\\""

theorem lexFrom_quote_thornyText :
    (" @deprecated".toList).head? ≠ some '"' ∧
    Token.scan ((Quoted.quote thornyText).toList ++ " @deprecated".toList) =
      some (.string thornyText, " @deprecated".toList) ∧
    lexFrom 2 0 .start ((Quoted.quote thornyText).toList ++ " @deprecated".toList) =
      let l := lexFrom 1 0 (Position.start.right (Quoted.quote thornyText).toList.length)
        " @deprecated".toList
      { l with tokens := ⟨.start, .string thornyText⟩ :: l.tokens } := by
  have hcs : (" @deprecated".toList).head? ≠ some '"' := by decide
  exact ⟨hcs, lexFrom_quote hcs thornyText 1 0 .start⟩

end Lexed

end GraphSchema.Sdl
