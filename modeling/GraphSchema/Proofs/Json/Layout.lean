import GraphSchema.Json.Printer
import GraphSchema.Proofs.Json.Scanners
import GraphSchema.Proofs.Json.Strings

/-!
# Layouts of JSON texts

The written forms differ in nothing but the blanks between tokens. A layout says where these are,
and the compact and the pretty form are two of them.
-/

namespace GraphSchema.Json

/-- Blanks alone, which may stand between any two tokens. -/
def IsGap (cs : List Char) : Prop := ∀ c ∈ cs, isSpace c = true

theorem isGap_nil : IsGap [] := fun _ hc => absurd hc (by simp)

theorem isGap_space : IsGap [' '] := by simp [IsGap, isSpace]

theorem isGap_newline (level : Nat) : IsGap (newline level) := by
  intro c hc
  rcases List.mem_cons.mp hc with rfl | hc
  · rfl
  · rw [List.eq_of_mem_replicate hc]
    rfl

theorem IsGap.skipSpace_append {gap : List Char} (h : IsGap gap) (cs : List Char) :
    skipSpace (gap ++ cs) = skipSpace cs := by
  rw [skipSpace, List.dropWhile_append_of_pos h]
  rfl

theorem endsNumber_mark {c : Char} (hc : c.isDigit = false ∧ c ≠ '.' ∧ c ≠ 'e' ∧ c ≠ 'E')
    (cs : List Char) : EndsNumber (c :: cs) := by
  simpa [EndsNumber] using hc

/-- No number goes on behind a blank. -/
theorem IsGap.endsNumber_append {gap : List Char} (h : IsGap gap) {cs : List Char}
    (hcs : EndsNumber cs) : EndsNumber (gap ++ cs) := by
  cases gap with
  | nil => exact hcs
  | cons c gap =>
    have hc := h c List.mem_cons_self
    simp only [isSpace, Bool.or_eq_true, decide_eq_true_eq] at hc
    rcases hc with ((rfl | rfl) | rfl) | rfl <;> exact endsNumber_mark (by decide) _

/-- Texts with commas between them, each behind a gap. -/
def spread (gap : List Char) : List (List Char) → List Char
  | [] => []
  | [text] => gap ++ text
  | text :: next :: texts => gap ++ text ++ ',' :: spread gap (next :: texts)

theorem spread_cons {gap text : List Char} {texts : List (List Char)} (h : texts ≠ []) :
    spread gap (text :: texts) = gap ++ (text ++ ',' :: spread gap texts) := by
  cases texts with
  | nil => exact absurd rfl h
  | cons next texts => simp [spread]

/-- A value that is written without anything in it. -/
def IsBare : Json → Prop
  | .array items => items = []
  | .object members => members = []
  | _ => True

/-- A member of an object, given how its value is written. -/
def memberText (behind : List Char) (write : Json → List Char) (m : String × Json) : List Char :=
  quote m.1 ++ ':' :: (behind ++ write m.2)

/-- A way to write values on lines at levels of indentation. -/
structure Layout where
  write : Nat → Json → List Char
  /-- What stands before an item or a member at a level, and before a bracket that closes. -/
  gap : Nat → List Char
  /-- What stands behind a colon. -/
  behind : List Char
  isGap_gap : ∀ level, IsGap (gap level)
  isGap_behind : IsGap behind
  write_bare : ∀ level v, IsBare v → write level v = atom v
  write_array : ∀ level v items, write level (.array (v :: items)) =
    '[' :: (spread (gap (level + 1)) ((v :: items).map (write (level + 1))) ++
      (gap level ++ [']']))
  write_object : ∀ level m members, write level (.object (m :: members)) =
    '\x7b' :: (spread (gap (level + 1))
        ((m :: members).map (memberText behind (write (level + 1)))) ++
      (gap level ++ ['\x7d']))

theorem prettyItems_eq (level : Nat) (items : List Json) :
    prettyItems level items = spread (newline level) (items.map (prettyChars level)) := by
  induction items with
  | nil => rfl
  | cons v items ih =>
    cases items with
    | nil => rfl
    | cons w items => rw [prettyItems, ih] <;> simp [spread]

theorem prettyMembers_eq (level : Nat) (members : List (String × Json)) :
    prettyMembers level members =
      spread (newline level) (members.map (memberText [' '] (prettyChars level))) := by
  induction members with
  | nil => rfl
  | cons m members ih =>
    cases members with
    | nil => simp [prettyMembers, spread, memberText]
    | cons w members => rw [prettyMembers, ih] <;> simp [spread, memberText]

theorem compactItems_eq (items : List Json) :
    compactItems items = spread [] (items.map compactChars) := by
  induction items with
  | nil => rfl
  | cons v items ih =>
    cases items with
    | nil => rfl
    | cons w items => rw [compactItems, ih] <;> simp [spread]

theorem compactMembers_eq (members : List (String × Json)) :
    compactMembers members = spread [] (members.map (memberText [] compactChars)) := by
  induction members with
  | nil => rfl
  | cons m members ih =>
    cases members with
    | nil => simp [compactMembers, spread, memberText]
    | cons w members => rw [compactMembers, ih] <;> simp [spread, memberText]

namespace Layout

/-- One item or member a line, and a space behind each colon. -/
def pretty : Layout where
  write := prettyChars
  gap := newline
  behind := [' ']
  isGap_gap := isGap_newline
  isGap_behind := isGap_space
  write_bare level v hv := by
    cases v with
    | array items => cases hv; rfl
    | object members => cases hv; rfl
    | _ => rfl
  write_array level v items := by simp [prettyChars, prettyItems_eq]
  write_object level m members := by simp [prettyChars, prettyMembers_eq]

/-- No blanks at all. -/
def compact : Layout where
  write _ := compactChars
  gap _ := []
  behind := []
  isGap_gap _ := isGap_nil
  isGap_behind := isGap_nil
  write_bare level v hv := by
    cases v with
    | array items => cases hv; rfl
    | object members => cases hv; rfl
    | _ => rfl
  write_array level v items := by simp [compactChars, compactItems_eq]
  write_object level m members := by simp [compactChars, compactMembers_eq]

end Layout

end GraphSchema.Json
