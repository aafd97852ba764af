import GraphSchema.Proofs.Sdl.Reading
import GraphSchema.Proofs.Sdl.Permitted
import GraphSchema.Proofs.Text.ByName
import GraphSchema.Sdl.Grammar
import Mathlib.Tactic.Choose

/-!
# Reading values and types

The text of a permitted value is read as a value with the same text, and that of a proper reference
as the reference.
-/

namespace GraphSchema

namespace Sdl

namespace Value

theorem renderItems_eq_map (items : List Value) : renderItems items = items.map render := by
  induction items with
  | nil => rfl
  | cons v items ih => rw [renderItems, ih, List.map_cons]

theorem renderFields_eq_map (fields : List (String × Value)) :
    renderFields fields = fields.map fun f => f.1 ++ ": " ++ f.2.render := by
  induction fields with
  | nil => rfl
  | cons f fields ih => rw [renderFields, ih, List.map_cons]

end Value

theorem toList_intercalate_map {α : Type} (blanks : String) (write : α → String) (xs : List α) :
    (blanks.intercalate (xs.map write)).toList =
      blanks.toList.intercalate (xs.map fun x => (write x).toList) := by
  rw [String.toList_intercalate, List.map_map]
  rfl

namespace Value

theorem toList_render_list (items : List Value) : (list items).render.toList =
    '[' :: ([',', ' '].intercalate (items.map fun v => v.render.toList) ++ [']']) := by
  rw [render, renderItems_eq_map, String.toList_append, String.toList_append,
    toList_intercalate_map, List.append_assoc]
  rfl

theorem toList_render_object (fields : List (String × Value)) : (object fields).render.toList =
    '\x7b' :: ([',', ' '].intercalate
      (fields.map fun f => (f.1 ++ ": " ++ f.2.render).toList) ++ ['\x7d']) := by
  rw [render, renderFields_eq_map, String.toList_append, String.toList_append,
    toList_intercalate_map, List.append_assoc]
  rfl

end Value

namespace Grammar

/-- What a value may start with. -/
def startsItem (t : Token) : Bool := t != .punctuator ']'

variable {constant : Bool} {allowed : Allowance}

/-- A name is read as a value whose text is that name. -/
theorem legible_word {s : String} (hs : IsName s) : ∃ v : Value, v.render = s ∧
    Legible startsItem (valueWithin constant) s.toList v Bounded := by
  have hread {v : Value} (hv : (if s = "true" then .boolean true
      else if s = "false" then .boolean false
      else if s = "null" then .null
      else .enum s) = v) :
      Legible startsItem (valueWithin constant) s.toList v Bounded := by
    refine legible_of_succ (.name s) [] rfl fun {k rest} _ hrest => .peek ?_
    have hp : (if s = "true" then Pure.pure (.boolean true)
        else if s = "false" then Pure.pure (.boolean false)
        else if s = "null" then Pure.pure .null
        else Pure.pure (.enum s) : Parser Value) = Pure.pure v := by
      rw [← hv]
      split
      · rfl
      split
      · rfl
      split <;> rfl
    refine (Reads.skip (starts_word (.name hs) hrest)).bind (k := fun _ => _) ?_
    rw [hp]
    exact .pure v rest
  by_cases htrue : s = "true"
  · exact ⟨.boolean true, by rw [htrue]; rfl, hread (by rw [if_pos htrue])⟩
  by_cases hfalse : s = "false"
  · exact ⟨.boolean false, by rw [hfalse]; rfl, hread (by rw [if_neg htrue, if_pos hfalse])⟩
  by_cases hnull : s = "null"
  · exact ⟨.null, by rw [hnull]; rfl, hread (by rw [if_neg htrue, if_neg hfalse, if_pos hnull])⟩
  · exact ⟨.enum s, rfl, hread (by rw [if_neg htrue, if_neg hfalse, if_neg hnull])⟩

theorem legible_list {items : List Value} {read : Value → Value}
    (hitems : ∀ v ∈ items,
      Legible startsItem (valueWithin constant) v.render.toList (read v) Bounded) :
    Legible startsItem (valueWithin constant) (Value.list items).render.toList
      (.list (items.map read)) Bounded := by
  obtain ⟨used, hmany⟩ := reads_many_intercalate
    (show ∀ c ∈ [',', ' '], isGap c = true by simp [isGap]) hitems fun _ _ _ _ => bounded_cons rfl _
  refine legible_of_succ (.punctuator '[') (used ++ [Token.punctuator ']']) rfl
    fun {k rest} hk _ => .peek ?_
  rw [List.length_append, List.length_singleton] at hk
  have hinner := @hmany k (']' :: rest) (by omega) (bounded_cons rfl _)
    (stops_mark rfl rfl (lead_mark rfl _))
  rw [Value.toList_render_list, List.cons_append, List.append_assoc]
  exact (Reads.skip (starts_mark rfl _)).bind
    (hinner.bind ((Reads.mark rfl rest).bind (.pure _ rest)))

/-- A field of an object value, read with the fuel of its value. -/
theorem legible_objectField {name : String} {v read : Value} (hname : IsName name)
    (hvalue : Legible startsItem (valueWithin constant) v.render.toList read Bounded) :
    Legible Parser.isName (fun n => do
        let k ← Parser.name
        Parser.mark ':'
        let v ← valueWithin constant n
        pure (k, v)) (name ++ ": " ++ v.render).toList (name, read) Bounded := by
  obtain ⟨t, used, -, hread⟩ := hvalue
  refine ⟨.name name, [Token.punctuator ':'] ++ (t :: used ++ []), rfl,
    fun {n rest} hn hrest => ?_⟩
  simp only [List.length_append, List.length_cons, List.length_nil] at hn
  rw [String.toList_append, String.toList_append, List.append_assoc, List.append_assoc]
  exact (Reads.name hname (bounded_cons rfl _)).bind ((Reads.mark rfl _).bind
    ((Reads.gap rfl (hread (by omega) hrest)).bind (.pure _ rest)))

/-- Fields that are printed in the order of their names are read back in it. -/
theorem legible_object {fields : List (String × Value)} {read : String × Value → Value}
    (hnames : ∀ f ∈ fields, IsName f.1) (hsorted : fields.Pairwise fun e f => e.1 < f.1)
    (hvalues : ∀ f ∈ fields,
      Legible startsItem (valueWithin constant) f.2.render.toList (read f) Bounded) :
    Legible startsItem (valueWithin constant) (Value.object fields).render.toList
      (.object (fields.map fun f => (f.1, read f))) Bounded := by
  obtain ⟨used, hmany⟩ := reads_many_intercalate
    (show ∀ c ∈ [',', ' '], isGap c = true by simp [isGap])
    (fun f hf => legible_objectField (hnames f hf) (hvalues f hf))
    fun _ _ _ _ => bounded_cons rfl _
  have hfields : Value.ofFields (fields.map fun f => (f.1, read f)) =
      .object (fields.map fun f => (f.1, read f)) := by
    rw [Value.ofFields, Text.byName_sorted]
    exact List.pairwise_map.mpr hsorted
  refine legible_of_succ (.punctuator '\x7b') (used ++ ([Token.punctuator '\x7d'] ++ []))
    rfl fun {k rest} hk _ => .peek ?_
  simp only [List.length_append, List.length_cons, List.length_nil] at hk
  have hmembers := @hmany k ('\x7d' :: rest) (by omega) (bounded_cons rfl _)
    (stops_mark rfl rfl (lead_mark rfl _))
  rw [Value.toList_render_object, List.cons_append (a := '\x7b'),
    List.append_assoc (List.intercalate _ _)]
  refine (Reads.skip (starts_mark rfl _)).bind (hmembers.bind ((Reads.mark rfl rest).bind ?_))
  rw [hfields]
  exact .pure _ rest

section Floats

variable (hfloats : allowed.IsReadable)

include hfloats

theorem legible_valueWithin {v : Value} {n : Nat} (h : v.Permitted allowed constant n) :
    ∃ v' : Value, v'.render = v.render ∧
      Legible startsItem (valueWithin constant) v.render.toList v' Bounded := by
  induction h with
  | @var _ name hconstant hname =>
    refine ⟨.var name, rfl, legible_of_succ (.punctuator '$') [Token.name name] rfl
      fun {k rest} _ hrest => .peek ?_⟩
    show Reads _ (if constant = true then Parser.failHere
      else do Parser.skip; Value.var <$> Parser.name) _ _ _
    rw [if_neg (by simp [hconstant]), Value.render, String.toList_append]
    exact (Reads.skip (starts_mark rfl _)).bind (.map _ (.name hname hrest))
  | @int _ i hi =>
    refine ⟨.int i, rfl, legible_of_succ (.int i) [] rfl fun _ hrest => .peek ?_⟩
    exact (Reads.skip (starts_word (.int hi) hrest)).bind (.pure _ _)
  | @float _ x hx =>
    have hreadable := hfloats x hx
    cases hfinite : x.isInfinite with
    | false =>
      refine ⟨.float x, rfl, legible_of_succ (.float x) [] rfl fun _ hrest => .peek ?_⟩
      exact (Reads.skip (starts_word (.float hreadable hfinite) hrest)).bind (.pure _ _)
    | true =>
      -- The positive infinity is written as a name, and read as one.
      rw [Value.render, Binary64.render_infinite hreadable hfinite]
      exact legible_word (by decide)
  | string s =>
    refine ⟨.string s, rfl, legible_of_succ (.string s) [] rfl
      fun _ hrest => .peek ?_⟩
    exact (Reads.skip (starts_word (.string s) hrest)).bind (.pure _ _)
  | boolean b =>
    cases b with
    | true => exact legible_word (by decide)
    | false => exact legible_word (by decide)
  | null => exact legible_word (by decide)
  | enum hname => exact legible_word hname
  | @list _ items _ hitems ih =>
    -- What each item is read as may differ from it in the kind of a name, not in its text.
    choose! read hrender hread using ih
    refine ⟨.list (items.map read), ?_, legible_list hread⟩
    have htexts : (items.map read).map Value.render = items.map Value.render := by
      rw [List.map_map]
      exact List.map_congr_left hrender
    simp only [Value.render, Value.renderItems_eq_map, htexts]
  | @object _ fields _ hnames hsorted hvalues ih =>
    choose! read hrender hread using ih
    refine ⟨.object (fields.map fun f => (f.1, read f)), ?_, legible_object hnames hsorted hread⟩
    have htexts : (fields.map fun f => (f.1, read f)).map
        (fun f => f.1 ++ ": " ++ f.2.render) = fields.map fun f => f.1 ++ ": " ++ f.2.render := by
      rw [List.map_map]
      apply List.map_congr_left
      intro f hf
      show f.1 ++ ": " ++ (read f).render = _
      rw [hrender f hf]
    simp only [Value.render, Value.renderFields_eq_map, htexts]

/-- The text of a value is read as one with the same text. -/
theorem legible_value {text : String} {n : Nat} (h : IsPermittedText allowed constant n text) :
    ∃ v : Value, v.render = text ∧
      Legible startsItem (fun _ => value constant) text.toList v Bounded := by
  obtain ⟨v, hv, rfl⟩ := h
  obtain ⟨v', hrender, hread⟩ := legible_valueWithin hfloats hv
  exact ⟨v', hrender, hread.fueled⟩

end Floats

/-- The first part of a type: a name, or brackets around a type. -/
def bareWithin : Nat → Parser TypeReference
  | 0 => Parser.failHere
  | n + 1 => do
      if ← Parser.accept (.punctuator '[') then
        let item ← typeWithin n
        Parser.mark ']'
        pure (.list item)
      else .named <$> Parser.name

theorem typeWithin_succ (n : Nat) : typeWithin (n + 1) = (do
    let t ← bareWithin (n + 1)
    if ← Parser.accept (.punctuator '!') then pure (.nonNull t) else pure t) := by
  rw [typeWithin, bareWithin]
  simp only [bind_assoc]
  refine bind_congr fun bracket => ?_
  cases bracket <;> simp

theorem legible_of_bare {text : List Char} {t : TypeReference}
    (h : Legible (fun _ => true) bareWithin text t Bounded) :
    Legible (fun _ => true) typeWithin text t (Avoids ["!"]) ∧
      Legible (fun _ => true) typeWithin (text ++ ['!']) (.nonNull t) (Avoids ["!"]) := by
  obtain ⟨first, used, -, hbare⟩ := h
  constructor
  · refine legible_of_succ first (used ++ ([] ++ [])) rfl fun {k rest} hk hrest => ?_
    simp only [List.append_nil] at hk
    rw [typeWithin_succ]
    have hmark : lead rest ≠ ['!'] := hrest.2 "!" (by decide)
    exact (hbare (by omega) hrest.1).bind ((Reads.not_accept hmark).bind (.pure _ rest))
  · refine legible_of_succ first (used ++ ([Token.punctuator '!'] ++ [])) rfl
      fun {k rest} hk hrest => ?_
    simp only [List.length_append, List.length_cons, List.length_nil] at hk
    rw [typeWithin_succ, List.append_assoc]
    have hhead := @hbare (k + 1) ('!' :: rest) (by omega) (bounded_cons rfl _)
    exact hhead.bind ((Reads.accept (starts_mark rfl rest)).bind (.pure _ rest))

theorem legible_typeWithin {t : TypeReference} (h : t.IsProper) :
    (t.isNonNull = false → Legible (fun _ => true) bareWithin t.render.toList t Bounded) ∧
      Legible (fun _ => true) typeWithin t.render.toList t (Avoids ["!"]) := by
  induction h with
  | @named name hname =>
    have hbare : Legible (fun _ => true) bareWithin name.toList (.named name) Bounded := by
      refine legible_of_succ (.name name) [] rfl fun _ hrest => ?_
      exact (Reads.not_accept (lead_name_ne hname rfl hrest)).bind (.map _ (.name hname hrest))
    exact ⟨fun _ => hbare, (legible_of_bare hbare).1⟩
  | @list item hitem ih =>
    have hbare : Legible (fun _ => true) bareWithin (TypeReference.list item).render.toList
        (.list item) Bounded := by
      obtain ⟨first, used, -, hread⟩ := ih.2
      refine legible_of_succ (.punctuator '[')
        (first :: used ++ ([Token.punctuator ']'] ++ [])) rfl fun {k rest} hk _ => ?_
      simp only [List.length_append, List.length_cons, List.length_nil] at hk
      have hinner := @hread k (']' :: rest) (by omega) (avoids_mark rfl (by decide) rest)
      rw [TypeReference.render, String.toList_append, String.toList_append, List.append_assoc,
        List.append_assoc]
      exact (Reads.accept (starts_mark rfl _)).bind
        (hinner.bind ((Reads.mark rfl rest).bind (.pure _ rest)))
    exact ⟨fun _ => hbare, (legible_of_bare hbare).1⟩
  | @nonNull inner hbare hinner ih =>
    refine ⟨fun h => absurd h (by simp [TypeReference.isNonNull]), ?_⟩
    rw [TypeReference.render, String.toList_append]
    exact (legible_of_bare (ih.1 hbare)).2

theorem legible_type {t : TypeReference} (h : t.IsProper) :
    Legible (fun _ => true) (fun _ => type) t.render.toList t (Avoids ["!"]) :=
  (legible_typeWithin h).2.fueled

end Grammar

end Sdl

end GraphSchema
