import GraphSchema.Proofs.Toml.Values

/-!
# TOML documents are read back

A document that consists of tables, each with a header and a line for every entry, is read line by
line. The table that is open is the last one below the table that its header goes through, and every
line puts an entry at its end.
-/

namespace GraphSchema.Toml

namespace Node

variable {entries before : Entries} {k : String}

theorem put_append (h : before.lookup k = none) (n : Node) (after : Entries) :
    put k n (before ++ after) = before ++ put k n after := by
  induction before with
  | nil => rfl
  | cons e r ih =>
    obtain ⟨key, node⟩ := e
    rw [List.lookup_cons] at h
    split at h
    · exact absurd h (by simp)
    · next hne =>
      have hkey : key ≠ k := fun heq => by simp [heq] at hne
      rw [List.cons_append, put, if_neg hkey, ih h]
      rfl

theorem put_new (h : entries.lookup k = none) (n : Node) :
    put k n entries = entries ++ [(k, n)] := by
  simpa [put] using put_append h n []

theorem put_last (h : before.lookup k = none) (n m : Node) :
    put k n (before ++ [(k, m)]) = before ++ [(k, n)] := by
  simpa [put] using put_append h n [(k, m)]

theorem lookup_last (h : before.lookup k = none) (n : Node) :
    (before ++ [(k, n)]).lookup k = some n := by
  rw [List.lookup_append, h]
  simp

/-- A path may be followed in two stages. -/
theorem alter_append (change : Entries → Option Entries) (path more : List String)
    (entries : Entries) :
    alter change (path ++ more) entries = alter (alter change more) path entries := by
  induction path generalizing entries with
  | nil => rfl
  | cons k path ih =>
    rw [List.cons_append, alter, alter]
    simp only [ih]

end Node

/-- A path leads into entries at one place, which is filled by `build`. -/
def Leads (path : List String) (build : Node.Entries → Node.Entries) : Prop :=
  ∀ change inner, Node.alter change path (build inner) = (change inner).map build

theorem leads_nil : Leads [] id := by
  intro change inner
  simp [Node.alter]

variable {path : List String} {build : Node.Entries → Node.Entries} {inner : Node.Entries}

/-- The path goes on to the last table at the place. -/
theorem Leads.last (h : Leads path build) {k : String} (hnew : inner.lookup k = none) :
    Leads (path ++ [k]) fun es => build (inner ++ [(k, .table .header es)]) := by
  intro change es
  have hlast : Node.alter change [k] (inner ++ [(k, .table .header es)]) =
      (change es).map fun es => inner ++ [(k, .table .header es)] := by
    rw [Node.alter, Node.lookup_last hnew]
    simp only [Node.alter, Node.put_last hnew]
    cases change es <;> rfl
  rw [Node.alter_append, h, hlast, Option.map_map]
  rfl

theorem Leads.openHeader (h : Leads path build) {k : String} (hnew : inner.lookup k = none)
    (opened : List String) :
    Progress.openHeader ⟨build inner, opened⟩ false path k =
      some ⟨build (inner ++ [(k, .table .header [])]), path ++ [k]⟩ := by
  have hopen : Node.openTable k inner = some (inner ++ [(k, .table .header [])]) := by
    rw [Node.openTable, hnew]
    simp only [Node.put_new hnew]
  rw [Progress.openHeader, if_neg (by decide), h, hopen]
  rfl

theorem Leads.enter (h : Leads path build) {k : String} (hnew : inner.lookup k = none)
    (v : Value) :
    Progress.enter ⟨build inner, path⟩ [] k v = some ⟨build (inner ++ [(k, .value v)]), path⟩ := by
  have hput : Node.putDotted [] k v inner = some (inner ++ [(k, .value v)]) := by
    rw [Node.putDotted, hnew, Node.put_new hnew]
    rfl
  rw [Progress.enter, h, hput]
  rfl

/-- Reading lines leads from a place of a document to another one. Each line takes one step, so
that the steps that are left are enough for the text that is left. -/
def Reads (p : Progress) (cs : List Char) (q : Progress) (rest : List Char) : Prop :=
  ∀ n, cs.length < n → ∃ m, rest.length < m ∧ Reader.lines n p cs = Reader.lines m q rest

namespace Reads

variable {p q r : Progress} {cs ds rest : List Char}

theorem trans (h : Reads p cs q ds) (hmore : Reads q ds r rest) : Reads p cs r rest := by
  intro n hn
  obtain ⟨m, hm, hlines⟩ := h n hn
  obtain ⟨l, hl, hrest⟩ := hmore m hm
  exact ⟨l, hl, hlines.trans hrest⟩

theorem line (hshort : rest.length < cs.length)
    (h : ∀ n, Reader.lines (n + 1) p cs = Reader.lines n q rest) : Reads p cs q rest := by
  intro n hn
  obtain ⟨n, rfl⟩ := Nat.exists_eq_succ_of_ne_zero (by omega : n ≠ 0)
  exact ⟨n, by omega, h n⟩

/-- What is read to its end gives the whole document. -/
theorem run (h : Reads p cs q []) : (Reader.lines (cs.length + 1) p).run cs = some (q, []) := by
  obtain ⟨m, hm, hlines⟩ := h (cs.length + 1) (Nat.lt_succ_self _)
  obtain ⟨m, rfl⟩ := Nat.exists_eq_succ_of_ne_zero (by omega : m ≠ 0)
  exact hlines.trans rfl

theorem blank (p : Progress) (rest : List Char) : Reads p ('\n' :: rest) p rest :=
  line (Nat.lt_succ_self _) fun _ => rfl

theorem header (h : Leads path build) {k : String} (hnew : inner.lookup k = none)
    (hcs : Reader.header ('[' :: cs) = some ((false, path, k), '\n' :: rest))
    (hshort : rest.length < cs.length) (opened : List String) :
    Reads ⟨build inner, opened⟩ ('[' :: cs)
      ⟨build (inner ++ [(k, .table .header [])]), path ++ [k]⟩ rest := by
  refine line (Nat.lt_succ_of_lt hshort) fun n => ?_
  rw [Reader.lines, Reader.bind_eq (Reader.space_solid (Reader.solid_cons rfl _)),
    Reader.bind_eq (show Reader.peek ('[' :: cs) = some (some '[', '[' :: cs) from rfl)]
  show (Reader.header >>= _) _ = _
  rw [Reader.bind_eq hcs]
  show (Reader.restOfLine >>= _) _ = _
  rw [Reader.bind_eq (show Reader.restOfLine ('\n' :: rest) = some ((), rest) from rfl),
    h.openHeader hnew]
  rfl

end Reads

/-- An entry of a table, and the text that its value is read from. -/
structure Entry where
  key : String
  text : String
  value : Value
  solid : ∀ rest, Reader.Solid (text.toList ++ '\n' :: rest)
  reads : ∀ rest, Reader.valueWithin Reader.limit (text.toList ++ '\n' :: rest) =
    some (value, '\n' :: rest)

namespace Entry

/-- The entry in a table under construction. -/
def node (e : Entry) : String × Node := (e.key, .value e.value)

/-- The line of the entry. -/
def line (e : Entry) : List Char := (entry e.key e.text).toList

/-- An entry with a string. -/
def ofString (key s : String) : Entry where
  key := key
  text := quote s
  value := .string s
  solid _ := Reader.solid_quote s _
  reads rest := Reader.valueWithin_quote _ s (Reader.endsString_mark (.inr (.inr rfl)) rest)

/-- An entry with a flag. -/
def ofFlag (key : String) (b : Bool) : Entry where
  key := key
  text := if b then "true" else "false"
  value := .boolean b
  solid _ := by cases b <;> exact Reader.solid_cons rfl _
  reads rest := Reader.valueWithin_flag b rest

/-- An entry with an array of strings. -/
def ofStrings (key : String) (ss : List String) : Entry where
  key := key
  text := quoteAll ss
  value := .array (ss.map .string)
  solid _ := by
    unfold quoteAll
    split <;> simp [Reader.Solid, isSpace]
  reads rest := Reader.valueWithin_quoteAll _ ss _

end Entry

/-- The text of a table: its header, with what stands between the brackets, and its entries. -/
def tableText (head : List Char) (es : List Entry) : List Char :=
  '[' :: (head ++ ']' :: '\n' :: es.flatMap Entry.line)

namespace Reads

/-- A line that does not start like another kind of line starts with a key. -/
theorem lines_key {cs : List Char} (hsolid : Reader.Solid cs) (hne : cs ≠ [])
    (hcs : ∀ c ∈ ['#', '\n', '\r', '['], cs.head? ≠ some c) (n : Nat) (p : Progress) :
    Reader.lines (n + 1) p cs = (do
      let (path, last) ← Reader.key
      Reader.space
      Reader.char '='
      Reader.space
      let v ← Reader.valueWithin Reader.limit
      Reader.restOfLine
      let p ← StateT.lift (p.enter path last v)
      Reader.lines n p : Reader Progress) cs := by
  rw [Reader.lines, Reader.bind_eq (Reader.space_solid hsolid),
    Reader.bind_eq (show Reader.peek cs = some (cs.head?, cs) from rfl)]
  refine congrFun ?_ cs
  split
  · next h => exact absurd (List.head?_eq_none_iff.mp h) hne
  · next h => exact absurd h (hcs '#' (by simp))
  · next h => exact absurd h (hcs '\n' (by simp))
  · next h => exact absurd h (hcs '\r' (by simp))
  · next h => exact absurd h (hcs '[' (by simp))
  · rfl

theorem entry (h : Leads path build) (e : Entry) (hnew : inner.lookup e.key = none)
    (rest : List Char) :
    Reads ⟨build inner, path⟩ (e.line ++ rest) ⟨build (inner ++ [e.node]), path⟩ rest := by
  have hline : e.line ++ rest =
      (quoteKey e.key).toList ++ ' ' :: '=' :: ' ' :: (e.text.toList ++ '\n' :: rest) := by
    simp [Entry.line, Toml.entry]
  have hends : Reader.EndsKey (' ' :: '=' :: ' ' :: (e.text.toList ++ '\n' :: rest)) := by
    simp [Reader.EndsKey, Reader.isBare, isSpace]
  have hblank : Reader.space (' ' :: (e.text.toList ++ '\n' :: rest)) =
      some ((), e.text.toList ++ '\n' :: rest) := by
    rw [← Reader.space_solid (e.solid rest)]
    rfl
  refine line (by simp [hline]; omega) fun n => ?_
  rw [hline, lines_key (Reader.solid_quoteKey e.key _) (by simp) fun c hc => ?_]
  · rw [Reader.bind_eq (Reader.key_single e.key hends)]
    show (Reader.space >>= _) ('=' :: ' ' :: (e.text.toList ++ '\n' :: rest)) = _
    rw [Reader.bind_eq (Reader.space_solid (Reader.solid_cons rfl _)),
      Reader.bind_eq (Reader.char_self '=' _), Reader.bind_eq hblank,
      Reader.bind_eq (e.reads rest),
      Reader.bind_eq (show Reader.restOfLine ('\n' :: rest) = some ((), rest) from rfl),
      h.enter hnew]
    rfl
  · refine Reader.head?_quoteKey_ne e.key _ ?_
    simp only [List.mem_cons, List.not_mem_nil, or_false] at hc
    rcases hc with rfl | rfl | rfl | rfl <;> decide

/-- The entries of a table are put behind those that are there. -/
theorem entries (h : Leads path build) (es : List Entry) {inner : Node.Entries}
    (hnew : ∀ e ∈ es, inner.lookup e.key = none) (hnodup : (es.map (·.key)).Nodup)
    (rest : List Char) :
    Reads ⟨build inner, path⟩ (es.flatMap Entry.line ++ rest)
      ⟨build (inner ++ es.map Entry.node), path⟩ rest := by
  induction es generalizing inner with
  | nil =>
    rw [List.map_nil, List.append_nil]
    exact fun n hn => ⟨n, hn, rfl⟩
  | cons e es ih =>
    obtain ⟨hfresh, hnodup⟩ := List.nodup_cons.mp hnodup
    have hnext : ∀ f ∈ es, (inner ++ [e.node]).lookup f.key = none := by
      intro f hf
      have hne : (f.key == e.key) = false :=
        beq_false_of_ne fun heq => hfresh (List.mem_map.mpr ⟨f, hf, heq⟩)
      rw [List.lookup_append, hnew f (List.mem_cons_of_mem e hf)]
      simp [Entry.node, List.lookup_cons, hne]
    have hmore := ih hnext hnodup
    rw [List.append_assoc, List.singleton_append] at hmore
    rw [List.flatMap_cons, List.append_assoc]
    exact (entry h e (hnew e List.mem_cons_self) _).trans hmore

/-- A header and the entries below it make a table, which is open from then on. -/
theorem table (h : Leads path build) {k : String} (hnew : inner.lookup k = none) {head : List Char}
    (hhead : ∀ behind, Reader.header ('[' :: (head ++ ']' :: behind)) =
      some ((false, path, k), behind)) {es : List Entry} (hnodup : (es.map (·.key)).Nodup)
    (opened : List String) (rest : List Char) :
    Reads ⟨build inner, opened⟩ (tableText head es ++ rest)
      ⟨build (inner ++ [(k, .table .header (es.map Entry.node))]), path ++ [k]⟩ rest := by
  have hheader := header h hnew (hhead ('\n' :: (es.flatMap Entry.line ++ rest)))
    (by simp only [List.length_append, List.length_cons]; omega) opened
  rw [tableText, List.cons_append, List.append_assoc, List.cons_append, List.cons_append]
  exact hheader.trans (entries (h.last hnew) es (fun e _ => rfl) hnodup rest)

end Reads

/-- A text that is read to its end says the entries that are read. -/
theorem parse_of_reads {text : String} {entries : Node.Entries} {opened : List String}
    (hmark : text.toList.head? ≠ some '\uFEFF')
    (h : Reads ⟨[], []⟩ text.toList ⟨entries, opened⟩ []) :
    parse text = some (Node.toEntries entries) := by
  unfold parse
  split
  · next r heq => exact absurd (by rw [heq]; rfl) hmark
  · exact congrArg (Option.map fun read => Node.toEntries read.1.entries) h.run

end GraphSchema.Toml
