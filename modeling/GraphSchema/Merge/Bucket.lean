import Std.Data.TreeMap.Basic

/-!
# Buckets

Entries under names, in the order in which they were first seen, each with the
origin it came from. A name is taken by its first entry: an equal item under it
is a duplicate, and any other one is a conflict with the origin of the first.
-/

namespace GraphSchema.Merge

/-- An item and where it came from. -/
structure Bucket.Entry (α : Type) where
  item : α
  origin : String
deriving DecidableEq, Repr

/-- Entries in first-seen order, with the positions of their names. -/
structure Bucket (α : Type) where
  entries : Array (Bucket.Entry α)
  positions : Std.TreeMap String Nat

namespace Bucket

variable {α : Type}

/-- The bucket without entries. -/
def empty : Bucket α := ⟨#[], {}⟩

instance : Inhabited (Bucket α) := ⟨empty⟩

/-- The entry under a name. -/
def find? (b : Bucket α) (name : String) : Option (Entry α) :=
  b.positions[name]?.bind fun i => b.entries[i]?

/-- What becomes of an item that is put into a bucket. -/
inductive Outcome where
  | inserted
  | duplicate
  /-- Another item stands under the name; it came from `first`. -/
  | conflict (first : String)
deriving DecidableEq, Repr

/-- Puts an item under a name, unless the name is taken. -/
def insert [DecidableEq α] (b : Bucket α) (name : String) (item : α) (origin : String) :
    Outcome × Bucket α :=
  match b.find? name with
  | some e => (if e.item = item then .duplicate else .conflict e.origin, b)
  | none =>
      (.inserted, ⟨b.entries.push ⟨item, origin⟩, b.positions.insert name b.entries.size⟩)

/-- The origin of the entry under a name. -/
def originOf? (b : Bucket α) (name : String) : Option String := (b.find? name).map (·.origin)

/-- The origin of the first entry. -/
def firstOrigin? (b : Bucket α) : Option String := b.entries[0]?.map (·.origin)

/-- The items in first-seen order. -/
def items (b : Bucket α) : List α := b.entries.toList.map (·.item)

end Bucket

end GraphSchema.Merge
