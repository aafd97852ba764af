/-!
# Entries by name

Lists of named entries in the order of the names, each name once.
-/

namespace GraphSchema.Text

variable {α : Type}

/-- Puts an entry among entries in the order of their names, in place of one of that name. -/
def insertByName (name : String) (value : α) : List (String × α) → List (String × α)
  | [] => [(name, value)]
  | (k, v) :: r =>
      if name < k then (name, value) :: (k, v) :: r
      else if name = k then (name, value) :: r
      else (k, v) :: insertByName name value r

/-- The entries by name. Of several with one name the last one stands. -/
def byName (entries : List (String × α)) : List (String × α) :=
  entries.foldl (fun sorted (k, v) => insertByName k v sorted) []

end GraphSchema.Text
