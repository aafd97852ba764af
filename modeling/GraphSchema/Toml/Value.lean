/-!
# TOML values

What a TOML document says, a table of named values. Numbers with a fraction are
kept as they are spelled, dates and times in the one spelling that each has.
-/

namespace GraphSchema.Toml

/-- A TOML value. -/
inductive Value where
  | string (value : String)
  | integer (value : Int)
  | float (literal : String)
  | boolean (value : Bool)
  /-- A date, a time, or both. -/
  | date (spelling : String)
  | array (items : List Value)
  | table (entries : List (String × Value))
deriving Inhabited, Repr

end GraphSchema.Toml
