import GraphSchema.Decimal.Shortest
import GraphSchema.Sdl.Quoted
import GraphSchema.Text.ByName

/-!
# Values

The values that defaults and directive arguments have, and their text. The
fields of an object stand in the order of their names, each name once.
-/

namespace GraphSchema.Sdl

/-- A value of schema text. -/
inductive Value where
  | var (name : String)
  | int (value : Int)
  | float (value : Binary64)
  | string (value : String)
  | boolean (value : Bool)
  | null
  | enum (name : String)
  | list (items : List Value)
  | object (fields : List (String × Value))
deriving Inhabited, Repr

namespace Value

/-- The object of some fields. Of fields with one name the last one counts. -/
def ofFields (fields : List (String × Value)) : Value :=
  object (Text.byName fields)

mutual

/-- The text of a value. -/
def render : Value → String
  | var name => "$" ++ name
  | int n => toString n
  | float x => x.render
  | string s => Quoted.quote s
  | boolean b => if b then "true" else "false"
  | null => "null"
  | enum name => name
  | list items => "[" ++ ", ".intercalate (renderItems items) ++ "]"
  | object fields => "\x7b" ++ ", ".intercalate (renderFields fields) ++ "\x7d"

/-- The texts of the items of a list. -/
def renderItems : List Value → List String
  | [] => []
  | v :: r => render v :: renderItems r

/-- The texts of the fields of an object. -/
def renderFields : List (String × Value) → List String
  | [] => []
  | (k, v) :: r => (k ++ ": " ++ render v) :: renderFields r

end

end Value

end GraphSchema.Sdl
