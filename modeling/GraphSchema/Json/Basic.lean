/-!
# JSON values

An object keeps its members in order, repeated keys included, so that a reader
of a record can refuse a key given twice. A number that is not a plain natural
number is kept as the text that spells it. Escapes can spell half of a surrogate
pair, which no text has; what it makes unreadable stands apart, as it does no
harm in a member that is passed over.

A record may be written as an object or as the list of its values. Both come
down to members, which are then read one by one.
-/

namespace GraphSchema

/-- A JSON value. -/
inductive Json where
  | null
  | bool (value : Bool)
  /-- A number written with digits alone. -/
  | natural (value : Nat)
  /-- Any other number, as it is spelled. -/
  | number (literal : String)
  | string (value : String)
  /-- A string that is no text, or an object with such a key. -/
  | unreadable
  | array (items : List Json)
  | object (members : List (String × Json))
deriving Inhabited, Repr, BEq

namespace Json

mutual

/-- How many arrays and objects are open at the deepest place of a value. -/
def depth : Json → Nat
  | .array items => depthOfItems items + 1
  | .object members => depthOfMembers members + 1
  | _ => 0

/-- The greatest depth among the items of an array. -/
def depthOfItems : List Json → Nat
  | [] => 0
  | v :: r => max (depth v) (depthOfItems r)

/-- The greatest depth among the members of an object. -/
def depthOfMembers : List (String × Json) → Nat
  | [] => 0
  | (_, v) :: r => max (depth v) (depthOfMembers r)

end

/-- The text of a string value. -/
def string? : Json → Option String
  | .string s => some s
  | _ => none

/-- The value of a boolean. -/
def bool? : Json → Option Bool
  | .bool b => some b
  | _ => none

/-- The value of a plain natural number below a bound. -/
def naturalBelow? (bound : Nat) : Json → Option Nat
  | .natural n => if n < bound then some n else none
  | _ => none

/-- The items of an array. -/
def array? : Json → Option (List Json)
  | .array items => some items
  | _ => none

/-- The members of an object. -/
def object? : Json → Option (List (String × Json))
  | .object members => some members
  | _ => none

/-- The items of an array, each read by `read`. -/
def arrayOf? {α : Type} (read : Json → Option α) (j : Json) : Option (List α) := do
  (← j.array?).mapM read

/-- A value that may be null. -/
def nullable? {α : Type} (read : Json → Option α) : Json → Option (Option α)
  | .null => some none
  | j => (read j).map some

/-- The members of a record, given its fields. A list has the values of the fields in their
order, and may leave out some at the end. -/
def record? (fields : List String) : Json → Option (List (String × Json))
  | .object members => some members
  | .array items => if items.length ≤ fields.length then some (fields.zip items) else none
  | _ => none

/-- The members of a record of which a list may leave out nothing. -/
def fullRecord? (fields : List String) : Json → Option (List (String × Json))
  | .object members => some members
  | .array items => if items.length = fields.length then some (fields.zip items) else none
  | _ => none

/-- Whether a value is null. -/
def isNull : Json → Bool
  | .null => true
  | _ => false

/-- Whether a value has nothing in it: it is null, or an object without members. -/
def isVoid : Json → Bool
  | .null => true
  | .object members => members.isEmpty
  | _ => false

/-- The name of a case. It may also be the only key of an object, beside a value that stands for
nothing. -/
def case? (isNothing : Json → Bool) : Json → Option String
  | .string s => some s
  | .object [(key, value)] => if isNothing value then some key else none
  | _ => none

/-- An object of the members that are present. -/
def ofPresent (members : List (Option (String × Json))) : Json := .object (members.filterMap id)

/-- The members with a value under a key, in place of one that stands there. -/
def put (members : List (String × Json)) (key : String) (value : Json) : List (String × Json) :=
  match members with
  | [] => [(key, value)]
  | (k, v) :: r => if k = key then (key, value) :: r else (k, v) :: put r key value

/-- How a key stands among the members of an object. -/
inductive Member where
  | absent
  | repeated
  | present (value : Json)

/-- What the members of an object say of a key. -/
def member (members : List (String × Json)) (key : String) : Member :=
  match members.filter (·.1 == key) with
  | [] => .absent
  | [(_, v)] => .present v
  | _ => .repeated

/-- The member under a key that has to stand in the object exactly once. -/
def required {α : Type} (members : List (String × Json)) (key : String) (read : Json → Option α) :
    Option α :=
  match member members key with
  | .present v => read v
  | _ => none

/-- The member under a key that may be left out, but not repeated. -/
def optional {α : Type} (members : List (String × Json)) (key : String) (absent : α)
    (read : Json → Option α) : Option α :=
  match member members key with
  | .absent => some absent
  | .present v => read v
  | .repeated => none

/-- A member that is left out when there is no value. -/
def presentText (key : String) (value : Option String) : Option (String × Json) :=
  value.map fun s => (key, .string s)

/-- A member that is left out when the list is empty. -/
def presentList {α : Type} (key : String) (write : α → Json) (items : List α) :
    Option (String × Json) :=
  if items.isEmpty then none else some (key, .array (items.map write))

/-- A text under a key that may be left out or null. -/
def optionalText (members : List (String × Json)) (key : String) : Option (Option String) :=
  optional members key none (nullable? string?)

/-- A list under a key that may be left out. -/
def optionalList {α : Type} (members : List (String × Json)) (key : String)
    (read : Json → Option α) : Option (List α) :=
  optional members key [] (arrayOf? read)

/-- The first member under a key. -/
def find? (j : Json) (key : String) : Option Json := do (← j.object?).lookup key

end Json

end GraphSchema
