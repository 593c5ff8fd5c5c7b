/-!
JSON values as they were written: the members of an object stand in order and may repeat a name,
numbers keep their digits, and a string whose escapes leave half of a pair has no text.
-/

namespace RangeQuery

/-- A JSON value. -/
inductive Json where
  | null
  | bool (value : Bool)
  | number (digits : String)
  | string (text : Option String)
  | array (items : List Json)
  | object (members : List (Option String × Json))
deriving Inhabited

namespace Json

/-- The truth value of a literal. -/
def bool? : Json → Option Bool
  | .bool value => some value
  | _ => none

/-- The text of a string that has one. -/
def string? : Json → Option String
  | .string text => text
  | _ => none

/-- The items of an array. -/
def array? : Json → Option (List Json)
  | .array items => some items
  | _ => none

/-- The members of an object whose names all have a text. -/
def members? : Json → Option (List (String × Json))
  | .object members => members.mapM fun member => member.1.map fun name => (name, member.2)
  | _ => none

end Json

end RangeQuery
