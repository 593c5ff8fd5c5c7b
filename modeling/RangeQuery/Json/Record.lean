import RangeQuery.Json.Reader

/-!
Records in JSON: an object with members under the names of the fields, or an array with the values
of the fields in order. A record may leave fields out, but an object may not give one twice.
-/

namespace RangeQuery

/-- Why a document could not be used. -/
inductive DocumentError where
  /-- There is no document. -/
  | unreadable
  /-- The document does not hold what was expected. -/
  | malformed
deriving DecidableEq

namespace Json

/-- The value of a field among the members of an object; none of two values. -/
def field? (members : List (String × Json)) (name : String) : Option (Option Json) :=
  match members.filter fun member => member.1 == name with
  | [] => some none
  | [member] => some (some member.2)
  | _ => none

/-- The values of the named fields of a record, in the order of the names. Other members of an
object are skipped; an array has no more items than there are fields. -/
def fields? (names : List String) : Json → Option (List (Option Json))
  | .object members => do
    let members ← (Json.object members).members?
    names.mapM (field? members)
  | .array items =>
    if items.length ≤ names.length then
      some (items.map some ++ List.replicate (names.length - items.length) none)
    else none
  | _ => none

/-- The value of a field that may be left out. -/
def readOr {α : Type} (standard : α) (read : Json → Option α) : Option Json → Option α
  | some value => read value
  | none => some standard

/-- The value of a field that must be there. -/
def readField {α : Type} (read : Json → Option α) (value : Option Json) : Option α :=
  value.bind read

/-- What a document that may be missing holds. -/
def readDocument {α : Type} (read : Json → Option α) : Option String → Except DocumentError α
  | none => .error .unreadable
  | some text =>
    match (parse? text).bind read with
    | some value => .ok value
    | none => .error .malformed

end Json

end RangeQuery
