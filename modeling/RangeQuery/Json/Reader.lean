import RangeQuery.Json.Token

/-!
Reading JSON text. The reader is a machine that takes one word at a time: it knows what may come
next, and keeps the containers that are still open, the innermost first.
-/

namespace RangeQuery.Json

/-- A container part way through, with what was read of it, the latest first. -/
inductive Frame where
  | array (items : List Json)
  /-- An object also keeps the name that was read last. -/
  | object (members : List (Option String × Json)) (name : Option String)

/-- What the reader waits for. -/
inductive Expected where
  /-- A value. -/
  | value
  /-- A value, or the end of the array that was just opened. -/
  | firstItem
  /-- The name of a member. -/
  | name
  /-- The name of a member, or the end of the object that was just opened. -/
  | firstName
  /-- The colon behind a name. -/
  | colon
  /-- A comma, or the end of the innermost container. -/
  | separator
  /-- Nothing more. -/
  | nothing (value : Json)

/-- Where the reader stands. -/
structure Reader where
  frames : List Frame
  expected : Expected

namespace Reader

/-- The reader before the first word. -/
def start : Reader := { frames := [], expected := .value }

/-- Go on behind a complete value. -/
def deliver (value : Json) : List Frame → Reader
  | [] => { frames := [], expected := .nothing value }
  | .array items :: frames => { frames := .array (value :: items) :: frames, expected := .separator }
  | .object members name :: frames =>
    { frames := .object ((name, value) :: members) name :: frames, expected := .separator }

/-- Take a word, if it may come here. -/
def accept? (r : Reader) (word : Token) : Option Reader :=
  match r.expected, word, r.frames with
  | .value, .scalar value, frames | .firstItem, .scalar value, frames =>
    some (deliver value frames)
  | .value, .openArray, frames | .firstItem, .openArray, frames =>
    some { frames := .array [] :: frames, expected := .firstItem }
  | .value, .openObject, frames | .firstItem, .openObject, frames =>
    some { frames := .object [] none :: frames, expected := .firstName }
  | .firstItem, .closeArray, .array items :: frames
  | .separator, .closeArray, .array items :: frames =>
    some (deliver (.array items.reverse) frames)
  | .name, .scalar (.string name), .object members _ :: frames
  | .firstName, .scalar (.string name), .object members _ :: frames =>
    some { frames := .object members name :: frames, expected := .colon }
  | .firstName, .closeObject, .object members _ :: frames
  | .separator, .closeObject, .object members _ :: frames =>
    some (deliver (.object members.reverse) frames)
  | .colon, .colon, frames => some { frames, expected := .value }
  | .separator, .comma, .array items :: frames =>
    some { frames := .array items :: frames, expected := .value }
  | .separator, .comma, .object members name :: frames =>
    some { frames := .object members name :: frames, expected := .name }
  | _, _, _ => none

/-- The value read, if it is complete. -/
def value? (r : Reader) : Option Json :=
  match r.expected with
  | .nothing value => some value
  | _ => none

/-- The blanks that may stand between words. -/
def isBlank (c : Char) : Bool := c = ' ' || c = '\n' || c = '\r' || c = '\t'

/-- Read the words of a text, at most a number of words and blanks. -/
def run : Nat → List Char → Reader → Option Json
  | 0, _, _ => none
  | _ + 1, [], r => r.value?
  | steps + 1, c :: text, r =>
    if isBlank c then run steps text r
    else match Token.next? (c :: text) with
      | none => none
      | some (word, rest) =>
        match r.accept? word with
        | none => none
        | some r => run steps rest r

end Reader

/-- The value a text holds: one value, with blanks around its words and nothing behind it. A word
has a character at least, so there are no more words than characters. -/
def parse? (text : String) : Option Json :=
  let chars := text.toList
  Reader.run (chars.length + 1) chars .start

end RangeQuery.Json
