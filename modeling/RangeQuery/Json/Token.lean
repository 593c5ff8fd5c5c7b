import RangeQuery.Json.Value

/-!
The words of JSON text: brackets, separators, and the scalars, which are values by themselves.
Words follow the grammar to the letter: no leading zero, no bare point, no control character
inside a string.
-/

namespace RangeQuery.Json

/-- A word of JSON text. -/
inductive Token where
  | openArray | closeArray | openObject | closeObject | comma | colon
  | scalar (value : Json)

/-! ## Strings -/

/-- A part of a string: a character, or a code unit written as four hex digits. -/
inductive Piece where
  | char (c : Char)
  | unit (code : Nat)
deriving DecidableEq

/-- The value of a hex digit. -/
def hexDigit? (c : Char) : Option Nat :=
  if c.isDigit then some (c.toNat - 0x30)
  else if 0x61 ≤ c.toNat && c.toNat ≤ 0x66 then some (c.toNat - 0x61 + 10)
  else if 0x41 ≤ c.toNat && c.toNat ≤ 0x46 then some (c.toNat - 0x41 + 10)
  else none

/-- The value of some hex digits, the first one counts most. -/
def hexValue? (digits : List Char) : Option Nat :=
  digits.foldlM (fun value digit => (hexDigit? digit).map fun d => 16 * value + d) 0

/-- The character that stands after a backslash for another one. -/
def escaped? : Char → Option Char
  | '"' => some '"'
  | '\\' => some '\\'
  | '/' => some '/'
  | 'b' => some '\x08'
  | 'f' => some '\x0c'
  | 'n' => some '\n'
  | 'r' => some '\r'
  | 't' => some '\t'
  | _ => none

/-- The parts of a string up to its closing quote, and the text behind it. -/
def scanPieces : List Char → List Piece → Option (List Piece × List Char)
  | [], _ => none
  | '\\' :: 'u' :: a :: b :: c :: d :: rest, pieces =>
    match hexValue? [a, b, c, d] with
    | some code => scanPieces rest (.unit code :: pieces)
    | none => none
  | '\\' :: c :: rest, pieces =>
    match escaped? c with
    | some char => scanPieces rest (.char char :: pieces)
    | none => none
  | c :: rest, pieces =>
    if c = '"' then some (pieces.reverse, rest)
    else if c = '\\' || c.toNat < 0x20 then none
    else scanPieces rest (.char c :: pieces)

/-- The first unit of a pair that stands for one character. -/
def isHighUnit (code : Nat) : Bool := 0xD800 ≤ code && code ≤ 0xDBFF

/-- The second unit of a pair. -/
def isLowUnit (code : Nat) : Bool := 0xDC00 ≤ code && code ≤ 0xDFFF

/-- The character that a pair of units stands for. -/
def pairedChar (high low : Nat) : Char :=
  Char.ofNat (0x10000 + (high - 0xD800) * 0x400 + (low - 0xDC00))

/-- The characters of a string; half of a pair stands for none. -/
def assemble : List Piece → Option (List Char)
  | [] => some []
  | .char c :: rest => (assemble rest).map (c :: ·)
  | .unit high :: .unit low :: rest =>
    if isHighUnit high then
      if isLowUnit low then (assemble rest).map (pairedChar high low :: ·) else none
    else if isLowUnit high then none
    else (assemble (.unit low :: rest)).map (Char.ofNat high :: ·)
  | .unit code :: rest =>
    if isHighUnit code || isLowUnit code then none
    else (assemble rest).map (Char.ofNat code :: ·)

/-! ## Numbers -/

/-- One digit or more at the front, and the text behind them. -/
def digits? (text : List Char) : Option (List Char × List Char) :=
  match text.takeWhile Char.isDigit with
  | [] => none
  | digits => some (digits, text.dropWhile Char.isDigit)

/-- The digits before the point: a zero by itself, or digits that do not start with one. -/
def wholePart? : List Char → Option (List Char × List Char)
  | '0' :: rest => some (['0'], rest)
  | text => digits? text

/-- A point with digits behind it, or nothing. -/
def fraction? : List Char → Option (List Char × List Char)
  | '.' :: rest => (digits? rest).map fun part => ('.' :: part.1, part.2)
  | text => some ([], text)

/-- A sign, or nothing. -/
def sign : List Char → List Char × List Char
  | '+' :: rest => (['+'], rest)
  | '-' :: rest => (['-'], rest)
  | text => ([], text)

/-- The mark of an exponent with its sign and digits, or nothing. -/
def exponent? : List Char → Option (List Char × List Char)
  | [] => some ([], [])
  | c :: rest =>
    if c = 'e' || c = 'E' then
      (digits? (sign rest).2).map fun part => (c :: (sign rest).1 ++ part.1, part.2)
    else some ([], c :: rest)

/-- A number without a sign. -/
def magnitude? (text : List Char) : Option (List Char × List Char) := do
  let (whole, text) ← wholePart? text
  let (fraction, text) ← fraction? text
  let (exponent, text) ← exponent? text
  return (whole ++ fraction ++ exponent, text)

/-- A number, and the text behind it. -/
def number? : List Char → Option (List Char × List Char)
  | '-' :: rest => (magnitude? rest).map fun part => ('-' :: part.1, part.2)
  | text => magnitude? text

/-! ## Words -/

/-- The word at the front of a text that starts with no blank, and the text behind it. -/
def Token.next? : List Char → Option (Token × List Char)
  | '[' :: rest => some (.openArray, rest)
  | ']' :: rest => some (.closeArray, rest)
  | '\x7b' :: rest => some (.openObject, rest)
  | '\x7d' :: rest => some (.closeObject, rest)
  | ',' :: rest => some (.comma, rest)
  | ':' :: rest => some (.colon, rest)
  | '"' :: rest =>
    (scanPieces rest []).map fun part =>
      (.scalar (.string ((assemble part.1).map String.ofList)), part.2)
  | 't' :: 'r' :: 'u' :: 'e' :: rest => some (.scalar (.bool true), rest)
  | 'f' :: 'a' :: 'l' :: 's' :: 'e' :: rest => some (.scalar (.bool false), rest)
  | 'n' :: 'u' :: 'l' :: 'l' :: rest => some (.scalar .null, rest)
  | text => (number? text).map fun part => (.scalar (.number (String.ofList part.1)), part.2)

end RangeQuery.Json
