/-!
Blank characters. `isSpace` holds of the characters with the property White_Space.
-/

namespace RangeQuery.Text

/-- The ranges of code points with the property White_Space. -/
def spaceRanges : List (Nat × Nat) :=
  [(0x9, 0xD), (0x20, 0x20), (0x85, 0x85), (0xA0, 0xA0), (0x1680, 0x1680), (0x2000, 0x200A),
    (0x2028, 0x2029), (0x202F, 0x202F), (0x205F, 0x205F), (0x3000, 0x3000)]

/-- Whether a character is white space. -/
def isSpace (c : Char) : Bool :=
  spaceRanges.any fun range => range.1 ≤ c.toNat && c.toNat ≤ range.2

/-- The text without the white space at its two ends. -/
def trim (text : String) : String :=
  let front := text.toList.dropWhile isSpace
  String.ofList (front.reverse.dropWhile isSpace).reverse

/-- The parts between commas, without the white space around them; empty parts do not count. -/
def commaList (text : String) : List String :=
  ((text.splitOn ",").map trim).filter fun part => !part.isEmpty

end RangeQuery.Text
