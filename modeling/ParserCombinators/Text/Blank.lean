import ParserCombinators.Text.Ranges

/-!
# Blank characters

The characters with the Unicode property White_Space, as a table of closed ranges of code points.

- `Text.blankRanges`: the table
- `Text.isBlank`: membership in it
- `Text.trimRight`: a line without the blanks at its end
-/

namespace ParserCombinators

namespace Text

/-- The closed ranges of code points that have the property White_Space. -/
def blankRanges : List (Nat × Nat) :=
  [(0x9, 0xd), (0x20, 0x20), (0x85, 0x85), (0xa0, 0xa0), (0x1680, 0x1680), (0x2000, 0x200a),
   (0x2028, 0x2029), (0x202f, 0x202f), (0x205f, 0x205f), (0x3000, 0x3000)]

def isBlank (c : Char) : Bool :=
  within blankRanges c

def trimRight (line : List Char) : List Char :=
  (line.reverse.dropWhile isBlank).reverse

end Text

end ParserCombinators
