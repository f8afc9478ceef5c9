/-!
# Classes of characters as ranges

A property of characters is stored as the closed ranges of code points that have it.

- `Text.within`: does a character lie in one of the ranges?
-/

namespace ParserCombinators

namespace Text

def within (ranges : List (Nat × Nat)) (c : Char) : Bool :=
  ranges.any fun range => range.1 ≤ c.toNat && c.toNat ≤ range.2

end Text

end ParserCombinators
