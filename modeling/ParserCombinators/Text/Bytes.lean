/-!
# Text sizes and padding

Characters are counted in two units: code points, the length of a `List Char`, and the bytes that
UTF-8 takes to store them.

- `Text.byteSize`: the UTF-8 size of a list of characters
- `Text.padRight`: a line filled up with spaces to a width
-/

namespace ParserCombinators

namespace Text

def byteSize : List Char → Nat
  | [] => 0
  | c :: chars => c.utf8Size + byteSize chars

@[simp] theorem byteSize_nil : byteSize [] = 0 := rfl

@[simp] theorem byteSize_cons (c : Char) (chars : List Char) :
    byteSize (c :: chars) = c.utf8Size + byteSize chars := rfl

/-- Sizes add up, so the offset behind two texts is the sum of their sizes. -/
@[simp] theorem byteSize_append (xs ys : List Char) :
    byteSize (xs ++ ys) = byteSize xs + byteSize ys := by
  induction xs with
  | nil => simp
  | cons c xs ih => simp [ih, Nat.add_assoc]

/-- The characters behind a cursor are kept latest first; their size is that of the text. -/
@[simp] theorem byteSize_reverse (xs : List Char) : byteSize xs.reverse = byteSize xs := by
  induction xs with
  | nil => rfl
  | cons c xs ih => simp [ih, Nat.add_comm]

/-- A line shorter than `width` is filled up with spaces; a longer one is left alone. -/
def padRight (width : Nat) (line : List Char) : List Char :=
  line ++ List.replicate (width - line.length) ' '

/-- A field is never narrower than `width` and never cut. -/
theorem length_padRight (width : Nat) (line : List Char) :
    (padRight width line).length = max width line.length := by
  simp [padRight]
  omega

end Text

end ParserCombinators
