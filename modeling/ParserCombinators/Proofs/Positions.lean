import ParserCombinators.Proofs.Progress

/-!
# Positions — cursors as byte offsets

In memory a cursor is a text and a number of bytes, and every operation on it has something to
check: a text can be cut only between two of its characters, and a sum of offsets has to fit into a
machine word. Stored in this way, cursors are exactly the positions at which a text can be cut, so
that none of the checks fails, and the operations answer as they do on cursors.

- `Position`, `Position.Valid`: a text and an offset, and the offsets between characters
- `Position.remaining`, `Position.consumed`, `Position.peek`, `Position.read`: the operations, with
  their checks; a check that fails is a `Trap`
- `Position.Cuts`: the two texts that lie on both sides of a position
- `Cursor.position`, `Cursor.valid_iff_exists_position`: cursors are the valid positions
- `Cursor.position_remaining`, `Cursor.position_read`, ..., `Cursor.checked`: no trap, and the same
  answers
- `Cursor.reaches_iff`, `Cursor.spans_iff`: reading leads forward, in the same text
-/

namespace ParserCombinators

/-- What stops an operation on a position. -/
inductive Trap where
  /-- A text was to be cut beyond its end, or through one of its characters. -/
  | badCut
  /-- A sum is too large for a machine word. -/
  | overflow
  deriving DecidableEq, Repr

/-- A cursor as it is stored. Any number may stand as the offset. -/
structure Position where
  input : String
  offset : Nat
  deriving DecidableEq, Repr

namespace Position

/-- The offset lies within the text and between two of its characters. -/
def Valid (x : Position) : Prop :=
  (String.Pos.Raw.mk x.offset).IsValid x.input

instance (x : Position) : Decidable x.Valid :=
  inferInstanceAs (Decidable ((String.Pos.Raw.mk x.offset).IsValid x.input))

/-! ## Operations -/

def start (text : String) : Position :=
  ⟨text, 0⟩

def atEnd (x : Position) : Bool :=
  x.offset == x.input.utf8ByteSize

def remaining (x : Position) : Except Trap String :=
  if h : x.Valid then .ok (x.input.sliceFrom ⟨⟨x.offset⟩, h⟩).copy else .error .badCut

def consumed (x : Position) : Except Trap String :=
  if h : x.Valid then .ok (x.input.sliceTo ⟨⟨x.offset⟩, h⟩).copy else .error .badCut

def peek (x : Position) : Except Trap (Option Char) := do
  let rest ← x.remaining
  pure rest.toList.head?

/-- A sum, if it does not exceed the largest number of a machine word. -/
def checkedAdd (largest a b : Nat) : Except Trap Nat :=
  if a + b ≤ largest then .ok (a + b) else .error .overflow

/-- The next character and the position after it, in machine words up to `largest`. -/
def read (largest : Nat) (x : Position) : Except Trap (Except CursorError (Char × Position)) := do
  match ← x.peek with
  | none => pure (.error (.readPastEnd x.offset))
  | some ch =>
    let next ← checkedAdd largest x.offset ch.utf8Size
    pure (.ok (ch, ⟨x.input, next⟩))

/-! ## Cutting a text in two -/

/-- The position lies between the two texts, which together are the whole. -/
structure Cuts (x : Position) (left right : String) : Prop where
  input_eq : x.input = left ++ right
  offset_eq : x.offset = left.utf8ByteSize

variable {x : Position} {left right : String}

/-- A position is valid if the text is cut there into two. -/
theorem valid_iff_exists_cuts : x.Valid ↔ ∃ left right, x.Cuts left right := by
  unfold Valid
  rw [String.Pos.Raw.isValid_iff_exists_append]
  constructor
  · rintro ⟨left, right, hinput, hoffset⟩
    exact ⟨left, right, hinput, congrArg String.Pos.Raw.byteIdx hoffset⟩
  · rintro ⟨left, right, hinput, hoffset⟩
    exact ⟨left, right, hinput, String.Pos.Raw.ext hoffset⟩

namespace Cuts

theorem valid (h : x.Cuts left right) : x.Valid :=
  valid_iff_exists_cuts.2 ⟨left, right, h⟩

/-- The same cut in terms of the library's positions of a string, which carry their validity. -/
theorem splits (h : x.Cuts left right) :
    (⟨⟨x.offset⟩, h.valid⟩ : x.input.Pos).Splits left right :=
  ⟨h.input_eq, String.Pos.Raw.ext h.offset_eq⟩

/-- The slice behind a cut does not trap. -/
theorem remaining_eq (h : x.Cuts left right) : x.remaining = .ok right := by
  unfold remaining
  rw [dif_pos h.valid, h.splits.copy_sliceFrom_eq]

/-- The slice before a cut does not trap. -/
theorem consumed_eq (h : x.Cuts left right) : x.consumed = .ok left := by
  unfold consumed
  rw [dif_pos h.valid, h.splits.copy_sliceTo_eq]

theorem peek_eq (h : x.Cuts left right) : x.peek = .ok right.toList.head? := by
  unfold peek
  rw [h.remaining_eq]
  rfl

theorem byteSize_eq (h : x.Cuts left right) :
    x.input.utf8ByteSize = x.offset + right.utf8ByteSize := by
  rw [h.input_eq, h.offset_eq, String.utf8ByteSize_append]

/-- Both sides of a cut are determined by its offset. -/
theorem unique {left' right' : String} (h : x.Cuts left right) (h' : x.Cuts left' right') :
    left = left' ∧ right = right' :=
  h.splits.eq h'.splits

/-- Of two cuts of one text, the later one is the earlier one moved to the right. -/
theorem exists_between {y : Position} {left' right' : String} (hx : x.Cuts left right)
    (hy : y.Cuts left' right') (hinput : y.input = x.input) (hle : x.offset ≤ y.offset) :
    ∃ taken, left' = left ++ taken ∧ right = taken ++ right' := by
  rcases x with ⟨input, offset⟩
  rcases y with ⟨input', offset'⟩
  dsimp only at hinput hle
  subst hinput
  exact (hx.splits.le_iff_exists_eq_append hy.splits).1 hle

end Cuts

end Position

/-! ## Cursors are the valid positions -/

/-- `byteSize` is the size of the string in UTF-8. By induction on the characters. -/
theorem Text.utf8ByteSize_ofList (chars : List Char) :
    (String.ofList chars).utf8ByteSize = byteSize chars := by
  induction chars with
  | nil => rfl
  | cons ch chars ih =>
    rw [byteSize_cons, ← ih, String.ofList_cons, String.utf8ByteSize_append,
      String.utf8ByteSize_singleton]

theorem Text.byteSize_toList (text : String) : byteSize text.toList = text.utf8ByteSize := by
  rw [← utf8ByteSize_ofList, String.ofList_toList]

namespace Cursor

open Position (Cuts)

/-- The cursor between two texts. -/
def between (left right : String) : Cursor where
  before := left.toList.reverse
  rest := right.toList

def position (c : Cursor) : Position :=
  ⟨c.input, c.offset⟩

@[simp] theorem position_input (c : Cursor) : c.position.input = c.input := rfl

@[simp] theorem position_offset (c : Cursor) : c.position.offset = c.offset := rfl

/-- A stored cursor cuts its text into what was read and what was not. -/
theorem cuts_position (c : Cursor) : c.position.Cuts c.consumed c.remaining where
  input_eq := c.consumed_append_remaining.symm
  offset_eq := by
    unfold consumed
    rw [Text.utf8ByteSize_ofList, Text.byteSize_reverse]
    rfl

/-- Every stored cursor is a valid position. -/
theorem valid_position (c : Cursor) : c.position.Valid :=
  c.cuts_position.valid

/-- A cursor is determined by its two views. -/
theorem ext_of_views {c c' : Cursor} (hconsumed : c.consumed = c'.consumed)
    (hremaining : c.remaining = c'.remaining) : c = c' := by
  rcases c with ⟨before, rest⟩
  rcases c' with ⟨before', rest'⟩
  have hbefore : before.reverse = before'.reverse := String.ofList_injective hconsumed
  have hrest : rest = rest' := String.ofList_injective hremaining
  rw [List.reverse_inj.1 hbefore, hrest]

/-- Storing a cursor loses nothing: the offset determines the cut, and the cut both views. -/
theorem position_injective : Function.Injective position := by
  intro c c' h
  have hcuts : c.position.Cuts c'.consumed c'.remaining := by
    rw [h]
    exact c'.cuts_position
  rcases c.cuts_position.unique hcuts with ⟨hconsumed, hremaining⟩
  exact ext_of_views hconsumed hremaining

/-- The cursor between the parts of a cut is stored as the position of the cut. -/
theorem position_between {x : Position} {left right : String} (h : x.Cuts left right) :
    (between left right).position = x := by
  rcases x with ⟨input, offset⟩
  rcases h with ⟨rfl, rfl⟩
  simp [between, position, input, offset, Text.byteSize_toList]

/-- The valid positions are exactly the stored cursors. -/
theorem valid_iff_exists_position {x : Position} : x.Valid ↔ ∃ c : Cursor, c.position = x := by
  constructor
  · intro h
    rcases Position.valid_iff_exists_cuts.1 h with ⟨left, right, hcuts⟩
    exact ⟨between left right, position_between hcuts⟩
  · rintro ⟨c, rfl⟩
    exact c.valid_position

/-! ## The operations agree -/

theorem position_start (text : String) : (ofText text).position = .start text := by
  simp [position, Position.start]

theorem position_remaining (c : Cursor) : c.position.remaining = .ok c.remaining :=
  c.cuts_position.remaining_eq

theorem position_consumed (c : Cursor) : c.position.consumed = .ok c.consumed :=
  c.cuts_position.consumed_eq

theorem position_peek (c : Cursor) : c.position.peek = .ok c.peek := by
  rw [c.cuts_position.peek_eq, remaining, String.toList_ofList]
  rfl

/-- Comparing the offset with the size of the text is to ask whether nothing is left, since a
character has at least one byte. -/
theorem position_atEnd (c : Cursor) : c.position.atEnd = c.atEnd := by
  have hsize := c.cuts_position.byteSize_eq
  rw [remaining, Text.utf8ByteSize_ofList] at hsize
  unfold Position.atEnd atEnd
  rw [hsize]
  rcases c with ⟨before, _ | ⟨ch, rest⟩⟩
  · simp
  · have hpos : 0 < ch.utf8Size := Char.utf8Size_pos ch
    simp only [Text.byteSize_cons, List.isEmpty_cons, beq_eq_false_iff_ne, ne_eq]
    omega

/-- An offset does not exceed the size of the text. -/
theorem offset_le (c : Cursor) : c.offset ≤ c.input.utf8ByteSize := by
  have hsize : c.input.utf8ByteSize = c.offset + _ := c.cuts_position.byteSize_eq
  omega

/-- `read` on a stored cursor, in words that can hold the size of the text: no trap, and the stored
cursor behind the character. -/
theorem position_read (c : Cursor) {largest : Nat} (hsize : c.input.utf8ByteSize ≤ largest) :
    c.position.read largest = .ok (c.read.map fun found => (found.1, found.2.position)) := by
  unfold Position.read
  rw [position_peek]
  rcases c with ⟨before, _ | ⟨ch, rest⟩⟩
  · rfl
  · have hread : (⟨before, ch :: rest⟩ : Cursor).read = .ok (ch, ⟨ch :: before, rest⟩) := rfl
    have hinput := input_of_read hread
    have hoffset := offset_of_read hread
    -- the sum is the offset of the next cursor, which lies in the same text
    have hfits : (⟨ch :: before, rest⟩ : Cursor).offset ≤ largest := by
      have hle := offset_le ⟨ch :: before, rest⟩
      rw [hinput] at hle
      omega
    show (Position.checkedAdd largest (Cursor.offset _) ch.utf8Size >>= _) = _
    unfold Position.checkedAdd
    rw [← hoffset, if_pos hfits, position_input, ← hinput, hread]
    rfl

/-- A read on a stored cursor that does not trap stores a cursor again, whatever the word size. -/
theorem exists_position_of_read {c : Cursor} {largest : Nat} {ch : Char} {y : Position}
    (h : c.position.read largest = .ok (.ok (ch, y))) :
    ∃ next, c.read = .ok (ch, next) ∧ next.position = y := by
  unfold Position.read at h
  rw [position_peek] at h
  rcases c with ⟨before, _ | ⟨x, rest⟩⟩
  · cases h
  · have hread : (⟨before, x :: rest⟩ : Cursor).read = .ok (x, ⟨x :: before, rest⟩) := rfl
    change (Position.checkedAdd largest (Cursor.offset _) x.utf8Size >>= _) = _ at h
    unfold Position.checkedAdd at h
    -- the only check that can fail here is that of the sum
    split at h
    · cases h
      exact ⟨_, hread, by simp [position, input_of_read hread, offset_of_read hread]⟩
    · cases h

/-- Every operation on the stored cursor passes its checks and answers as on the cursor itself, and
away from the end there is a character to read. -/
structure Checked (c : Cursor) : Prop where
  atEnd : c.position.atEnd = c.atEnd
  remaining : c.position.remaining = .ok c.remaining
  consumed : c.position.consumed = .ok c.consumed
  peek : c.position.peek = .ok c.peek
  read : ∀ largest, c.input.utf8ByteSize ≤ largest →
    c.position.read largest = .ok (c.read.map fun found => (found.1, found.2.position))
  readable : c.position.atEnd = false → ∃ found, c.read = .ok found

theorem checked (c : Cursor) : c.Checked where
  atEnd := c.position_atEnd
  remaining := c.position_remaining
  consumed := c.position_consumed
  peek := c.position_peek
  read _ := c.position_read
  readable := by
    rw [position_atEnd]
    rcases c with ⟨before, _ | ⟨ch, rest⟩⟩
    · exact fun h => nomatch h
    · exact fun _ => ⟨_, rfl⟩

/-! ## Reading leads forward -/

/-- Reading leads forward: the same text, and an offset that is not less. -/
theorem reaches_iff {c c' : Cursor} :
    c.Reaches c' ↔ c'.input = c.input ∧ c.offset ≤ c'.offset := by
  constructor
  · rintro ⟨taken, hrest, hbefore⟩
    constructor
    · simp [input, hrest, hbefore]
    · simp [offset, hbefore]
  · rintro ⟨hinput, hle⟩
    -- both cursors cut one text, so the part between them is what was read
    rcases c.cuts_position.exists_between c'.cuts_position hinput hle with ⟨taken, hleft, hright⟩
    refine ⟨taken.toList, ?_, ?_⟩
    · simpa [remaining] using congrArg String.toList hright
    · have hbefore : c'.before.reverse = c.before.reverse ++ taken.toList := by
        simpa [consumed] using congrArg String.toList hleft
      simpa using congrArg List.reverse hbefore

/-- `Spans` in terms of positions: the text is there, and the offset moves on by its bytes. -/
theorem spans_iff {c c' : Cursor} {taken : List Char} :
    c.Spans taken c' ↔
      taken <+: c.rest ∧ c'.input = c.input ∧ c'.offset = c.offset + Text.byteSize taken := by
  constructor
  · rintro ⟨hrest, hbefore⟩
    refine ⟨⟨c'.rest, hrest.symm⟩, ?_, ?_⟩
    · simp [input, hrest, hbefore]
    · simp [offset, hbefore, Nat.add_comm]
  · rintro ⟨⟨after, hafter⟩, hinput, hoffset⟩
    rcases c with ⟨before, rest⟩
    dsimp only at hafter
    subst hafter
    -- the cursor behind the text stands at the same place, and there is only one
    have hplace : c'.position = (⟨taken.reverse ++ before, after⟩ : Cursor).position := by
      unfold position
      rw [hinput, hoffset]
      simp [input, offset, Nat.add_comm]
    rw [position_injective hplace]
    exact ⟨rfl, rfl⟩

end Cursor

end ParserCombinators
