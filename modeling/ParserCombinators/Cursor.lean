import ParserCombinators.Text.Column

/-!
# Cursors — positions in a text

A cursor is a text cut in two between characters: what lies behind it and what is still unread.
Reading hands back a new cursor and leaves the old one as it was, so going back to an earlier place
is a matter of using the earlier cursor.

- `Cursor.offset`: the position, in UTF-8 bytes
- `Cursor.input`, `Cursor.consumed`, `Cursor.remaining`: the whole text and its two parts
- `Cursor.read`: the next character and the cursor after it, or `CursorError.readPastEnd`
- `Cursor.advance`: several reads, stopping at the end
- `Cursor.display`: offset and input column
-/

namespace ParserCombinators

/-- What can go wrong with a cursor: it was asked for a character at the end of its text. -/
inductive CursorError where
  | readPastEnd (offset : Nat)
  deriving DecidableEq, Repr

namespace CursorError

def message : CursorError → String
  | .readPastEnd offset =>
    "InvariantViolation: read past end of input (offset=" ++ toString offset ++ ")"

/-- Can a caller go on after this error? Reading past the end is a mistake of the caller. -/
def isRecoverable : CursorError → Bool
  | .readPastEnd _ => false

end CursorError

structure Cursor where
  /-- The characters behind the cursor, the latest first. -/
  before : List Char
  /-- The unread characters. -/
  rest : List Char
  deriving DecidableEq, Repr

namespace Cursor

def ofText (text : String) : Cursor where
  before := []
  rest := text.toList

/-- The position of the cursor in its text, counted in UTF-8 bytes. -/
def offset (c : Cursor) : Nat :=
  Text.byteSize c.before

def input (c : Cursor) : String :=
  String.ofList (c.before.reverse ++ c.rest)

def consumed (c : Cursor) : String :=
  String.ofList c.before.reverse

def remaining (c : Cursor) : String :=
  String.ofList c.rest

def atEnd (c : Cursor) : Bool :=
  c.rest.isEmpty

def peek (c : Cursor) : Option Char :=
  c.rest.head?

/-- The character under the cursor and the cursor after it. -/
def read (c : Cursor) : Except CursorError (Char × Cursor) :=
  match c.rest with
  | [] => .error (.readPastEnd c.offset)
  | ch :: rest => .ok (ch, ⟨ch :: c.before, rest⟩)

/-- The cursor after `n` reads, or at the end if there are not so many characters. -/
def advance : Nat → Cursor → Cursor
  | 0, c => c
  | n + 1, c =>
    match c.read with
    | .error _ => c
    | .ok (_, next) => next.advance n

/-- Offset and input column on one line. -/
def display (c : Cursor) : String :=
  "Cursor(" ++ toString c.offset ++ ", " ++
    String.ofList (Text.trimRight (Text.column c.rest)) ++ ")"

/-! ## Views after a read -/

@[simp] theorem input_ofText (text : String) : (ofText text).input = text := by
  simp [ofText, input]

@[simp] theorem offset_ofText (text : String) : (ofText text).offset = 0 := rfl

/-- The two views are the two sides of one cut of `input`. -/
theorem consumed_append_remaining (c : Cursor) : c.consumed ++ c.remaining = c.input := by
  simp [consumed, remaining, input]

/-- Reading never changes the text, only the place in it. -/
theorem input_of_read {c next : Cursor} {ch : Char} (h : c.read = .ok (ch, next)) :
    next.input = c.input := by
  obtain ⟨before, rest⟩ := c
  cases rest with
  | nil => simp [read] at h
  | cons x xs =>
    simp only [read, Except.ok.injEq, Prod.mk.injEq] at h
    obtain ⟨rfl, rfl⟩ := h
    simp [input]

/-- A read moves the offset by the UTF-8 size of the character, so it stays on a boundary. -/
theorem offset_of_read {c next : Cursor} {ch : Char} (h : c.read = .ok (ch, next)) :
    next.offset = c.offset + ch.utf8Size := by
  obtain ⟨before, rest⟩ := c
  cases rest with
  | nil => simp [read] at h
  | cons x xs =>
    simp only [read, Except.ok.injEq, Prod.mk.injEq] at h
    obtain ⟨rfl, rfl⟩ := h
    simp [offset, Nat.add_comm]

end Cursor

end ParserCombinators
