import Mathlib.Data.Set.Function
import Mathlib.Order.Interval.Set.Defs
import ParserCombinators.Proofs.Positions

/-!
# Places — reading goes through a text character by character

From the start of a text, reads lead to one cursor behind each of its characters, and to no other.
These are all cursors there are in the text, and their offsets are all the numbers of bytes after
which it can be cut between two characters. So a cursor is told by its offset, and by the number of
characters behind it.

- `Cursor.ReadFrom`, `Cursor.readFrom_iff`: reads lead to all cursors of a text, and to no others
- `Cursor.bijOn_offset`: cursors by their offsets
- `Cursor.place`, `Cursor.bijOn_place`: cursors by the number of characters behind them
- `Cursor.Divides`: what a cursor shows behind so many characters of a text
- `Cursor.reads_enumerate_text`: the places of a text, and what is read there
-/

namespace ParserCombinators

namespace Cursor

/-- The cursors that reads lead to, from the start of the text. -/
inductive ReadFrom (text : String) : Cursor → Prop where
  | start : ReadFrom text (ofText text)
  | next {c c' : Cursor} {ch : Char} (hc : ReadFrom text c) (hread : c.read = .ok (ch, c')) :
      ReadFrom text c'

/-- What a cursor shows behind the first `count` characters of a text: the two parts of the text,
the offset between them in bytes, and the end of the text in three ways that agree. Stored as a text
and an offset, it shows the same. -/
structure Divides (text : String) (count : Nat) (c : Cursor) : Prop where
  offset_eq : c.offset = (String.ofList (text.toList.take count)).utf8ByteSize
  consumed_eq : c.consumed = String.ofList (text.toList.take count)
  remaining_eq : c.remaining = String.ofList (text.toList.drop count)
  whole_eq : c.consumed ++ c.remaining = text
  atEnd_iff_peek : c.atEnd = true ↔ c.peek = none
  peek_iff_read : c.peek = none ↔ ∃ error, c.read = .error error
  checked : c.Checked

/-! ## All cursors of a text -/

/-- A cursor is reached by reading the characters that lie behind it, the last of them last. By
induction on `before`. -/
theorem readFrom_append (before rest : List Char) :
    ReadFrom (String.ofList (before.reverse ++ rest)) ⟨before, rest⟩ := by
  -- the character that is read last comes from the start of what is then left
  induction before generalizing rest with
  | nil =>
    have hstart : (⟨[], rest⟩ : Cursor) = ofText (String.ofList rest) := by simp [ofText]
    rw [hstart]
    exact .start
  | cons ch before ih =>
    have hread : (⟨before, ch :: rest⟩ : Cursor).read = .ok (ch, ⟨ch :: before, rest⟩) := rfl
    rw [List.reverse_cons, List.append_assoc]
    exact .next (ih (ch :: rest)) hread

/-- The cursors that reads lead to are all cursors of the text; one direction is an invariant of
reading. -/
theorem readFrom_iff {text : String} {c : Cursor} : ReadFrom text c ↔ c.input = text := by
  constructor
  · intro h
    induction h with
    | start => exact input_ofText text
    | next _ hread ih => exact (input_of_read hread).trans ih
  · rintro rfl
    exact readFrom_append c.before c.rest

/-- In one text, a cursor is told by its offset, as its position is. -/
theorem eq_of_offset_eq {c c' : Cursor} (hinput : c.input = c'.input)
    (hoffset : c.offset = c'.offset) : c = c' := by
  apply position_injective
  unfold position
  rw [hinput, hoffset]

/-- `offset` is a bijection from the cursors of a text to its boundaries between characters. -/
theorem bijOn_offset (text : String) :
    Set.BijOn offset {c | ReadFrom text c} {o | (String.Pos.Raw.mk o).IsValid text} := by
  refine ⟨fun c hc => ?_, fun c hc c' hc' heq => ?_, fun o ho => ?_⟩
  · have hinput : c.input = text := readFrom_iff.1 hc
    exact hinput ▸ c.valid_position
  · exact eq_of_offset_eq ((readFrom_iff.1 hc).trans (readFrom_iff.1 hc').symm) heq
  · -- a boundary cuts the text in two, and the cursor between the parts is reached by reading
    rcases valid_iff_exists_position.1 (show Position.Valid ⟨text, o⟩ from ho) with ⟨c, hc⟩
    have hinput : c.input = text := congrArg Position.input hc
    have hoffset : c.offset = o := congrArg Position.offset hc
    exact ⟨c, readFrom_iff.2 hinput, hoffset⟩

/-! ## Cursors by the number of characters behind them -/

def place (text : String) (count : Nat) : Cursor :=
  (ofText text).advance count

/-- Run lemma: `count` reads move the first `count` unread characters, or all of them, behind the
cursor. -/
theorem advance_eq (count : Nat) (c : Cursor) :
    c.advance count = ⟨(c.rest.take count).reverse ++ c.before, c.rest.drop count⟩ := by
  induction count generalizing c with
  | zero => rfl
  | succ count ih =>
    rcases c with ⟨before, _ | ⟨ch, rest⟩⟩
    · rfl
    · have hstep : advance (count + 1) ⟨before, ch :: rest⟩ =
          advance count ⟨ch :: before, rest⟩ := rfl
      rw [hstep, ih]
      simp

/-- `advance_eq` from the start of the text. -/
theorem place_eq (text : String) (count : Nat) :
    place text count = ⟨(text.toList.take count).reverse, text.toList.drop count⟩ := by
  unfold place
  rw [advance_eq]
  simp [ofText]

theorem readFrom_place (text : String) (count : Nat) : ReadFrom text (place text count) := by
  rw [readFrom_iff, place_eq]
  simp [input]

/-- A cursor is the place after as many reads as there are characters behind it. -/
theorem place_of_readFrom {text : String} {c : Cursor} (h : ReadFrom text c) :
    place text c.before.length = c := by
  rcases c with ⟨before, rest⟩
  rcases readFrom_iff.1 h with rfl
  rw [place_eq]
  simp [input]

/-- `place text` is a bijection from the counts up to the length of the text to its cursors. -/
theorem bijOn_place (text : String) :
    Set.BijOn (place text) (Set.Iic text.toList.length) {c | ReadFrom text c} := by
  refine ⟨fun count _ => readFrom_place text count, fun i hi j hj heq => ?_, fun c hc => ?_⟩
  · -- behind fewer characters, more are left
    have hleft : text.toList.length - i = text.toList.length - j := by
      simpa [place_eq] using congrArg (fun c => c.rest.length) heq
    have hi : i ≤ text.toList.length := hi
    have hj : j ≤ text.toList.length := hj
    omega
  · -- the count of a given cursor is the number of characters behind it
    have hplace := place_of_readFrom hc
    refine ⟨c.before.length, ?_, hplace⟩
    have hinput : c.before.length + c.rest.length = text.toList.length := by
      simp [← readFrom_iff.1 hc, input]
    exact Set.mem_Iic.2 (by omega)

/-- What `place text count` shows, view by view. -/
theorem divides_place (text : String) (count : Nat) : (place text count).Divides text count := by
  have hconsumed : (place text count).consumed = String.ofList (text.toList.take count) := by
    simp [place_eq, consumed]
  refine ⟨?_, hconsumed, ?_, ?_, ?_, ?_, checked _⟩
  · exact (cuts_position _).offset_eq.trans (congrArg String.utf8ByteSize hconsumed)
  · simp [place_eq, remaining]
  · exact (consumed_append_remaining _).trans (readFrom_iff.1 (readFrom_place text count))
  · exact List.isEmpty_iff.trans List.head?_eq_none_iff.symm
  · rcases place text count with ⟨before, _ | ⟨ch, rest⟩⟩
    · exact ⟨fun _ => ⟨_, rfl⟩, fun _ => rfl⟩
    · constructor
      · intro hpeek
        cases hpeek
      · rintro ⟨error, hread⟩
        cases hread

/-- A read before the end gives the character at `count` and the next place. -/
theorem read_place {text : String} {count : Nat} (h : count < text.toList.length) :
    (place text count).read = .ok (text.toList[count], place text (count + 1)) := by
  have hbefore : (text.toList.take (count + 1)).reverse =
      text.toList[count] :: (text.toList.take count).reverse := by
    -- the character that is read is the last of one more that were taken
    rw [List.take_succ_eq_append_getElem h, List.reverse_append]
    rfl
  rw [place_eq, place_eq, List.drop_eq_getElem_cons h, hbefore]
  rfl

/-- A read at the end is refused with the size of the text. -/
theorem read_place_length (text : String) :
    (place text text.toList.length).read = .error (.readPastEnd text.utf8ByteSize) := by
  have hoffset := (divides_place text text.toList.length).offset_eq
  rw [List.take_length, String.ofList_toList] at hoffset
  rw [← hoffset, place_eq, List.drop_length]
  rfl

/-- Reading goes through a text character by character. The cursors that it leads to are those
behind the first so many characters, from none to all, each of them once; and each has an offset of
its own, which together are the boundaries between the characters of the text. A cursor divides the
text behind the characters that were read. Reading there gives the next character and the next
cursor, and behind the last character an error with the size of the text. -/
theorem reads_enumerate_text (text : String) :
    Set.BijOn (place text) (Set.Iic text.toList.length) {c | ReadFrom text c} ∧
    Set.BijOn offset {c | ReadFrom text c} {o | (String.Pos.Raw.mk o).IsValid text} ∧
    (∀ count ≤ text.toList.length, (place text count).Divides text count) ∧
    (∀ count (h : count < text.toList.length),
      (place text count).read = .ok (text.toList[count], place text (count + 1))) ∧
    (place text text.toList.length).read = .error (.readPastEnd text.utf8ByteSize) :=
  ⟨bijOn_place text, bijOn_offset text, fun count _ => divides_place text count,
    fun _ h => read_place h, read_place_length text⟩

/-- Of two characters, the first two bytes long and the second three, the second is read behind the
first, at an offset of two bytes. -/
theorem reads_enumerate_text_two_characters :
    (1 ≤ "é€".toList.length ∧ (place "é€" 1).Divides "é€" 1 ∧ (place "é€" 1).offset = 2) ∧
    1 < "é€".toList.length ∧ (place "é€" 1).read = .ok ('€', place "é€" 2) := by
  have hlast : 1 < "é€".toList.length := by decide
  rcases reads_enumerate_text "é€" with ⟨-, -, hdivides, hread, -⟩
  exact ⟨⟨Nat.le_of_lt hlast, hdivides 1 (Nat.le_of_lt hlast), rfl⟩, hlast, hread 1 hlast⟩

end Cursor

end ParserCombinators
