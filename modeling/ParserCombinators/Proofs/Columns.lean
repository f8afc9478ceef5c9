import Mathlib.Data.Bool.AllAny
import Mathlib.Tactic.SplitIfs
import ParserCombinators.Proofs.Positions
import ParserCombinators.Trace.Record

/-!
# Columns — the escaped start of a text, in a fixed width

A column is made in steps: the text is cut, escaped, freed of the backslashes before quotes, and cut
again. None of the steps can be told from the result. Backslashes are dropped by a search through
the whole escaped text, but no escape begins with a quote, so that the search never takes the
backslash of one character away from before the quote of another. And every escape has at least one
character, so that what the first cut takes away would not have been shown.

- `Text.glyphs`, `Text.escaped`: how a column spells a character, and a whole text
- `Text.Escapes`: the forms that an escape can have
- `Text.dropEscape_append`, `Text.dropEscape_flatMap`: dropping backslashes, escape by escape
- `Text.take_flatMap_take`: a cut before escaping, behind one after it
- `Text.columnText_eq`: a column shows the start of the escaped text
- `Text.column_shows_escaped_start`: the column as a whole, in trace records and in printed cursors
-/

namespace ParserCombinators

namespace Text

/-! ## The spelling of a text in a column -/

def IsQuote (c : Char) : Prop :=
  c = '"' ∨ c = '\x27'

instance : DecidablePred IsQuote :=
  fun c => inferInstanceAs (Decidable (c = '"' ∨ c = '\x27'))

theorem IsQuote.ne_backslash {q : Char} (h : IsQuote q) : q ≠ '\\' := by
  rcases h with rfl | rfl <;> decide

/-- The spelling of a character in a column: its escape, but quotes stand for themselves. -/
def glyphs (c : Char) : List Char :=
  if IsQuote c then [c] else escape c

def escaped (text : List Char) : List Char :=
  text.flatMap glyphs

/-! ## The forms of an escape -/

/-- The forms that `escape` can give, by what they mean for quotes: a quote occurs in the first form
only. -/
inductive Escapes (c : Char) : List Char → Prop where
  | quote (hquote : IsQuote c) : Escapes c ['\\', c]
  | letter {d : Char} (hquote : ¬ IsQuote c) (hd : d ∈ ['t', 'r', 'n', '\\']) : Escapes c ['\\', d]
  | plain (hquote : ¬ IsQuote c) (hc : isPrintableAscii c = true) : Escapes c [c]
  | codePoint (hquote : ¬ IsQuote c) : Escapes c (codePointEscape c)

/-- Every branch of `escape` gives one of the four forms. -/
theorem escapes_escape (c : Char) : Escapes c (escape c) := by
  unfold escape
  -- two of the branches are for quotes, and the last two are behind the tests for them
  split_ifs with htab hreturn hline hsingle hdouble hbackslash hprintable
  · exact .letter (by rw [htab]; decide) (by decide)
  · exact .letter (by rw [hreturn]; decide) (by decide)
  · exact .letter (by rw [hline]; decide) (by decide)
  · rw [← hsingle]
    exact .quote (.inr hsingle)
  · rw [← hdouble]
    exact .quote (.inl hdouble)
  · exact .letter (by rw [hbackslash]; decide) (by decide)
  · exact .plain (not_or.2 ⟨hdouble, hsingle⟩) hprintable
  · exact .codePoint (not_or.2 ⟨hdouble, hsingle⟩)

/-- Strong induction on the number, along `Nat.toDigits`. -/
theorem mem_of_mem_hex {n : Nat} {d : Char} (h : d ∈ hex n) : d ∈ "0123456789abcdef".toList := by
  have hdigit : ∀ k < 16, k.digitChar ∈ "0123456789abcdef".toList := by decide
  unfold hex at h
  -- the digits of the quotient, and behind them the one of the remainder
  induction n using Nat.strongRecOn with
  | _ n ih =>
    rw [Nat.toDigits_eq_if (by decide)] at h
    split at h
    · rename_i hsmall
      rw [List.mem_singleton.1 h]
      exact hdigit n hsmall
    · rename_i hlarge
      rcases List.mem_append.1 h with hfront | hlast
      · exact ih (n / 16) (by omega) hfront
      · rw [List.mem_singleton.1 hlast]
        exact hdigit (n % 16) (Nat.mod_lt n (by decide))

/-- A code point is spelled in printable characters, none of which is a quote: the frame and the
hexadecimal digits. -/
theorem isPrintableAscii_of_mem_codePointEscape {c d : Char} (h : d ∈ codePointEscape c) :
    isPrintableAscii d = true ∧ ¬ IsQuote d := by
  have hframe : ∀ x ∈ ['\\', 'u', '\x7b', '\x7d'], isPrintableAscii x = true ∧ ¬ IsQuote x :=
    List.all_iff_forall_prop.1 (by decide)
  have hdigits : ∀ x ∈ "0123456789abcdef".toList, isPrintableAscii x = true ∧ ¬ IsQuote x :=
    List.all_iff_forall_prop.1 (by decide)
  unfold codePointEscape at h
  simp only [List.mem_append] at h
  rcases h with (hopening | hhex) | hclosing
  · exact hframe d (List.mem_of_mem_take (i := 3) hopening)
  · exact hdigits d (mem_of_mem_hex hhex)
  · exact hframe d (List.mem_of_mem_drop (i := 3) hclosing)

/-! ## Dropping backslashes -/

section Dropping

variable {q : Char}

/-- Backslashes can be dropped on both sides of a cut, unless the right side begins with the quote.
Induction along `dropEscape`. -/
theorem dropEscape_append (w : List Char) {t : List Char} (h : t.head? ≠ some q) :
    dropEscape q (w ++ t) = dropEscape q w ++ dropEscape q t := by
  induction w using dropEscape.induct q with
  | case1 => rfl
  | case2 c =>
    -- the last character of the first text may be a backslash, but no quote comes behind it
    cases t with
    | nil => rfl
    | cons d rest =>
      have hd : d ≠ q := fun hd => h (congrArg some hd)
      simp [dropEscape, hd]
  | case3 c d rest hfound ih => simp [dropEscape, hfound, ih]
  | case4 c d rest hother ih =>
    rw [List.cons_append] at ih
    simp [dropEscape, hother, ih]

/-- Without the quote in it a text stays as it is. Induction along `dropEscape`. -/
theorem dropEscape_of_notMem {w : List Char} (h : q ∉ w) : dropEscape q w = w := by
  induction w using dropEscape.induct q with
  | case1 | case2 => rfl
  | case3 c d rest hfound =>
    exact absurd (hfound.2 ▸ List.mem_cons_of_mem c List.mem_cons_self) h
  | case4 c d rest hother ih =>
    rw [dropEscape, if_neg hother, ih fun hq => h (List.mem_cons_of_mem c hq)]

/-- If no spelling begins with `q`, no spelled text does; an empty spelling hands the question
on. -/
theorem head?_flatMap_ne {f : Char → List Char} (hf : ∀ c, (f c).head? ≠ some q)
    (text : List Char) : (text.flatMap f).head? ≠ some q := by
  induction text with
  | nil => simp
  | cons c text ih =>
    have hfirst := hf c
    rw [List.flatMap_cons, List.head?_append]
    cases h : (f c).head? with
    | none => exact ih
    | some d => rwa [h] at hfirst

/-- Where no spelling begins with the quote, backslashes are dropped in each one for itself. -/
theorem dropEscape_flatMap {f : Char → List Char} (hf : ∀ c, (f c).head? ≠ some q)
    (text : List Char) :
    dropEscape q (text.flatMap f) = text.flatMap fun c => dropEscape q (f c) := by
  induction text with
  | nil => rfl
  | cons c text ih =>
    rw [List.flatMap_cons, List.flatMap_cons, dropEscape_append _ (head?_flatMap_ne hf text), ih]

end Dropping

namespace Escapes

variable {c q : Char} {w : List Char}

/-- Every form has a character; `take_flatMap_take` depends on it. -/
theorem ne_nil (h : Escapes c w) : w ≠ [] := by
  cases h with
  | quote | letter | plain | codePoint => exact List.cons_ne_nil _ _

/-- Columns are ASCII, whatever the text is. -/
theorem isPrintableAscii_of_mem (h : Escapes c w) {d : Char} (hd : d ∈ w) :
    isPrintableAscii d = true := by
  have hletters : ∀ x ∈ ['t', 'r', 'n', '\\'], isPrintableAscii x = true :=
    List.all_iff_forall_prop.1 (by decide)
  cases h with
  | quote hquote =>
    rcases List.mem_cons.1 hd with rfl | hd
    · rfl
    · rw [List.mem_singleton.1 hd]
      rcases hquote with rfl | rfl <;> rfl
  | letter _ hletter =>
    rcases List.mem_cons.1 hd with rfl | hd
    · rfl
    · rw [List.mem_singleton.1 hd]
      exact hletters _ hletter
  | plain _ hc => rwa [List.mem_singleton.1 hd]
  | codePoint => exact (isPrintableAscii_of_mem_codePointEscape hd).1

/-- An escape begins with a backslash, or with a character that needs none. So `dropEscape_flatMap`
applies. -/
theorem head?_ne (h : Escapes c w) (hq : IsQuote q) : w.head? ≠ some q := by
  cases h with
  | quote | letter | codePoint => exact fun heq => hq.ne_backslash (Option.some.inj heq).symm
  | plain hquote =>
    intro heq
    exact hquote (Option.some.inj heq ▸ hq)

/-- A quote occurs in its own escape only. -/
theorem eq_of_mem (h : Escapes c w) (hq : IsQuote q) (hmem : q ∈ w) : c = q := by
  have hletters : ∀ x ∈ ['t', 'r', 'n', '\\'], ¬ IsQuote x :=
    List.all_iff_forall_prop.1 (by decide)
  cases h with
  | quote => exact (List.mem_singleton.1 (List.mem_of_ne_of_mem hq.ne_backslash hmem)).symm
  | letter _ hletter =>
    rcases List.mem_singleton.1 (List.mem_of_ne_of_mem hq.ne_backslash hmem) with rfl
    exact absurd hq (hletters q hletter)
  | plain => exact (List.mem_singleton.1 hmem).symm
  | codePoint => exact absurd hq (isPrintableAscii_of_mem_codePointEscape hmem).2

/-- `dropEscape q` acts on the escape of `q`, and on no other escape. -/
theorem dropEscape_eq (h : Escapes c w) (hq : IsQuote q) :
    dropEscape q w = if c = q then [q] else w := by
  by_cases hc : c = q
  · subst hc
    -- the other forms do not escape quotes
    cases h with
    | quote => simp [dropEscape]
    | letter hquote | plain hquote | codePoint hquote => exact absurd hq hquote
  · rw [if_neg hc, dropEscape_of_notMem fun hmem => hc (h.eq_of_mem hq hmem)]

end Escapes

/-- After both searches a character is spelled by `glyphs`. -/
theorem dropEscape_dropEscape_escape (c : Char) :
    dropEscape '\x27' (dropEscape '"' (escape c)) = glyphs c := by
  have hescape := escapes_escape c
  rw [hescape.dropEscape_eq (.inl rfl)]
  by_cases hdouble : c = '"'
  · subst hdouble
    rfl
  · rw [if_neg hdouble, hescape.dropEscape_eq (.inr rfl)]
    by_cases hsingle : c = '\x27'
    · subst hsingle
      rfl
    · simp [glyphs, IsQuote, hdouble, hsingle]

/-- The two searches through the whole escaped text come to `escaped`, character by character. -/
theorem dropEscape_flatMap_escape (text : List Char) :
    dropEscape '\x27' (dropEscape '"' (text.flatMap escape)) = escaped text := by
  have hbefore : ∀ c, (escape c).head? ≠ some '"' := fun c =>
    (escapes_escape c).head?_ne (.inl rfl)
  -- the first search leaves a double quote or an escape, and neither begins with a single quote
  have hbetween : ∀ c, (dropEscape '"' (escape c)).head? ≠ some '\x27' := by
    intro c
    rw [(escapes_escape c).dropEscape_eq (.inl rfl)]
    split
    · decide
    · exact (escapes_escape c).head?_ne (.inr rfl)
  rw [dropEscape_flatMap hbefore, dropEscape_flatMap hbetween]
  simp only [dropEscape_dropEscape_escape]
  rfl

/-! ## Cutting -/

/-- Spelling never makes a text shorter. -/
theorem length_le_flatMap {f : Char → List Char} (hf : ∀ c, f c ≠ []) (text : List Char) :
    text.length ≤ (text.flatMap f).length := by
  induction text with
  | nil => exact Nat.zero_le _
  | cons c text ih =>
    have hpos : 0 < (f c).length := List.length_pos_iff.2 (hf c)
    rw [List.flatMap_cons, List.length_append, List.length_cons]
    omega

/-- If nothing is spelled with no characters at all, then what lies behind the first `n` characters
of a text does not show in the first `n` characters of its spelling. -/
theorem take_flatMap_take {f : Char → List Char} (hf : ∀ c, f c ≠ []) (n : Nat)
    (text : List Char) : ((text.take n).flatMap f).take n = (text.flatMap f).take n := by
  rcases Nat.le_total text.length n with hshort | hlong
  · rw [List.take_of_length_le hshort]
  · -- the characters that the first cut leaves are enough to reach the second one
    have hlength : n ≤ ((text.take n).flatMap f).length := by
      have hle := length_le_flatMap hf (text.take n)
      rwa [List.length_take_of_le hlong] at hle
    calc ((text.take n).flatMap f).take n
        = ((text.take n).flatMap f ++ (text.drop n).flatMap f).take n :=
          (List.take_append_of_le_length hlength).symm
      _ = (text.flatMap f).take n := by
          rw [← List.flatMap_append, List.take_append_drop]

/-! ## What a column shows -/

/-- A quote is printable itself, and all else is an escape. -/
theorem isPrintableAscii_of_mem_glyphs {c d : Char} (h : d ∈ glyphs c) :
    isPrintableAscii d = true := by
  unfold glyphs at h
  split at h
  · rename_i hquote
    rw [List.mem_singleton.1 h]
    rcases hquote with rfl | rfl <;> rfl
  · exact (escapes_escape c).isPrintableAscii_of_mem h

theorem glyphs_ne_nil (c : Char) : glyphs c ≠ [] := by
  unfold glyphs
  split
  · exact List.cons_ne_nil _ _
  · exact (escapes_escape c).ne_nil

/-- The first cut cannot be seen behind the second one: what a column shows depends on the escaped
form of the whole text. -/
theorem columnText_eq (text : List Char) : columnText text = (escaped text).take columnWidth := by
  unfold columnText
  rw [dropEscape_flatMap_escape]
  exact take_flatMap_take glyphs_ne_nil columnWidth text

-- the backslash of the text stays, before a quote that has lost its own
example : columnText ['\\', '"'] = ['\\', '\\', '"'] := by decide

/-- The widths as numbers: 33 shown, 35 with the bars. -/
theorem column_eq (text : List Char) :
    column text = padRight 35 ('|' :: (escaped text).take 33 ++ ['|']) := by
  unfold column
  rw [columnText_eq]
  rfl

/-- The shown text is at most 33 long, so the padding fills the column exactly. -/
theorem length_column (text : List Char) : (column text).length = 35 := by
  have hshown : ((escaped text).take 33).length ≤ 33 := List.length_take_le 33 _
  rw [column_eq, length_padRight, List.length_append, List.length_cons, List.length_singleton]
  omega

/-- Bars, glyphs and spaces are all printable ASCII. -/
theorem all_isPrintableAscii_column (text : List Char) :
    (column text).all isPrintableAscii = true := by
  have hshown : ∀ d ∈ (escaped text).take 33, isPrintableAscii d = true := by
    intro d hd
    rcases List.mem_flatMap.1 (List.mem_of_mem_take hd) with ⟨c, -, hglyph⟩
    exact isPrintableAscii_of_mem_glyphs hglyph
  rw [List.all_eq_true, column_eq, padRight]
  intro d hd
  simp only [List.mem_append, List.mem_cons, List.mem_replicate, List.not_mem_nil, or_false] at hd
  rcases hd with ((rfl | hd) | rfl) | ⟨-, rfl⟩
  · rfl
  · exact hshown d hd
  · rfl
  · rfl

/-- Printable ASCII takes one byte for each character. -/
theorem byteSize_eq_length {chars : List Char} (h : chars.all isPrintableAscii = true) :
    byteSize chars = chars.length := by
  induction chars with
  | nil => rfl
  | cons c chars ih =>
    rw [List.all_cons, Bool.and_eq_true] at h
    have hone : c.utf8Size = 1 := by
      have hc := h.1
      simp only [isPrintableAscii, Bool.and_eq_true, decide_eq_true_eq] at hc
      refine Char.utf8Size_eq_one_iff.2 (UInt32.le_iff_toNat_le.2 ?_)
      exact Nat.le_trans hc.2 (by decide)
    rw [byteSize_cons, ih h.2, hone, List.length_cons, Nat.add_comm]

/-- Trimming undoes the padding, up to a last character that is not blank. -/
theorem trimRight_padRight (width : Nat) (line : List Char) {c : Char} (h : isBlank c = false) :
    trimRight (padRight width (line ++ [c])) = line ++ [c] := by
  have hspaces : ∀ d ∈ List.replicate (width - (line ++ [c]).length) ' ', isBlank d = true := by
    intro d hd
    rw [List.eq_of_mem_replicate hd]
    decide
  unfold trimRight padRight
  -- from the back, all of the padding is blank, and the character before it is not
  rw [List.reverse_append, List.reverse_replicate, List.dropWhile_append_of_pos hspaces,
    List.reverse_append, List.reverse_singleton, List.singleton_append, List.dropWhile_cons_of_neg]
  · simp
  · simp [h]

/-- The closing bar is not blank, so trimming stops there. -/
theorem trimRight_column (text : List Char) :
    trimRight (column text) = '|' :: (escaped text).take 33 ++ ['|'] := by
  rw [column_eq]
  exact trimRight_padRight 35 _ (by decide)

/-- The record of a step is its column and a second part that does not depend on the text. -/
theorem message_step (rest : List Char) (label : String) (op : Trace.Operation)
    (note : Trace.Note) :
    Trace.Record.message (.step rest label op note) =
      column rest ++ (' ' :: padRight Trace.Record.fieldWidth label.toList ++ " : ".toList ++
        padRight Trace.Record.fieldWidth op.render ++ note.render) := by
  unfold Trace.Record.message
  simp only [List.append_assoc]

/-- A column shows, between bars, the first characters of the escaped form of the whole text, as
many as there are or thirty-three. It always takes up thirty-five characters of printable ASCII, and
as many bytes. So what comes behind it in a trace record stands at the same place whatever the text
is. Only spaces are trimmed away in a printed cursor, which leaves the bars and all between them. -/
theorem column_shows_escaped_start (text : String) :
    let shown := (escaped text.toList).take 33
    column text.toList = padRight 35 ('|' :: shown ++ ['|']) ∧
    (column text.toList).length = 35 ∧
    (String.ofList (column text.toList)).utf8ByteSize = 35 ∧
    (column text.toList).all isPrintableAscii = true ∧
    (∀ label op note,
      (Trace.Record.message (.step text.toList label op note)).take 35 = column text.toList ∧
      ∀ other : List Char, (Trace.Record.message (.step text.toList label op note)).drop 35 =
        (Trace.Record.message (.step other label op note)).drop 35) ∧
    (∃ spaces, column text.toList = trimRight (column text.toList) ++ List.replicate spaces ' ') ∧
    ∀ before : List Char, (⟨before, text.toList⟩ : Cursor).display =
      "Cursor(" ++ toString (byteSize before) ++ ", |" ++ String.ofList shown ++ "|)" := by
  intro shown
  have hascii := all_isPrintableAscii_column text.toList
  refine ⟨column_eq _, length_column _, ?_, hascii, fun label op note => ?_, ?_, fun before => ?_⟩
  · rw [utf8ByteSize_ofList, byteSize_eq_length hascii, length_column]
  · rw [message_step]
    refine ⟨List.take_left' (length_column _), fun other => ?_⟩
    rw [message_step, List.drop_left' (length_column _), List.drop_left' (length_column _)]
  · refine ⟨35 - ('|' :: shown ++ ['|']).length, ?_⟩
    rw [trimRight_column, column_eq]
    rfl
  · have hbars : String.ofList ('|' :: shown ++ ['|']) = "|" ++ (String.ofList shown ++ "|") := by
      simp
    have hopening : ", |" = ", " ++ "|" := rfl
    have hclosing : "|)" = "|" ++ ")" := rfl
    unfold Cursor.display
    rw [trimRight_column, hbars, hopening, hclosing]
    simp only [String.append_assoc]
    rfl

end Text

end ParserCombinators
