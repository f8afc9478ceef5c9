import Mathlib.Computability.Language
import Mathlib.Data.List.TakeWhile
import ParserCombinators.Lexeme
import ParserCombinators.Proofs.Limits

/-!
# Scanners — the longest run of characters of a kind

Repeating a parser for one character takes the longest run of characters that it accepts. Blanks,
words and numbers are scanned in this way. Each scanner is described twice: by what it does at any
cursor, and by a language, the texts that it takes where the text behind them cannot be taken as
well.

- `Text.Clear`: a text that does not begin with a character of a kind
- `Cursor.skip`: the cursor behind the longest run
- `Grammar.ending_star_satisfy`, `Grammar.ending_plus_satisfy`: the longest run
- `Grammar.ending_token`, `Grammar.ending_token_char`: words and the blanks behind them
- `Text.blanks`, `Text.words`: the languages of blanks, and of texts with blanks behind them
- `Lexeme.numerals`, `Grammar.ending_integer`: the texts of an integer, and how they are read
-/

namespace ParserCombinators

variable {R : Type → Type} {α β : Type}

/-! ## Runs of characters -/

namespace Text

/-- The text does not begin with a character of the kind. -/
def Clear (kind : Char → Bool) (text : List Char) : Prop :=
  ∀ ch rest, text = ch :: rest → kind ch = false

variable {kind : Char → Bool}

@[simp] theorem clear_nil : Clear kind [] := by
  intro ch rest h
  cases h

@[simp] theorem clear_cons {ch : Char} {rest : List Char} :
    Clear kind (ch :: rest) ↔ kind ch = false := by
  constructor
  · intro h
    exact h ch rest rfl
  · intro h ch' rest' heq
    cases heq
    exact h

/-- A text that is clear of a kind is clear of every smaller one. -/
theorem Clear.mono {kind' : Char → Bool} {text : List Char}
    (hkind : ∀ ch, kind ch = true → kind' ch = true) (h : Clear kind' text) : Clear kind text := by
  intro ch rest htext
  have hch : kind' ch = false := h ch rest htext
  by_contra hne
  simp [hkind ch (by simpa using hne)] at hch

/-- What `dropWhile` leaves does not begin with the kind. -/
theorem clear_dropWhile (text : List Char) : Clear kind (text.dropWhile kind) := by
  induction text with
  | nil => exact clear_nil
  | cons ch rest ih =>
    by_cases h : kind ch = true
    · simpa [List.dropWhile, h] using ih
    · simp [List.dropWhile, h]

/-- A run that nothing of its kind follows is all that `takeWhile` takes. -/
theorem takeWhile_append {run rest : List Char} (hrun : ∀ ch ∈ run, kind ch = true)
    (hrest : Clear kind rest) : (run ++ rest).takeWhile kind = run := by
  rw [List.takeWhile_append_of_pos hrun]
  cases rest with
  | nil => simp
  | cons ch rest =>
    have hch : kind ch = false := clear_cons.1 hrest
    simp [hch]

/-- The same run is all that `dropWhile` drops. -/
theorem dropWhile_append {run rest : List Char} (hrun : ∀ ch ∈ run, kind ch = true)
    (hrest : Clear kind rest) : (run ++ rest).dropWhile kind = rest := by
  rw [List.dropWhile_append_of_pos hrun]
  cases rest with
  | nil => simp
  | cons ch rest =>
    have hch : kind ch = false := clear_cons.1 hrest
    simp [hch]

/-- No digit is blank, by the code points of both. -/
theorem isBlank_eq_false_of_isDigit {ch : Char} (h : ch.isDigit = true) : isBlank ch = false := by
  have hrange : 48 ≤ ch.toNat ∧ ch.toNat ≤ 57 := by
    simpa [Char.isDigit, UInt32.le_iff_toNat_le] using h
  -- none of the ranges of blanks meets that of the digits
  simp only [isBlank, within, blankRanges, List.any_eq_false, List.mem_cons, List.not_mem_nil,
    or_false]
  rintro range (rfl | rfl | rfl | rfl | rfl | rfl | rfl | rfl | rfl | rfl) <;> simp <;> omega

/-! ## Languages -/

def blanks : Language Char :=
  {text | ∀ ch ∈ text, isBlank ch = true}

theorem mem_blanks {text : List Char} : text ∈ blanks ↔ ∀ ch ∈ text, isBlank ch = true :=
  Iff.rfl

/-- The texts of a language with any blanks behind them. -/
def words (L : Language Char) : Language Char :=
  L * blanks

theorem mem_words {L : Language Char} {text : List Char} :
    text ∈ words L ↔ ∃ w ∈ L, ∃ spaces ∈ blanks, w ++ spaces = text :=
  Language.mem_mul

/-- A text that begins with a character that is not blank. -/
def Unindented (text : List Char) : Prop :=
  ∃ ch rest, text = ch :: rest ∧ isBlank ch = false

theorem Unindented.append {text : List Char} (h : Unindented text) (more : List Char) :
    Unindented (text ++ more) := by
  rcases h with ⟨ch, rest, rfl, hch⟩
  exact ⟨ch, rest ++ more, rfl, hch⟩

theorem Unindented.clear {text : List Char} (h : Unindented text) : Clear isBlank text := by
  rcases h with ⟨ch, rest, rfl, hch⟩
  exact clear_cons.2 hch

/-- Blanks behind a word do not change its first character. -/
theorem unindented_of_mem_words {L : Language Char} (hL : ∀ w ∈ L, Unindented w)
    {text : List Char} (h : text ∈ words L) : Unindented text := by
  rcases mem_words.1 h with ⟨w, hw, spaces, -, rfl⟩
  exact (hL w hw).append spaces

/-- A word of one character is that character and blanks. -/
theorem mem_words_singleton {ch : Char} {text : List Char} :
    text ∈ words {[ch]} ↔ ∃ spaces ∈ blanks, text = ch :: spaces := by
  rw [mem_words]
  constructor
  · rintro ⟨w, rfl, spaces, hspaces, rfl⟩
    exact ⟨spaces, hspaces, rfl⟩
  · rintro ⟨spaces, hspaces, rfl⟩
    exact ⟨[ch], rfl, spaces, hspaces, rfl⟩

theorem nil_notMem_words {ch : Char} : [] ∉ words {[ch]} := by
  intro h
  rcases mem_words_singleton.1 h with ⟨spaces, -, heq⟩
  cases heq

/-- A product that begins with a word of one character has no empty text. -/
theorem nil_notMem_words_mul {ch : Char} {L : Language Char} : [] ∉ words {[ch]} * L := by
  intro h
  rcases Language.mem_mul.1 h with ⟨w, hw, more, -, heq⟩
  have hnil : w = [] := (List.append_eq_nil_iff.1 heq).1
  rw [hnil] at hw
  exact nil_notMem_words hw

end Text

namespace Cursor

/-- The cursor behind the longest run of characters of a kind. -/
def skip (kind : Char → Bool) (c : Cursor) : Cursor :=
  ⟨(c.rest.takeWhile kind).reverse ++ c.before, c.rest.dropWhile kind⟩

/-- `skip` cuts the unread text in two. -/
theorem rest_eq_append_skip (kind : Char → Bool) (c : Cursor) :
    c.rest = c.rest.takeWhile kind ++ (c.skip kind).rest :=
  List.takeWhile_append_dropWhile.symm

/-- `skip` takes a run that nothing of its kind follows. -/
theorem skip_append {kind : Char → Bool} {run rest : List Char} (hrun : ∀ ch ∈ run, kind ch = true)
    (hrest : Text.Clear kind rest) (before : List Char) :
    skip kind ⟨before, run ++ rest⟩ = ⟨run.reverse ++ before, rest⟩ := by
  simp only [skip, Text.takeWhile_append hrun hrest, Text.dropWhile_append hrun hrest]

end Cursor

/-! ## Scanners -/

namespace Grammar

variable (g : Grammar R)

section

variable {p : Parser R Char} {accepts : Char → Bool}
  (hp : ∀ c, g.ending p c = g.ending (.satisfy accepts) c)

include hp

/-- `star p`, for a `p` that ends as `satisfy accepts`, takes the longest run of accepted
characters. By induction on the unread text. -/
theorem ending_star_satisfy (c : Cursor) :
    g.ending p.star c = .returned (.success (c.skip accepts) (c.rest.takeWhile accepts)) := by
  rcases c with ⟨before, rest⟩
  -- one round for each character, up to the first that is not accepted
  induction rest generalizing before with
  | nil =>
    rw [ending_star, hp, ending_satisfy_nil]
    rfl
  | cons ch rest ih =>
    rw [ending_star, hp, ending_satisfy_cons]
    by_cases h : accepts ch = true
    · simp [h, ih, Cursor.skip]
    · simp [h, Cursor.skip]

/-- `plus p` takes the longest run too, unless it is empty. -/
theorem ending_plus_satisfy (c : Cursor) :
    g.ending p.plus c =
      .returned (if c.rest.takeWhile accepts = [] then .failure
        else .success (c.skip accepts) (c.rest.takeWhile accepts)) := by
  rw [ending_plus, hp]
  rcases c with ⟨before, _ | ⟨ch, rest⟩⟩
  · simp
  · rw [ending_satisfy_cons]
    by_cases h : accepts ch = true
    · simp [h, g.ending_star_satisfy hp, Cursor.skip]
    · simp [h]

end

@[simp] theorem ending_blanks (c : Cursor) :
    g.ending Lexeme.blanks c = .returned (.success (c.skip Text.isBlank) ()) := by
  unfold Lexeme.blanks
  rw [ending_functor_map, g.ending_star_satisfy fun _ => rfl]
  rfl

/-- `token p` ends as `p` does, with the blanks behind it skipped. -/
theorem ending_token (p : Parser R α) (c : Cursor) :
    g.ending (Lexeme.token p) c =
      (g.ending p c).andThen fun after v => .returned (.success (after.skip Text.isBlank) v) := by
  unfold Lexeme.token
  simp only [ending_bind, ending_functor_map, ending_blanks, Ending.success_andThen]

theorem ending_char_self (ch : Char) (before rest : List Char) :
    g.ending (.char ch) ⟨before, ch :: rest⟩ = .returned (.success ⟨ch :: before, rest⟩ ch) := by
  simp [ending_char]

/-- `char ch` fails where the text does not begin with `ch`. -/
theorem ending_char_of_clear {ch : Char} {c : Cursor} (h : Text.Clear (· == ch) c.rest) :
    g.ending (.char ch) c = .returned .failure := by
  rcases c with ⟨before, _ | ⟨x, rest⟩⟩
  · simp [ending_char]
  · have hx : (x == ch) = false := h x rest rfl
    rw [ending_char, ending_satisfy_cons, hx]
    rfl

/-- A character with its blanks is taken as a whole. -/
theorem ending_token_char {ch : Char} {blanks rest : List Char}
    (hblanks : ∀ b ∈ blanks, Text.isBlank b = true) (hrest : Text.Clear Text.isBlank rest)
    (before : List Char) :
    g.ending (Lexeme.token (.char ch)) ⟨before, ch :: (blanks ++ rest)⟩ =
      .returned (.success ⟨(ch :: blanks).reverse ++ before, rest⟩ ch) := by
  rw [ending_token, ending_char_self, Ending.success_andThen, Cursor.skip_append hblanks hrest]
  simp

theorem ending_token_char_of_clear {ch : Char} {c : Cursor} (h : Text.Clear (· == ch) c.rest) :
    g.ending (Lexeme.token (.char ch)) c = .returned .failure := by
  rw [ending_token, g.ending_char_of_clear h, Ending.failure_andThen]

end Grammar

/-! ## Integers -/

namespace Decimal

def IsDigits (text : List Char) : Prop :=
  text ≠ [] ∧ ∀ d ∈ text, d.isDigit = true

/-- The digits that the library writes are digits in this sense. -/
theorem isDigits_toDigits (n : Nat) : IsDigits (Nat.toDigits 10 n) :=
  ⟨Nat.toDigits_ne_nil, fun _ => Nat.isDigit_of_mem_toDigits (by decide) (by decide)⟩

/-- `value` reads back what `Nat.toDigits` writes. -/
theorem value_toDigits (n : Nat) : value (Nat.toDigits 10 n) = n :=
  Nat.ofDigitChars_toDigits (by decide) (by decide)

/-- `natural?` accepts all digits. -/
theorem natural?_of_isDigits {digits : List Char} (h : IsDigits digits) :
    natural? digits = some (value digits) := by
  have hempty : digits.isEmpty = false := by simpa using h.1
  have hall : digits.all Char.isDigit = true := List.all_eq_true.2 h.2
  simp [natural?, hempty, hall]

/-- `signed?` reads digits as they are, as they begin with no sign. -/
theorem signed?_of_isDigits {digits : List Char} (h : IsDigits digits) :
    signed? digits = some (value digits : Int) := by
  have hnat : natural? digits = some (value digits) := natural?_of_isDigits h
  -- digits begin with neither of the signs
  have hminus : ∀ rest, digits ≠ '-' :: rest := by
    rintro rest rfl
    exact absurd (h.2 '-' (by simp)) (by decide)
  have hplus : ∀ rest, digits ≠ '+' :: rest := by
    rintro rest rfl
    exact absurd (h.2 '+' (by simp)) (by decide)
  unfold signed?
  split
  · exact absurd rfl (hminus _)
  · exact absurd rfl (hplus _)
  · rw [hnat]
    rfl

/-- `int64?` on digits, with or without a minus sign before them, is the check of the range. -/
theorem int64?_of_isDigits {digits : List Char} (h : IsDigits digits) (negative : Bool) :
    int64? (String.ofList (if negative then '-' :: digits else digits)) =
      fit? (if negative then -(value digits : Int) else value digits) := by
  have hnegative : signed? ('-' :: digits) = some (-(value digits : Int)) := by
    rw [signed?, natural?_of_isDigits h]
    rfl
  unfold int64?
  rw [String.toList_ofList]
  cases negative with
  | false => rw [if_neg Bool.false_ne_true, if_neg Bool.false_ne_true, signed?_of_isDigits h,
      Option.bind_some]
  | true => rw [if_pos rfl, if_pos rfl, hnegative, Option.bind_some]

/-- `fit?` gives back the number with this value. -/
theorem fit?_eq_some {n : Int} {i : Int64} : fit? n = some i ↔ i.toInt = n := by
  constructor
  · exact toInt_of_fit?
  · rintro rfl
    have hrange : inRange i.toInt = true := by
      have hlow : -2 ^ 63 ≤ i.toInt := i.le_toInt
      have hhigh : i.toInt < 2 ^ 63 := i.toInt_lt
      simp only [inRange, Bool.and_eq_true, decide_eq_true_eq]
      exact ⟨hlow, hhigh⟩
    rw [fit?, if_pos hrange, Int64.ofInt_toInt]

end Decimal

namespace Lexeme

/-- The texts of an integer: one or more digits, leading zeros allowed, or such digits directly
behind a minus sign. -/
def numerals (n : Int64) : Language Char :=
  {text | ∃ digits, Decimal.IsDigits digits ∧
    (text = digits ∧ n.toInt = Decimal.value digits ∨
      text = '-' :: digits ∧ n.toInt = -(Decimal.value digits : Int))}

/-- What the digits at a cursor stand for, with the sign before them. -/
def integerAt (negative : Bool) (c : Cursor) : Outcome Int64 :=
  let digits := c.rest.takeWhile Char.isDigit
  if digits = [] then .failure
  else match Decimal.fit? (if negative then -(Decimal.value digits : Int)
      else Decimal.value digits) with
    | none => .failure
    | some n => .success (c.skip Char.isDigit) n

end Lexeme

namespace Grammar

variable (g : Grammar R)

/-- `digits` takes the longest run of digits, or fails. -/
theorem ending_digits (c : Cursor) :
    g.ending Lexeme.digits c =
      .returned (if c.rest.takeWhile Char.isDigit = [] then .failure
        else .success (c.skip Char.isDigit) (String.ofList (c.rest.takeWhile Char.isDigit))) := by
  unfold Lexeme.digits Lexeme.digit
  rw [ending_functor_map, g.ending_plus_satisfy fun _ => rfl]
  by_cases h : c.rest.takeWhile Char.isDigit = [] <;> simp [h]

/-- An optional character, at any fuel. -/
theorem endingAt_option_char (fuel : Nat) (ch : Char) (c : Cursor) :
    g.endingAt fuel (.option (.char ch)) c =
      .returned (match c.rest with
        | [] => .success c .none
        | x :: rest =>
          if x = ch then .success ⟨x :: c.before, rest⟩ (some ch) else .success c .none) := by
  rcases c with ⟨before, _ | ⟨x, rest⟩⟩
  · simp [endingAt_option, endingAt_char]
  · by_cases h : x = ch
    · subst h
      simp [endingAt_option, endingAt_char]
    · simp [endingAt_option, endingAt_char, h]

theorem ending_option_char (ch : Char) (c : Cursor) :
    g.ending (.option (.char ch)) c =
      .returned (match c.rest with
        | [] => .success c .none
        | x :: rest =>
          if x = ch then .success ⟨x :: c.before, rest⟩ (some ch) else .success c .none) :=
  g.ending_of_endingAt fun fuel => g.endingAt_option_char fuel ch c

/-- What `integer` does once the sign is known is `integerAt`. -/
theorem ending_number (sign : Option Char) (c : Cursor) :
    ((g.ending Lexeme.digits c).andThen fun after ds =>
      g.ending (.ofOption (Decimal.int64? (if sign.isSome then "-" ++ ds else ds))) after) =
      .returned (Lexeme.integerAt sign.isSome c) := by
  rw [ending_digits]
  unfold Lexeme.integerAt
  by_cases hnil : c.rest.takeWhile Char.isDigit = []
  · rw [if_pos hnil, Ending.failure_andThen]
    simp only [hnil, if_true]
  · have hdigits : Decimal.IsDigits (c.rest.takeWhile Char.isDigit) :=
      ⟨hnil, fun _ => List.mem_takeWhile_imp⟩
    -- the sign is put back before the digits, and both are read as one text
    have htext : (if sign.isSome then "-" ++ String.ofList (c.rest.takeWhile Char.isDigit)
        else String.ofList (c.rest.takeWhile Char.isDigit)) =
        String.ofList (if sign.isSome then '-' :: c.rest.takeWhile Char.isDigit
          else c.rest.takeWhile Char.isDigit) := by
      cases sign.isSome with
      | false => rfl
      | true => exact String.toList_injective (by simp)
    rw [if_neg hnil, Ending.success_andThen, htext, Decimal.int64?_of_isDigits hdigits]
    simp only [hnil, if_false]
    cases Decimal.fit? _ with
    | none => rw [ending_ofOption_none]
    | some n => rw [ending_ofOption_some]

/-- `integer` is `integerAt` behind the sign, if there is one. -/
theorem ending_integer (c : Cursor) :
    g.ending Lexeme.integer c =
      .returned (match c.rest with
        | '-' :: rest => Lexeme.integerAt true ⟨'-' :: c.before, rest⟩
        | _ => Lexeme.integerAt false c) := by
  have hunfold : g.ending Lexeme.integer c =
      (g.ending (.option (.char '-')) c).andThen fun c' sign =>
        (g.ending Lexeme.digits c').andThen fun after ds =>
          g.ending (.ofOption (Decimal.int64? (if sign.isSome then "-" ++ ds else ds))) after := by
    unfold Lexeme.integer
    rw [ending_bind]
    change ((g.ending (Parser.option (.char '-') >>= fun sign =>
      (fun ds => (sign, ds)) <$> Lexeme.digits) c).andThen _) = _
    rw [ending_bind]
    rcases g.ending (.option (.char '-')) c with (_ | ⟨c', sign⟩) | _ | _
    · rfl
    · simp only [Ending.success_andThen, ending_functor_map]
      rcases g.ending Lexeme.digits c' with (_ | _) | _ | _ <;> rfl
    · rfl
    · rfl
  -- a sign that is there is always taken, so the digits are looked for behind it only
  rw [hunfold, ending_option_char]
  rcases c with ⟨before, _ | ⟨x, rest⟩⟩
  · exact ending_number g .none _
  · by_cases hx : x = '-'
    · subst hx
      exact ending_number g (some '-') ⟨'-' :: before, rest⟩
    · simp only [hx, if_false, Ending.success_andThen]
      rw [ending_number g .none]
      split
      · next heq => exact absurd (List.cons.inj heq).1 hx
      · rfl

end Grammar

namespace Lexeme

/-- `integerAt` succeeds on the digits of a number in range and takes all of them. -/
theorem integerAt_eq_success {negative : Bool} {c c' : Cursor} {n : Int64} :
    integerAt negative c = .success c' n ↔
      Decimal.IsDigits (c.rest.takeWhile Char.isDigit) ∧ c' = c.skip Char.isDigit ∧
        n.toInt = if negative then -(Decimal.value (c.rest.takeWhile Char.isDigit) : Int)
          else Decimal.value (c.rest.takeWhile Char.isDigit) := by
  unfold integerAt
  by_cases hnil : c.rest.takeWhile Char.isDigit = []
  · simp [hnil, Decimal.IsDigits]
  · have hdigits : Decimal.IsDigits (c.rest.takeWhile Char.isDigit) :=
      ⟨hnil, fun _ => List.mem_takeWhile_imp⟩
    simp only [hnil, if_false, hdigits, true_and]
    rw [← Decimal.fit?_eq_some]
    cases Decimal.fit? _ with
    | none => simp
    | some m => simp [eq_comm]

end Lexeme

namespace Grammar

variable (g : Grammar R)

/-- Completeness of `integer`: it takes each numeral that no digit follows. -/
theorem ending_integer_numeral {n : Int64} {text rest : List Char}
    (htext : text ∈ Lexeme.numerals n) (hrest : Text.Clear Char.isDigit rest) (before : List Char) :
    g.ending Lexeme.integer ⟨before, text ++ rest⟩ =
      .returned (.success ⟨text.reverse ++ before, rest⟩ n) := by
  rcases htext with ⟨digits, hdigits, ⟨rfl, hn⟩ | ⟨rfl, hn⟩⟩
  · have htake : (text ++ rest).takeWhile Char.isDigit = text :=
      Text.takeWhile_append hdigits.2 hrest
    have hsuccess : Lexeme.integerAt false ⟨before, text ++ rest⟩ =
        .success ⟨text.reverse ++ before, rest⟩ n := by
      rw [Lexeme.integerAt_eq_success, htake, Cursor.skip_append hdigits.2 hrest]
      exact ⟨hdigits, rfl, hn⟩
    -- a text of digits has no sign to be taken off
    rw [ending_integer]
    split
    · next heq =>
      cases text with
      | nil => exact absurd rfl hdigits.1
      | cons d ds =>
        have hd : d = '-' := (List.cons.inj heq).1
        exact absurd (hdigits.2 d (by simp)) (by rw [hd]; decide)
    · rw [hsuccess]
  · have htake : (digits ++ rest).takeWhile Char.isDigit = digits :=
      Text.takeWhile_append hdigits.2 hrest
    have hsuccess : Lexeme.integerAt true ⟨'-' :: before, digits ++ rest⟩ =
        .success ⟨digits.reverse ++ '-' :: before, rest⟩ n := by
      rw [Lexeme.integerAt_eq_success, htake, Cursor.skip_append hdigits.2 hrest]
      exact ⟨hdigits, rfl, hn⟩
    rw [ending_integer]
    simp only [List.cons_append, hsuccess, List.reverse_cons, List.append_assoc,
      List.nil_append]

/-- Soundness of `integer`: what it takes is a numeral of its value, and no digit follows. -/
theorem numeral_of_ending_integer {c c' : Cursor} {n : Int64}
    (h : g.ending Lexeme.integer c = .returned (.success c' n)) :
    ∃ text ∈ Lexeme.numerals n, c.rest = text ++ c'.rest ∧ Text.Clear Char.isDigit c'.rest := by
  rw [ending_integer, Ending.returned.injEq] at h
  split at h
  · next rest hrest =>
    rcases Lexeme.integerAt_eq_success.1 h with ⟨hdigits, rfl, hn⟩
    refine ⟨'-' :: rest.takeWhile Char.isDigit, ⟨_, hdigits, .inr ⟨rfl, hn⟩⟩, ?_,
      Text.clear_dropWhile _⟩
    rw [hrest, List.cons_append]
    exact congrArg _ List.takeWhile_append_dropWhile.symm
  · rcases Lexeme.integerAt_eq_success.1 h with ⟨hdigits, rfl, hn⟩
    exact ⟨_, ⟨_, hdigits, .inl ⟨rfl, hn⟩⟩, Cursor.rest_eq_append_skip _ c,
      Text.clear_dropWhile _⟩

/-- `integer` always has an outcome. -/
theorem ending_integer_ne_panicked (c : Cursor) (p : Panic) :
    g.ending Lexeme.integer c ≠ .panicked p := by
  rw [ending_integer]
  exact fun h => nomatch h

end Grammar

end ParserCombinators
