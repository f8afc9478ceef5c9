import ParserCombinators.Proofs.Termination
import ParserCombinators.Proofs.Scanners

/-!
# Numerals — integers are read exactly

An integer is read off an optional minus sign and all digits behind it, however many there are,
zeros in front included. It is taken if the number that they write lies in the signed 64-bit range,
which reaches one further down than up, and is refused otherwise, although its text has been read by
then. In particular the decimal text of every number of the range is read back as that number.

- `Lexeme.signOf`, `Lexeme.digitsOf`, `Lexeme.numberOf`: what a text begins with, and the number
  that it writes
- `Lexeme.mem_numerals_toString`: the decimal text of a number is one of its texts
- `Grammar.endingAt_integer_ne_exhausted`: reading an integer ends
- `Grammar.ending_integer_eq_success`: which texts are taken, and as what
- `Grammar.integer_is_exact`: all of this together
-/

namespace ParserCombinators

variable {R : Type → Type} {α : Type}

namespace Cursor

/-- The span of `takeWhile kind` leads to `skip kind`, and nowhere else. -/
theorem spans_takeWhile {kind : Char → Bool} {c c' : Cursor} :
    c.Spans (c.rest.takeWhile kind) c' ↔ c' = c.skip kind := by
  constructor
  · rintro ⟨hrest, hbefore⟩
    have hskip : c'.rest = (c.skip kind).rest :=
      List.append_cancel_left (hrest.symm.trans (c.rest_eq_append_skip kind))
    rcases c' with ⟨before, rest⟩
    rw [skip, mk.injEq]
    exact ⟨hbefore, hskip⟩
  · rintro rfl
    exact ⟨c.rest_eq_append_skip kind, rfl⟩

end Cursor

namespace Lexeme

/-! ## What a text begins with -/

def signOf (text : List Char) : List Char :=
  if text.head? = some '-' then ['-'] else []

def digitsOf (text : List Char) : List Char :=
  (text.drop (signOf text).length).takeWhile Char.isDigit

/-- The number that sign and digits write. -/
def numberOf (text : List Char) : Int :=
  if signOf text = [] then Nat.ofDigitChars 10 (digitsOf text) 0
  else -(Nat.ofDigitChars 10 (digitsOf text) 0 : Int)

/-- Sign and digits are read off the start of the text. -/
theorem signOf_append_digitsOf_prefix (text : List Char) :
    signOf text ++ digitsOf text <+: text := by
  have hsign : signOf text <+: text := by
    unfold signOf
    split
    · next hhead =>
      rcases List.head?_eq_some_iff.1 hhead with ⟨rest, rfl⟩
      exact ⟨rest, rfl⟩
    · exact List.nil_prefix
  rcases hsign with ⟨rest, hrest⟩
  have hdrop : text.drop (signOf text).length = rest := by
    simpa using congrArg (List.drop (signOf text).length) hrest.symm
  rw [digitsOf, hdrop]
  calc signOf text ++ rest.takeWhile Char.isDigit
      <+: signOf text ++ rest := (List.prefix_append_right_inj _).2 (List.takeWhile_prefix _)
    _ = text := hrest

/-- `integerAt` takes the longest run of digits, with the value of the run under the sign. -/
theorem integerAt_eq_success_iff_spans {negative : Bool} {c c' : Cursor} {n : Int64} :
    integerAt negative c = .success c' n ↔
      c.rest.takeWhile Char.isDigit ≠ [] ∧
        n.toInt = (if negative then -(Decimal.value (c.rest.takeWhile Char.isDigit) : Int)
          else Decimal.value (c.rest.takeWhile Char.isDigit)) ∧
        c.Spans (c.rest.takeWhile Char.isDigit) c' := by
  -- all of `takeWhile isDigit` are digits, so that only its length is in question
  have hdigits : Decimal.IsDigits (c.rest.takeWhile Char.isDigit) ↔
      c.rest.takeWhile Char.isDigit ≠ [] :=
    ⟨And.left, fun hne => ⟨hne, fun _ => List.mem_takeWhile_imp⟩⟩
  rw [integerAt_eq_success, hdigits, Cursor.spans_takeWhile]
  exact and_congr_right' and_comm

/-! ## Decimal texts -/

/-- `toString n` is one of the numerals of `n`, by the library's digits of its absolute value. -/
theorem mem_numerals_toString (n : Int64) : (toString n).toList ∈ numerals n := by
  show (Int.repr n.toInt).toList ∈ numerals n
  rcases hn : n.toInt with m | m
  · refine ⟨Nat.toDigits 10 m, Decimal.isDigits_toDigits m, .inl ⟨Nat.toList_repr, ?_⟩⟩
    rw [hn, Decimal.value_toDigits]
    rfl
  -- a negative number is written with the digits of its absolute value
  · refine ⟨Nat.toDigits 10 (m + 1), Decimal.isDigits_toDigits (m + 1), .inr ⟨?_, ?_⟩⟩
    · show ("-" ++ (m + 1).repr).toList = _
      rw [String.toList_append, Nat.toList_repr]
      rfl
    · rw [hn, Decimal.value_toDigits]
      rfl

end Lexeme

namespace Grammar

variable (g : Grammar R) (fuel : Nat)

/-! ## Reading ends -/

/-- `digits` comes to its end with more fuel than there is text. -/
theorem endingAt_digits_ne_exhausted {c : Cursor} (h : c.rest.length < fuel) :
    g.endingAt fuel Lexeme.digits c ≠ .exhausted := by
  unfold Lexeme.digits
  rw [endingAt_functor_map]
  refine andThen_ne_exhausted ?_ fun _ _ _ h => nomatch h
  rw [endingAt_plus]
  refine andThen_ne_exhausted (like_ne_exhausted _ c) fun next ch hfirst => ?_
  -- each round takes a digit, so that there are fuel and characters enough for them
  have hshort : next.rest.length < c.rest.length := shorter_like hfirst
  have hloop : g.loopAt fuel Lexeme.digit fuel next ≠ .exhausted :=
    loopAt_ne_exhausted (fun c _ => like_ne_exhausted _ c) (fun _ _ _ => shorter_like) le_rfl
      (hshort.trans h)
  intro hends
  rcases Ending.bind_eq_exhausted.1 hends with hrounds | ⟨found, -, hreturned⟩
  · exact hloop hrounds
  · cases hreturned

/-- An optional character leaves no more text than there was, so that the fuel is enough behind
it. -/
theorem length_le_of_option_char {ch : Char} {c after : Cursor} {found : Option Char}
    (h : g.endingAt fuel (.option (.char ch)) c = .returned (.success after found)) :
    after.rest.length ≤ c.rest.length := by
  rw [endingAt_option_char] at h
  rcases c with ⟨before, _ | ⟨x, rest⟩⟩
  · cases h
    exact le_rfl
  · by_cases hx : x = ch
    · simp only [hx, if_true] at h
      cases h
      exact Nat.le_succ _
    · simp only [hx, if_false] at h
      cases h
      exact le_rfl

/-- `ofOption` takes no fuel. -/
theorem endingAt_ofOption_ne_exhausted (found : Option α) (c : Cursor) :
    g.endingAt fuel (.ofOption found) c ≠ .exhausted := by
  cases found with
  | none => simp
  | some v => simp

/-- `integer` comes to its end with more fuel than there is text, part by part. -/
theorem endingAt_integer_ne_exhausted {c : Cursor} (h : c.rest.length < fuel) :
    g.endingAt fuel Lexeme.integer c ≠ .exhausted := by
  unfold Lexeme.integer
  rw [endingAt_bind]
  refine andThen_ne_exhausted ?_ fun after found _ => ?_
  · change g.endingAt fuel (Parser.option (.char '-') >>= fun sign =>
      (fun ds => (sign, ds)) <$> Lexeme.digits) c ≠ _
    rw [endingAt_bind]
    refine andThen_ne_exhausted (by simp [endingAt_option_char]) fun after sign hsign => ?_
    have hfuel : after.rest.length < fuel := (g.length_le_of_option_char fuel hsign).trans_lt h
    rw [endingAt_functor_map]
    exact andThen_ne_exhausted (g.endingAt_digits_ne_exhausted fuel hfuel) fun _ _ _ h => nomatch h
  · exact g.endingAt_ofOption_ne_exhausted fuel _ after

/-- With more fuel than text, `integer` ends as it does without a bound. -/
theorem endingAt_integer {c : Cursor} (h : c.rest.length < fuel) :
    g.endingAt fuel Lexeme.integer c = g.ending Lexeme.integer c :=
  (ending_eq_of_ne (g.endingAt_integer_ne_exhausted fuel h)).symm

/-! ## What is taken -/

open Lexeme (signOf digitsOf numberOf)

/-- `integer` matches where there are digits: `n` is the number that sign and digits write, and they
are what is read. -/
theorem ending_integer_eq_success {c c' : Cursor} {n : Int64} :
    g.ending Lexeme.integer c = .returned (.success c' n) ↔
      digitsOf c.rest ≠ [] ∧ n.toInt = numberOf c.rest ∧
        c.Spans (signOf c.rest ++ digitsOf c.rest) c' := by
  rw [ending_integer, Ending.returned.injEq]
  split
  -- the digits behind a sign are looked for one character further on
  · next behind hrest =>
    have hspans : c.Spans ('-' :: behind.takeWhile Char.isDigit) c' ↔
        (⟨'-' :: c.before, behind⟩ : Cursor).Spans (behind.takeWhile Char.isDigit) c' := by
      simp [Cursor.Spans, hrest]
    rw [Lexeme.integerAt_eq_success_iff_spans, hrest]
    exact and_congr_right' (and_congr_right' hspans.symm)
  · next hunsigned =>
    have hnone : signOf c.rest = [] := by
      refine if_neg fun hsign => ?_
      rcases List.head?_eq_some_iff.1 hsign with ⟨behind, hrest⟩
      exact hunsigned behind hrest
    have hdigits : digitsOf c.rest = c.rest.takeWhile Char.isDigit := by simp [digitsOf, hnone]
    have hnumber : numberOf c.rest = Decimal.value (c.rest.takeWhile Char.isDigit) := by
      rw [numberOf, if_pos hnone, hdigits]
      rfl
    rw [Lexeme.integerAt_eq_success_iff_spans, hnone, hdigits, hnumber]
    exact Iff.rfl

/-- `integer` matches where there are digits and their number is in range. -/
theorem exists_ending_integer_iff {c : Cursor} :
    (∃ c' n, g.ending Lexeme.integer c = .returned (.success c' n)) ↔
      digitsOf c.rest ≠ [] ∧ -2 ^ 63 ≤ numberOf c.rest ∧ numberOf c.rest ≤ 2 ^ 63 - 1 := by
  simp only [ending_integer_eq_success]
  constructor
  · rintro ⟨c', n, hdigits, hn, -⟩
    rw [← hn]
    exact ⟨hdigits, n.le_toInt, Int.le_sub_one_of_lt n.toInt_lt⟩
  · rintro ⟨hdigits, hlower, hupper⟩
    -- a number in range is that of the bits it is stored in
    have hfits : (Int64.ofInt (numberOf c.rest)).toInt = numberOf c.rest :=
      Int64.toInt_ofInt_of_le hlower (Int.lt_of_le_sub_one hupper)
    rcases Lexeme.signOf_append_digitsOf_prefix c.rest with ⟨behind, hrest⟩
    exact ⟨⟨(signOf c.rest ++ digitsOf c.rest).reverse ++ c.before, behind⟩, _, hdigits, hfits,
      hrest.symm, rfl⟩

/-- `integer` has an outcome everywhere, so where it does not match it fails. -/
theorem ending_integer_eq_failure {c : Cursor}
    (h : ¬ ∃ c' n, g.ending Lexeme.integer c = .returned (.success c' n)) :
    g.ending Lexeme.integer c = .returned .failure := by
  have houtcome : ∃ outcome, g.ending Lexeme.integer c = .returned outcome :=
    ⟨_, g.ending_integer c⟩
  rcases houtcome with ⟨_ | ⟨c', n⟩, houtcome⟩
  · exact houtcome
  · exact absurd ⟨c', n, houtcome⟩ h

/-- An integer is read where a text begins with an optional sign and digits, if the number that they
write is in the signed 64-bit range: it is read as that number, and the cursor stands behind the
last of the digits. Everywhere else reading it fails. So the decimal text of every number of the
range is read back as that number, whatever follows it that is not a digit. -/
theorem integer_is_exact (level : Trace.Level) (label : String) :
    (∀ (c : Cursor) (fuel : Nat), c.rest.length < fuel →
      ((∃ c' n, (g.run fuel Lexeme.integer c level label).ending = .returned (.success c' n)) ↔
        digitsOf c.rest ≠ [] ∧ -2 ^ 63 ≤ numberOf c.rest ∧ numberOf c.rest ≤ 2 ^ 63 - 1) ∧
      (∀ c' n, (g.run fuel Lexeme.integer c level label).ending = .returned (.success c' n) →
        n.toInt = numberOf c.rest ∧ c.Spans (signOf c.rest ++ digitsOf c.rest) c') ∧
      (¬ (digitsOf c.rest ≠ [] ∧ -2 ^ 63 ≤ numberOf c.rest ∧ numberOf c.rest ≤ 2 ^ 63 - 1) →
        (g.run fuel Lexeme.integer c level label).ending = .returned .failure)) ∧
    ∀ (n : Int64) (before rest : List Char), Text.Clear Char.isDigit rest →
      ∀ fuel, ((toString n).toList ++ rest).length < fuel →
        (g.run fuel Lexeme.integer ⟨before, (toString n).toList ++ rest⟩ level label).ending =
          .returned (.success ⟨(toString n).toList.reverse ++ before, rest⟩ n) := by
  refine ⟨fun c fuel hfuel => ?_, fun n before rest hrest fuel hfuel => ?_⟩
  · rw [run_ending, g.endingAt_integer fuel hfuel, ← exists_ending_integer_iff]
    exact ⟨Iff.rfl, fun c' n h => (g.ending_integer_eq_success.1 h).2, g.ending_integer_eq_failure⟩
  · rw [run_ending, g.endingAt_integer fuel hfuel]
    exact g.ending_integer_numeral (Lexeme.mem_numerals_toString n) hrest before

/-- The least number is read back, behind a letter and in front of one; the text of one more than
the greatest is refused. -/
theorem integer_is_exact_limits :
    (Grammar.none.run 22 Lexeme.integer ⟨['a'], (toString Int64.minValue).toList ++ ['x']⟩
        .off "").ending =
      .returned (.success ⟨"-9223372036854775808".toList.reverse ++ ['a'], ['x']⟩
        Int64.minValue) ∧
    (Grammar.none.run 22 Lexeme.integer ⟨[], "09223372036854775808".toList⟩ .off "").ending =
      .returned .failure := by
  rcases integer_is_exact Grammar.none .off "" with ⟨hexact, hback⟩
  constructor
  · exact hback Int64.minValue ['a'] ['x'] (by simp) 22 (by decide)
  · exact (hexact ⟨[], "09223372036854775808".toList⟩ 22 (by decide)).2.2 (by decide)

end Grammar

end ParserCombinators
