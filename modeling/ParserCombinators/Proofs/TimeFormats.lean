import Mathlib.Algebra.BigOperators.Group.List.Basic
import Mathlib.Computability.Language
import Mathlib.Order.CompletePartialOrder
import ParserCombinators.Grammars.Clock
import ParserCombinators.Proofs.Scanners

/-!
# Time formats — the texts of times and of arrays of times

The texts of times and of their arrays are described twice: as a format, which says what may be
written, and as a family of languages, which says what is written for which values. The two agree.
In a text of the format, some characters announce what comes behind them, and the closing brace
comes last.

- `Clock.timeFormat`, `Clock.arrayFormat`: what may be written
- `Clock.timeTexts`, `Clock.arrayTexts`: the texts of a time, and of a list of times
- `Clock.mem_secondsTexts`: seconds with and without a fraction, by their digits
- `Clock.mem_arrayFormat_iff`: every text of the format has its times
- `Text.Announces`: wherever the character stands, a text of the language stands behind it
- `Clock.exists_inside`: the closing brace, and what the characters before it announce
- `Clock.eq_of_prefix_of_arrayFormat`: a text begins with one array at most
- `Clock.not_prefix_of_unclosed`, `Clock.not_prefix_of_trailing_comma`,
  `Clock.not_prefix_of_short_fraction`: texts that begin with no array
-/

namespace ParserCombinators

open scoped Computability

namespace Text

/-- The star of a union is the union of the finite products. Both directions by induction on the
parts. -/
theorem kstar_iSup {ι : Type} (L : ι → Language Char) :
    (⨆ i, L i)∗ = ⨆ is : List ι, (is.map L).prod := by
  ext text
  rw [Language.mem_kstar, Language.mem_iSup]
  constructor
  · rintro ⟨parts, rfl, hparts⟩
    -- one member of the family for each part, by induction on the parts
    induction parts with
    | nil => exact ⟨[], rfl⟩
    | cons w parts ih =>
      rcases List.forall_mem_cons.1 hparts with ⟨hw, hlater⟩
      rcases Language.mem_iSup.1 hw with ⟨i, hi⟩
      rcases ih hlater with ⟨is, his⟩
      refine ⟨i :: is, ?_⟩
      rw [List.map_cons, List.prod_cons]
      exact Language.append_mem_mul hi his
  · rintro ⟨is, his⟩
    -- the parts behind the first are given by induction on the indices
    induction is generalizing text with
    | nil => exact ⟨[], his, nofun⟩
    | cons i is ih =>
      rw [List.map_cons, List.prod_cons] at his
      rcases Language.mem_mul.1 his with ⟨w, hw, later, hlater, rfl⟩
      rcases ih later hlater with ⟨parts, rfl, hparts⟩
      exact ⟨w :: parts, rfl, List.forall_mem_cons.2 ⟨Language.mem_iSup.2 ⟨i, hw⟩, hparts⟩⟩

end Text

/-! ## Digits -/

namespace Decimal

def fixed (width : Nat) : Language Char :=
  {text | text.length = width ∧ ∀ d ∈ text, d.isDigit = true}

/-- The texts of a number in so many digits. -/
def padded (width n : Nat) : Language Char :=
  {text | text ∈ fixed width ∧ Nat.ofDigitChars 10 text 0 = n}

theorem mem_padded_ofDigitChars {width : Nat} {text : List Char} (h : text ∈ fixed width) :
    text ∈ padded width (Nat.ofDigitChars 10 text 0) :=
  ⟨h, rfl⟩

/-- `Decimal.IsDigits` asks for one digit at least, hence the successor. -/
theorem isDigits_of_mem_fixed {width : Nat} {text : List Char} (h : text ∈ fixed (width + 1)) :
    IsDigits text := by
  refine ⟨?_, h.2⟩
  rintro rfl
  cases h.1

/-- Positional notation: appending digits shifts the value by their number. -/
theorem value_append (digits more : List Char) :
    value (digits ++ more) = 10 ^ more.length * value digits + value more := by
  have happend : value (digits ++ more) = Nat.ofDigitChars 10 more (value digits) :=
    Nat.ofDigitChars_append 0
  rw [happend]
  exact Nat.ofDigitChars_eq_ofDigitChars_zero

end Decimal

namespace Binary64

/-- Inversion of the sign match of `ofText?`: a digit is neither sign. -/
theorem ofText?_of_isDigit {d : Char} {more : List Char} (hd : d.isDigit = true) :
    ofText? (String.ofList (d :: more)) = ofUnsigned? false (d :: more) := by
  unfold ofText?
  rw [String.toList_ofList]
  split
  -- the two signs are no digits
  · next heq =>
    rw [(List.cons.inj heq).1] at hd
    exact absurd hd (by decide)
  · next heq =>
    rw [(List.cons.inj heq).1] at hd
    exact absurd hd (by decide)
  · rfl

/-- Without a point, `splitDigits` leaves nothing behind the whole part. -/
theorem splitDigits_of_digits {whole : List Char} (hwhole : ∀ d ∈ whole, d.isDigit = true) :
    splitDigits whole = (whole, [], []) := by
  simp [splitDigits, List.takeWhile_eq_self_iff.2 hwhole, List.dropWhile_eq_nil_iff.2 hwhole]

/-- The point ends the first run of digits, and the second one reaches the end. -/
theorem splitDigits_of_point {whole fraction : List Char} (hwhole : ∀ d ∈ whole, d.isDigit = true)
    (hfraction : ∀ d ∈ fraction, d.isDigit = true) :
    splitDigits (whole ++ '.' :: fraction) = (whole, fraction, []) := by
  have hclear : Text.Clear Char.isDigit ('.' :: fraction) := Text.clear_cons.2 (by decide)
  simp [splitDigits, Text.takeWhile_append hwhole hclear, Text.dropWhile_append hwhole hclear,
    List.takeWhile_eq_self_iff.2 hfraction, List.dropWhile_eq_nil_iff.2 hfraction]

/-- For a whole number, the decimal exponent is zero. -/
theorem ofText?_of_digits {whole : List Char} (hwhole : Decimal.IsDigits whole) :
    ofText? (String.ofList whole) = some (ofDecimal false (Decimal.value whole) 0) := by
  rcases hwhole with ⟨hne, hdigits⟩
  cases whole with
  | nil => exact absurd rfl hne
  | cons d digits =>
    rw [ofText?_of_isDigit (hdigits d List.mem_cons_self), ofUnsigned?,
      splitDigits_of_digits hdigits]
    simp [exponent?]

/-- Each digit behind the point lowers the decimal exponent by one. -/
theorem ofText?_of_point {whole fraction : List Char} (hwhole : Decimal.IsDigits whole)
    (hfraction : ∀ d ∈ fraction, d.isDigit = true) :
    ofText? (String.ofList (whole ++ '.' :: fraction)) =
      some (ofDecimal false (Decimal.value (whole ++ fraction)) (-(fraction.length : Int))) := by
  rcases hwhole with ⟨hne, hdigits⟩
  cases whole with
  | nil => exact absurd rfl hne
  | cons d digits =>
    rw [List.cons_append, ofText?_of_isDigit (hdigits d List.mem_cons_self), ofUnsigned?,
      ← List.cons_append, splitDigits_of_point hdigits hfraction]
    simp [exponent?]

end Binary64

/-! ## Times -/

namespace Clock

def secondsFormat : Language Char :=
  Decimal.fixed 2 * (1 + {['.']} * Decimal.fixed 3)

/-- Three pairs of digits with colons between them; a fraction may stand behind the last. -/
def timeFormat : Language Char :=
  Decimal.fixed 2 * ({[':']} * (Decimal.fixed 2 * ({[':']} * secondsFormat)))

/-- Times with commas between them, or nothing. Blanks may stand behind each time and each comma. -/
def entryFormat : Language Char :=
  1 + Text.words timeFormat * (Text.words {[',']} * Text.words timeFormat)∗

/-- Times between braces, with commas between them; blanks may stand behind the opening brace as
well. -/
def arrayFormat : Language Char :=
  Text.words {['\x7b']} * (entryFormat * {['\x7d']})

def secondsTexts (x : Binary64) : Language Char :=
  {text | text ∈ secondsFormat ∧ Binary64.ofText? (String.ofList text) = some x}

/-- The texts of a time: hours and minutes in decimal, and the seconds. -/
def timeTexts (t : Time) : Language Char :=
  Decimal.padded 2 t.hours *
    ({[':']} * (Decimal.padded 2 t.minutes * ({[':']} * secondsTexts t.seconds)))

/-- The texts of times, one behind the other, with commas between them. -/
def entryTexts : List Time → Language Char
  | [] => 1
  | t :: ts =>
    Text.words (timeTexts t) * (ts.map fun u => Text.words {[',']} * Text.words (timeTexts u)).prod

def arrayTexts (ts : List Time) : Language Char :=
  Text.words {['\x7b']} * (entryTexts ts * {['\x7d']})

theorem entryTexts_singleton (t : Time) : entryTexts [t] = Text.words (timeTexts t) := by
  rw [entryTexts, List.map_nil, List.prod_nil, mul_one]

/-- The product over the later times unfolds to the texts of a shorter list. -/
theorem entryTexts_cons (t u : Time) (ts : List Time) :
    entryTexts (t :: u :: ts) = Text.words (timeTexts t) *
      (Text.words {[',']} * entryTexts (u :: ts)) := by
  simp only [entryTexts, List.map_cons, List.prod_cons, mul_assoc]

/-- Membership in the product of a time's parts, for any languages of hours, minutes and seconds. -/
theorem mem_colons {H M S : Language Char} {text : List Char} :
    text ∈ H * ({[':']} * (M * ({[':']} * S))) ↔
      ∃ hours ∈ H, ∃ minutes ∈ M, ∃ seconds ∈ S,
        text = hours ++ ':' :: (minutes ++ ':' :: seconds) := by
  simp only [Language.mem_mul]
  constructor
  · rintro ⟨hours, hhours, _, ⟨_, rfl, _, ⟨minutes, hminutes, _, ⟨_, rfl, seconds, hseconds, rfl⟩,
      rfl⟩, rfl⟩, rfl⟩
    exact ⟨hours, hhours, minutes, hminutes, seconds, hseconds, rfl⟩
  · rintro ⟨hours, hhours, minutes, hminutes, seconds, hseconds, rfl⟩
    exact ⟨hours, hhours, _, ⟨_, rfl, _, ⟨minutes, hminutes, _, ⟨_, rfl, seconds, hseconds, rfl⟩,
      rfl⟩, rfl⟩, rfl⟩

theorem mem_secondsFormat {text : List Char} :
    text ∈ secondsFormat ↔ ∃ whole ∈ Decimal.fixed 2, text = whole ∨
      ∃ fraction ∈ Decimal.fixed 3, text = whole ++ '.' :: fraction := by
  unfold secondsFormat
  simp only [Language.mem_mul, Language.mem_add, Language.mem_one]
  constructor
  · rintro ⟨whole, hwhole, _, rfl | ⟨_, rfl, fraction, hfraction, rfl⟩, rfl⟩
    · exact ⟨whole, hwhole, .inl (List.append_nil _)⟩
    · exact ⟨whole, hwhole, .inr ⟨fraction, hfraction, rfl⟩⟩
  · rintro ⟨whole, hwhole, rfl | ⟨fraction, hfraction, rfl⟩⟩
    · exact ⟨text, hwhole, [], .inl rfl, List.append_nil _⟩
    · exact ⟨whole, hwhole, '.' :: fraction, .inr ⟨['.'], rfl, fraction, hfraction, rfl⟩, rfl⟩

/-- The number in two digits is what `secondsOf` gives for absent thousandths. -/
theorem ofText?_whole {whole : List Char} {n : Nat} (hwhole : whole ∈ Decimal.padded 2 n) :
    Binary64.ofText? (String.ofList whole) = some (secondsOf n none) := by
  rcases hwhole with ⟨hwhole, rfl⟩
  exact Binary64.ofText?_of_digits (Decimal.isDigits_of_mem_fixed hwhole)

/-- The `value_append` form of `ofText?_of_point`, at three digits. -/
theorem ofText?_thousandths {whole fraction : List Char} {m : Nat}
    (hwhole : Decimal.IsDigits whole) (hfraction : fraction ∈ Decimal.padded 3 m) :
    Binary64.ofText? (String.ofList (whole ++ '.' :: fraction)) =
      some (.ofDecimal false (1000 * Decimal.value whole + m) (-3)) := by
  rcases hfraction with ⟨⟨hlength, hdigits⟩, rfl⟩
  rw [Binary64.ofText?_of_point hwhole hdigits, Decimal.value_append, hlength]
  rfl

/-- `secondsOf` in arithmetic: the text that it writes and reads back always is a number, and the
default is never taken. -/
theorem secondsOf_fraction (n : Nat) {m : Nat} {fraction : List Char}
    (hfraction : fraction ∈ Decimal.padded 3 m) :
    secondsOf n (some (String.ofList fraction)) = .ofDecimal false (1000 * n + m) (-3) := by
  have htext : toString n ++ "." ++ String.ofList fraction =
      -- the digits of the number, the point and the fraction are one list of characters
      String.ofList (Nat.toDigits 10 n ++ '.' :: fraction) := by
    show String.ofList (Nat.toDigits 10 n) ++ String.ofList ['.'] ++ String.ofList fraction = _
    rw [← String.ofList_append, ← String.ofList_append, List.append_assoc]
    rfl
  show (Binary64.ofText? (toString n ++ "." ++ String.ofList fraction)).getD .zero = _
  rw [htext, ofText?_thousandths (Decimal.isDigits_toDigits n) hfraction, Decimal.value_toDigits]
  rfl

/-- The input and the text that `secondsOf` writes differ by leading zeros only. -/
theorem ofText?_fraction {whole fraction : List Char} {n : Nat}
    (hwhole : whole ∈ Decimal.padded 2 n) (hfraction : fraction ∈ Decimal.fixed 3) :
    Binary64.ofText? (String.ofList (whole ++ '.' :: fraction)) =
      some (secondsOf n (some (String.ofList fraction))) := by
  rcases hwhole with ⟨hwhole, rfl⟩
  have hm := Decimal.mem_padded_ofDigitChars hfraction
  rw [ofText?_thousandths (Decimal.isDigits_of_mem_fixed hwhole) hm, secondsOf_fraction _ hm]
  rfl

/-- Seconds by the digits before the point and, if there is a fraction, behind it. -/
theorem mem_secondsTexts {text : List Char} {x : Binary64} :
    text ∈ secondsTexts x ↔ ∃ n, ∃ whole ∈ Decimal.padded 2 n,
      text = whole ∧ x = secondsOf n none ∨
      ∃ fraction ∈ Decimal.fixed 3,
        text = whole ++ '.' :: fraction ∧ x = secondsOf n (some (String.ofList fraction)) := by
  constructor
  · rintro ⟨htext, hx⟩
    rcases mem_secondsFormat.1 htext with ⟨whole, hwhole, rfl | ⟨fraction, hfraction, rfl⟩⟩
    · have hn := Decimal.mem_padded_ofDigitChars hwhole
      rw [ofText?_whole hn] at hx
      exact ⟨_, text, hn, .inl ⟨rfl, (Option.some.inj hx).symm⟩⟩
    · have hn := Decimal.mem_padded_ofDigitChars hwhole
      rw [ofText?_fraction hn hfraction] at hx
      exact ⟨_, whole, hn, .inr ⟨fraction, hfraction, rfl, (Option.some.inj hx).symm⟩⟩
  · rintro ⟨n, whole, hn, ⟨rfl, rfl⟩ | ⟨fraction, hfraction, rfl, rfl⟩⟩
    · exact ⟨mem_secondsFormat.2 ⟨text, hn.1, .inl rfl⟩, ofText?_whole hn⟩
    · exact ⟨mem_secondsFormat.2 ⟨whole, hn.1, .inr ⟨fraction, hfraction, rfl⟩⟩,
        ofText?_fraction hn hfraction⟩

/-! ## Formats and values -/

/-- Completeness of `secondsTexts`: `ofText?` is defined on the whole format. -/
theorem mem_secondsFormat_iff {text : List Char} :
    text ∈ secondsFormat ↔ ∃ x, text ∈ secondsTexts x := by
  constructor
  · intro h
    rcases mem_secondsFormat.1 h with ⟨whole, hwhole, rfl | ⟨fraction, hfraction, rfl⟩⟩
    · exact ⟨_, h, ofText?_whole (Decimal.mem_padded_ofDigitChars hwhole)⟩
    · exact ⟨_, h, ofText?_fraction (Decimal.mem_padded_ofDigitChars hwhole) hfraction⟩
  · rintro ⟨x, h⟩
    exact h.1

/-- The format of a time is the union of the texts of all times. -/
theorem timeFormat_eq_iSup : timeFormat = ⨆ t, timeTexts t := by
  ext text
  unfold timeFormat timeTexts
  simp only [Language.mem_iSup, mem_colons]
  constructor
  · rintro ⟨hours, hhours, minutes, hminutes, seconds, hseconds, rfl⟩
    rcases mem_secondsFormat_iff.1 hseconds with ⟨x, hx⟩
    exact ⟨⟨_, _, x⟩, hours, Decimal.mem_padded_ofDigitChars hhours, minutes,
      Decimal.mem_padded_ofDigitChars hminutes, seconds, hx, rfl⟩
  · rintro ⟨t, hours, hhours, minutes, hminutes, seconds, hseconds, rfl⟩
    exact ⟨hours, hhours.1, minutes, hminutes.1, seconds, hseconds.1, rfl⟩

theorem words_timeFormat_eq_iSup :
    Text.words timeFormat = ⨆ t, Text.words (timeTexts t) := by
  unfold Text.words
  -- union commutes with the product by the blanks
  rw [timeFormat_eq_iSup, Language.iSup_mul]

/-- By `kstar_iSup`: the format of the entries is the union over all lists of times. -/
theorem entryFormat_eq_iSup : entryFormat = ⨆ ts, entryTexts ts := by
  unfold entryFormat
  rw [words_timeFormat_eq_iSup, Language.mul_iSup, Text.kstar_iSup]
  ext text
  simp only [Language.mem_add, Language.mem_mul, Language.mem_iSup]
  constructor
  · rintro (hnone | ⟨first, ⟨t, ht⟩, later, ⟨ts, hts⟩, rfl⟩)
    · exact ⟨[], hnone⟩
    · exact ⟨t :: ts, Language.append_mem_mul ht hts⟩
  · rintro ⟨_ | ⟨t, ts⟩, h⟩
    -- the first time and the later ones are separate factors
    · exact .inl h
    · rcases Language.mem_mul.1 h with ⟨first, hfirst, later, hlater, rfl⟩
      exact .inr ⟨first, ⟨t, hfirst⟩, later, ⟨ts, hlater⟩, rfl⟩

/-- Every text of the format stands for some list of times, and for those alone. -/
theorem mem_arrayFormat_iff {text : List Char} :
    text ∈ arrayFormat ↔ ∃ ts, text ∈ arrayTexts ts := by
  have hformat : arrayFormat = ⨆ ts, arrayTexts ts := by
    unfold arrayFormat arrayTexts
    rw [entryFormat_eq_iSup, Language.iSup_mul, Language.mul_iSup]
  rw [hformat, Language.mem_iSup]

end Clock

/-! ## Characters that announce what comes -/

namespace Text

/-- Wherever the character stands in the text, a text of the language stands right behind it. -/
def Announces (ch : Char) (L : Language Char) : Language Char :=
  {text | ∀ x y, text = x ++ ch :: y → ∃ w ∈ L, w <+: y}

section

variable {ch : Char} {L A B : Language Char}

/-- Vacuous where the character does not occur. -/
theorem announces_of_notMem {text : List Char} (h : ch ∉ text) : text ∈ Announces ch L := by
  rintro x y rfl
  exact absurd (by simp) h

/-- The empty language is announced by no occurrence at all. -/
theorem notMem_of_announces_zero {text : List Char} (h : text ∈ Announces ch 0) : ch ∉ text := by
  intro hmem
  rcases List.append_of_mem hmem with ⟨x, y, hxy⟩
  rcases h x y hxy with ⟨w, hw, -⟩
  exact Language.notMem_zero w hw

/-- One occurrence, at the front, with its text behind it. -/
theorem announces_cons {w y : List Char} (hy : ch ∉ y) (hw : w ∈ L) (hstarts : w <+: y) :
    ch :: y ∈ Announces ch L := by
  intro x z hxz
  rcases List.cons_eq_append_iff.1 hxz with ⟨rfl, hz⟩ | ⟨x', rfl, hyz⟩
  · cases hz
    exact ⟨w, hw, hstarts⟩
  · rw [hyz] at hy
    exact absurd (by simp) hy

/-- Closed under products: what the first factor announces does not reach the second. -/
theorem mul_le_announces (hA : A ≤ Announces ch L) (hB : B ≤ Announces ch L) :
    A * B ≤ Announces ch L := by
  intro text htext x y hxy
  rcases Language.mem_mul.1 htext with ⟨a, ha, b, hb, rfl⟩
  -- the character stands in one of the two texts, and so does what it announces
  rcases List.append_eq_append_iff.1 hxy with ⟨x', rfl, hb'⟩ | ⟨y', ha', hy'⟩
  · exact hB hb x' y hb'
  · rcases List.cons_eq_append_iff.1 hy' with ⟨rfl, hb'⟩ | ⟨y'', rfl, rfl⟩
    · exact hB hb [] y hb'
    · rcases hA ha x y'' ha' with ⟨w, hw, hstarts⟩
      exact ⟨w, hw, hstarts.trans (List.prefix_append _ _)⟩

theorem one_le_announces : 1 ≤ Announces ch L := by
  rintro text rfl
  exact announces_of_notMem List.not_mem_nil

/-- Closed under star, as the least fixpoint of multiplication. -/
theorem kstar_le_announces (hA : A ≤ Announces ch L) : A∗ ≤ Announces ch L :=
  kstar_le_of_mul_le_left one_le_announces (mul_le_announces le_rfl hA)

theorem singleton_le_announces {x : Char} (h : ch ≠ x) : {[x]} ≤ Announces ch L := by
  rintro text rfl
  exact announces_of_notMem (by simpa using h)

theorem blanks_le_announces (h : isBlank ch = false) : blanks ≤ Announces ch L := by
  intro text htext
  refine announces_of_notMem fun hmem => ?_
  rw [htext ch hmem] at h
  cases h

/-- Closed under trailing blanks. -/
theorem words_le_announces (h : isBlank ch = false) (hA : A ≤ Announces ch L) :
    words A ≤ Announces ch L :=
  mul_le_announces hA (blanks_le_announces h)

/-- Up to the first character that stops a text, what it announces is announced in all texts that
go on in the same way. -/
theorem exists_prefix_of_announces {inside rest x y : List Char} {stop : Char}
    (hinside : inside ∈ Announces ch L) (hstarts : inside ++ [stop] <+: rest)
    (hrest : rest = x ++ ch :: y) (hx : stop ∉ x) (hne : ch ≠ stop) : ∃ w ∈ L, w <+: y := by
  rcases hstarts with ⟨after, hafter⟩
  rw [hrest, List.append_assoc] at hafter
  rcases List.append_eq_append_iff.1 hafter with ⟨x', rfl, hstop⟩ | ⟨y', rfl, hstop⟩
  · -- the text does not stop before the character
    rcases List.cons_eq_append_iff.1 hstop with ⟨rfl, heq⟩ | ⟨x'', rfl, -⟩
    · exact absurd (List.cons.inj heq).1 hne
    · exact absurd (by simp) hx
  · rcases List.cons_eq_append_iff.1 hstop with ⟨rfl, heq⟩ | ⟨y'', rfl, rfl⟩
    · exact absurd (List.cons.inj heq).1 hne.symm
    · rcases hinside x y'' rfl with ⟨w, hw, hw'⟩
      exact ⟨w, hw, hw'.trans (List.prefix_append _ _)⟩

end

end Text

namespace Clock

open Text

section

variable {ch : Char} {L : Language Char} (hdigit : ch.isDigit = false) (hcolon : ch ≠ ':')

include hdigit

theorem fixed_le_announces (width : Nat) : Decimal.fixed width ≤ Announces ch L := by
  intro text htext
  refine announces_of_notMem fun hmem => ?_
  rw [htext.2 ch hmem] at hdigit
  cases hdigit

include hcolon

/-- Everything but the fraction is digits and colons. -/
theorem timeFormat_le_announces (hpoint : {['.']} * Decimal.fixed 3 ≤ Announces ch L) :
    timeFormat ≤ Announces ch L := by
  have hpair : Decimal.fixed 2 ≤ Announces ch L := fixed_le_announces hdigit 2
  have hmark : {[':']} ≤ Announces ch L := singleton_le_announces hcolon
  have hseconds : secondsFormat ≤ Announces ch L :=
    mul_le_announces hpair (add_le one_le_announces hpoint)
  exact mul_le_announces hpair
    (mul_le_announces hmark (mul_le_announces hpair (mul_le_announces hmark hseconds)))

theorem timeFormat_le_announces_of_ne (hpoint : ch ≠ '.') : timeFormat ≤ Announces ch L :=
  timeFormat_le_announces hdigit hcolon
    (mul_le_announces (singleton_le_announces hpoint) (fixed_le_announces hdigit 3))

end

/-- The parts of the format that can hold a character other than a blank. -/
theorem entryFormat_le_announces {ch : Char} {L : Language Char} (hblank : isBlank ch = false)
    (htime : timeFormat ≤ Announces ch L)
    (hcomma : words {[',']} * words timeFormat ≤ Announces ch L) : entryFormat ≤ Announces ch L :=
  add_le one_le_announces
    (mul_le_announces (words_le_announces hblank htime) (kstar_le_announces hcomma))

theorem entryFormat_le_announces_of_ne {ch : Char} {L : Language Char} (hblank : isBlank ch = false)
    (htime : timeFormat ≤ Announces ch L) (hcomma : ch ≠ ',') : entryFormat ≤ Announces ch L :=
  entryFormat_le_announces hblank htime
    (mul_le_announces (words_le_announces hblank (singleton_le_announces hcomma))
      (words_le_announces hblank htime))

/-- A point announces three digits. -/
theorem timeFormat_le_announces_point : timeFormat ≤ Announces '.' (Decimal.fixed 3) := by
  refine timeFormat_le_announces (by decide) (by decide) ?_
  intro text htext
  rcases Language.mem_mul.1 htext with ⟨_, rfl, fraction, hfraction, rfl⟩
  have hnone : '.' ∉ fraction := fun hmem => absurd (hfraction.2 _ hmem) (by decide)
  exact announces_cons hnone hfraction List.prefix_rfl

/-- Every text of the format begins with a digit. -/
theorem exists_digit_of_mem_timeFormat {text : List Char} (h : text ∈ timeFormat) :
    ∃ d more, text = d :: more ∧ d.isDigit = true := by
  rcases Language.mem_mul.1 h with ⟨hours, hhours, later, -, rfl⟩
  cases hours with
  | nil => cases hhours.1
  | cons d hours => exact ⟨d, hours ++ later, rfl, hhours.2 d List.mem_cons_self⟩

/-- The same for a list of times that is not empty. -/
theorem exists_digit_of_entryTexts {t : Time} {ts : List Time} {text : List Char}
    (h : text ∈ entryTexts (t :: ts)) : ∃ d more, text = d :: more ∧ d.isDigit = true := by
  rcases Language.mem_mul.1 h with ⟨first, hfirst, later, -, rfl⟩
  rcases mem_words.1 hfirst with ⟨time, htime, spaces, -, rfl⟩
  have hformat : time ∈ timeFormat := by
    rw [timeFormat_eq_iSup]
    exact Language.mem_iSup.2 ⟨t, htime⟩
  rcases exists_digit_of_mem_timeFormat hformat with ⟨d, more, rfl, hd⟩
  exact ⟨d, _, rfl, hd⟩

/-- The blanks behind the opening brace end where the entries begin, or at the closing brace. -/
theorem clear_of_entryTexts {ts : List Time} {entries rest : List Char}
    (hentries : entries ∈ entryTexts ts) : Clear isBlank (entries ++ '\x7d' :: rest) := by
  cases ts with
  | nil =>
    rcases hentries with rfl
    exact clear_cons.2 (by decide)
  | cons t ts =>
    rcases exists_digit_of_entryTexts hentries with ⟨d, more, rfl, hd⟩
    exact clear_cons.2 (isBlank_eq_false_of_isDigit hd)

/-- A comma announces another time: blanks, and a digit. -/
theorem entryFormat_le_announces_comma :
    entryFormat ≤ Announces ',' (blanks * Decimal.fixed 1) := by
  have htime : ∀ L : Language Char, timeFormat ≤ Announces ',' L := fun _ =>
    timeFormat_le_announces_of_ne (by decide) (by decide) (by decide)
  refine entryFormat_le_announces (by decide) (htime _) ?_
  intro text htext
  rcases Language.mem_mul.1 htext with ⟨_, hcomma, later, hlater, rfl⟩
  rcases mem_words_singleton.1 hcomma with ⟨spaces, hspaces, rfl⟩
  rcases mem_words.1 hlater with ⟨time, hmem, spaces', hspaces', rfl⟩
  rcases exists_digit_of_mem_timeFormat hmem with ⟨d, more, rfl, hd⟩
  -- there is no further comma
  have hnone : ',' ∉ spaces ++ (d :: more ++ spaces') := by
    simp only [List.mem_append, not_or]
    refine ⟨notMem_of_announces_zero (blanks_le_announces (by decide) hspaces),
      notMem_of_announces_zero (htime 0 hmem),
      notMem_of_announces_zero (blanks_le_announces (by decide) hspaces')⟩
  have hdigit : [d] ∈ Decimal.fixed 1 := ⟨rfl, by simpa using hd⟩
  refine announces_cons hnone (Language.append_mem_mul hspaces hdigit) ?_
  exact ⟨more ++ spaces', by simp⟩

/-- Decomposition of an array: its only closing brace comes last, commas announce times and points
announce three digits. -/
theorem exists_inside {text : List Char} (h : text ∈ arrayFormat) :
    ∃ inside, text = inside ++ ['\x7d'] ∧ '\x7d' ∉ inside ∧
      inside ∈ Announces ',' (blanks * Decimal.fixed 1) ∧
      inside ∈ Announces '.' (Decimal.fixed 3) := by
  rcases Language.mem_mul.1 h with ⟨brace, hbrace, _, hmore, rfl⟩
  rcases Language.mem_mul.1 hmore with ⟨entries, hentries, _, rfl, rfl⟩
  -- blanks and the opening brace announce nothing of their own
  have hinside : ∀ {ch : Char} {L : Language Char}, isBlank ch = false → ch ≠ '\x7b' →
      entryFormat ≤ Announces ch L → brace ++ entries ∈ Announces ch L := by
    intro ch L hblank hne hentry
    have hopen : words {['\x7b']} ≤ Announces ch L :=
      words_le_announces hblank (singleton_le_announces hne)
    exact mul_le_announces hopen hentry (Language.append_mem_mul hbrace hentries)
  have hbrace : entryFormat ≤ Announces '\x7d' 0 :=
    entryFormat_le_announces_of_ne (by decide)
      (timeFormat_le_announces_of_ne (by decide) (by decide) (by decide)) (by decide)
  have hpoint : entryFormat ≤ Announces '.' (Decimal.fixed 3) :=
    entryFormat_le_announces_of_ne (by decide) timeFormat_le_announces_point (by decide)
  exact ⟨brace ++ entries, (List.append_assoc _ _ _).symm,
    notMem_of_announces_zero (hinside (by decide) (by decide) hbrace),
    hinside (by decide) (by decide) entryFormat_le_announces_comma,
    hinside (by decide) (by decide) hpoint⟩

/-! ## Texts that begin with an array -/

section

variable {rest : List Char}

/-- Prefix-freeness: an array ends at the first closing brace of any text that begins with it. -/
theorem eq_of_prefix_of_arrayFormat {text other : List Char} (htext : text ∈ arrayFormat)
    (hother : other ∈ arrayFormat) (hstarts : text <+: rest) (hstarts' : other <+: rest) :
    other = text := by
  -- the array is cut off by `takeWhile`, whatever its entries are
  have hinside : ∀ {text : List Char}, text ∈ arrayFormat → text <+: rest →
      text = rest.takeWhile (· != '\x7d') ++ ['\x7d'] := by
    intro text htext hstarts
    rcases exists_inside htext with ⟨inside, rfl, hnone, -, -⟩
    rcases hstarts with ⟨after, rfl⟩
    have hrun : ∀ ch ∈ inside, (ch != '\x7d') = true := by
      intro ch hch
      rw [bne_iff_ne]
      rintro rfl
      exact hnone hch
    have hclear : Clear (· != '\x7d') ('\x7d' :: after) := clear_cons.2 rfl
    rw [List.append_assoc, List.singleton_append, takeWhile_append hrun hclear]
  rw [hinside htext hstarts, hinside hother hstarts']

/-- No closing brace, no array. -/
theorem not_prefix_of_unclosed (hnone : '\x7d' ∉ rest) :
    ∀ text ∈ arrayFormat, ¬ text <+: rest := by
  intro text htext hstarts
  rcases exists_inside htext with ⟨inside, rfl, -⟩
  exact hnone (hstarts.subset (by simp))

/-- A comma announces a digit behind its blanks, and a brace is none. -/
theorem not_prefix_of_trailing_comma {before spaces after : List Char}
    (hrest : rest = before ++ ',' :: (spaces ++ '\x7d' :: after)) (hbefore : '\x7d' ∉ before)
    (hspaces : spaces ∈ blanks) : ∀ text ∈ arrayFormat, ¬ text <+: rest := by
  intro text htext hstarts
  rcases exists_inside htext with ⟨inside, rfl, -, hcomma, -⟩
  rcases exists_prefix_of_announces hcomma hstarts hrest hbefore (by decide) with
    ⟨_, hannounced, more, hmore⟩
  rcases Language.mem_mul.1 hannounced with ⟨spaces', hspaces', digit, ⟨hlength, hdigit⟩, rfl⟩
  rcases List.length_eq_one_iff.1 hlength with ⟨d, rfl⟩
  have hd : d.isDigit = true := hdigit d List.mem_cons_self
  -- behind the blanks there would have to be a digit, and there is the brace
  have hclear : Clear isBlank (d :: more) := clear_cons.2 (isBlank_eq_false_of_isDigit hd)
  have hclear' : Clear isBlank ('\x7d' :: after) := clear_cons.2 (by decide)
  have hsame : d :: more = '\x7d' :: after := by
    rw [← dropWhile_append hspaces' hclear, ← dropWhile_append hspaces hclear', ← hmore]
    simp
  rw [(List.cons.inj hsame).1] at hd
  exact absurd hd (by decide)

/-- A point announces three digits. -/
theorem not_prefix_of_short_fraction {before after : List Char}
    (hrest : rest = before ++ '.' :: after) (hbefore : '\x7d' ∉ before)
    (hafter : ∀ fraction ∈ Decimal.fixed 3, ¬ fraction <+: after) :
    ∀ text ∈ arrayFormat, ¬ text <+: rest := by
  intro text htext hstarts
  rcases exists_inside htext with ⟨inside, rfl, -, -, hpoint⟩
  -- the point lies before the closing brace, hence in the array
  rcases exists_prefix_of_announces hpoint hstarts hrest hbefore (by decide) with
    ⟨fraction, hfraction, hannounced⟩
  exact hafter fraction hfraction hannounced

end

end Clock

end ParserCombinators
