import ParserCombinators.Decimal.Integer
import ParserCombinators.Text.Escape

/-!
# Binary64 numbers from decimal text

The binary floating-point numbers with 53 bits of precision, given by their 64-bit encoding, and the
exact conversion of decimal text to them: the nearest number, a tie going to the even one, too large
a value to infinity, too small a value to zero.

- `Decimal.divRound`: a quotient rounded to the nearest integer, ties to even
- `Binary64.ofRatio`: the number nearest to a fraction
- `Binary64.ofDecimal`: the number nearest to `m · 10 ^ k`
- `Binary64.ofText?`: a sign, digits with or without a point, an exponent
- `Binary64.hexDigits`: the encoding as 16 hexadecimal digits
-/

namespace ParserCombinators

namespace Decimal

/-- The integer nearest to `num / den`; of two nearest ones the even one. -/
def divRound (num den : Nat) : Nat :=
  let q := num / den
  let twice := 2 * (num % den)
  if twice < den then q
  else if den < twice then q + 1
  else if q % 2 = 0 then q
  else q + 1

end Decimal

/-- A binary64 number, by its encoding: sign, 11 bits of exponent, 52 bits of fraction. -/
structure Binary64 where
  bits : UInt64
  deriving DecidableEq, Repr

namespace Binary64

def zero : Binary64 where
  bits := 0

/-- The encoding of infinity without its sign; every finite number has a smaller one. -/
def infinity : Nat := 0x7ff <<< 52

def minExponent : Int := -1074

def scale (num den : Nat) (e : Int) : Nat × Nat :=
  if e < 0 then (num <<< (-e).toNat, den) else (num, den <<< e.toNat)

/-- The exponent for which `num / den` has 53 bits before the point, or the least one. -/
def exponentOf (num den : Nat) : Int :=
  let guess := max ((num.log2 : Int) - (den.log2 : Int) - 52) minExponent
  let (n, d) := scale num den guess
  if n / d < 1 <<< 52 ∧ minExponent < guess then guess - 1 else guess

/-- The encoding, without sign, of the number nearest to `num / den`. The leading bit of the
significand, and a carry out of its rounding, add to the exponent. -/
def magnitude (num den : Nat) : Nat :=
  let e := exponentOf num den
  let (n, d) := scale num den e
  min infinity (((e - minExponent).toNat <<< 52) + Decimal.divRound n d)

def ofMagnitude (negative : Bool) (magnitude : Nat) : Binary64 where
  bits := UInt64.ofNat ((if negative then 1 <<< 63 else 0) + magnitude)

def ofRatio (negative : Bool) (num den : Nat) : Binary64 :=
  ofMagnitude negative (if num = 0 then 0 else magnitude num den)

/-- The number nearest to `mantissa · 10 ^ exponent`. Powers far outside of the range of the numbers
are not computed. -/
def ofDecimal (negative : Bool) (mantissa : Nat) (exponent : Int) : Binary64 :=
  let digits : Int := ((Nat.toDigits 10 mantissa).length : Int) + exponent
  if mantissa = 0 ∨ digits < -400 then ofMagnitude negative 0
  else if 400 < digits then ofMagnitude negative infinity
  else if exponent < 0 then ofRatio negative mantissa (Nat.pow 10 (-exponent).toNat)
  else ofRatio negative (mantissa * Nat.pow 10 exponent.toNat) 1

def exponent? : List Char → Option Int
  | [] => some 0
  | 'e' :: digits | 'E' :: digits => Decimal.signed? digits
  | _ => none

def splitDigits (text : List Char) : List Char × List Char × List Char :=
  let whole := text.takeWhile Char.isDigit
  match text.dropWhile Char.isDigit with
  | '.' :: rest => (whole, rest.takeWhile Char.isDigit, rest.dropWhile Char.isDigit)
  | rest => (whole, [], rest)

def ofUnsigned? (negative : Bool) (text : List Char) : Option Binary64 :=
  let (whole, fraction, rest) := splitDigits text
  if whole.isEmpty && fraction.isEmpty then none
  else (exponent? rest).map fun e =>
    ofDecimal negative (Decimal.value (whole ++ fraction)) (e - (fraction.length : Int))

/-- Reads `[+-] digits [. digits] [e integer]`, with a digit on at least one side of the point. -/
def ofText? (text : String) : Option Binary64 :=
  match text.toList with
  | '-' :: rest => ofUnsigned? true rest
  | '+' :: rest => ofUnsigned? false rest
  | rest => ofUnsigned? false rest

def hexDigits (x : Binary64) : String :=
  let digits := Text.hex x.bits.toNat
  String.ofList (List.replicate (16 - digits.length) '0' ++ digits)

end Binary64

end ParserCombinators
