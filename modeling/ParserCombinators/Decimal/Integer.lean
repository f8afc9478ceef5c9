/-!
# Decimal integers

Integers written in decimal, and the signed 64-bit range that the values of parsers live in.

- `Decimal.natural?`, `Decimal.signed?`: one or more digits, with at most one sign before them
- `Decimal.fit?`: an integer of the signed 64-bit range
- `Decimal.int64?`, `Decimal.uint16?`: a text read as a number of a fixed range
- `Decimal.add?`, `Decimal.mul?`: sums and products that stay in range
-/

namespace ParserCombinators

namespace Decimal

def value (digits : List Char) : Nat :=
  digits.foldl (fun n d => 10 * n + (d.toNat - '0'.toNat)) 0

def natural? (text : List Char) : Option Nat :=
  if text.isEmpty then none
  else if text.all Char.isDigit then some (value text)
  else none

/-- One or more digits, with at most one sign before them. -/
def signed? : List Char → Option Int
  | '-' :: digits => (natural? digits).map fun n => -(n : Int)
  | '+' :: digits => (natural? digits).map fun n => (n : Int)
  | digits => (natural? digits).map fun n => (n : Int)

def inRange (n : Int) : Bool :=
  -0x8000000000000000 ≤ n && n < 0x8000000000000000

/-- The integer as a signed 64-bit number, if it is in range. -/
def fit? (n : Int) : Option Int64 :=
  if inRange n then some (Int64.ofInt n) else none

def int64? (text : String) : Option Int64 :=
  (signed? text.toList).bind fit?

/-- A text read as a number below 65536; a plus sign is allowed, a minus sign is not. -/
def uint16? (text : String) : Option Nat :=
  let digits := match text.toList with
    | '+' :: digits => digits
    | digits => digits
  (natural? digits).filter (· < 65536)

def add? (a b : Int64) : Option Int64 :=
  fit? (a.toInt + b.toInt)

def mul? (a b : Int64) : Option Int64 :=
  fit? (a.toInt * b.toInt)

/-- `fit?` is exact: the 64-bit number has the value of the integer it was made from. -/
theorem toInt_of_fit? {n : Int} {i : Int64} (h : fit? n = some i) : i.toInt = n := by
  simp only [fit?, inRange, Bool.and_eq_true, decide_eq_true_eq] at h
  split at h
  next hn =>
    cases h
    exact Int64.toInt_ofInt_of_le (by simpa using hn.1) (by simpa using hn.2)
  next => cases h

end Decimal

end ParserCombinators
