import ParserCombinators.Decimal.Binary64
import ParserCombinators.Lexeme

/-!
# Clock times

A time is written `hh:mm:ss`, with three digits of a second after a point if need be; an array of
times stands between braces, divided by commas, with blanks around its parts.

- `Clock.Time`: hours, minutes and seconds; nothing checks their range
- `Clock.time`, `Clock.timeArray`: the parsers
-/

namespace ParserCombinators

namespace Clock

/-- A time of day; the seconds may have a fraction. -/
structure Time where
  hours : Nat
  minutes : Nat
  seconds : Binary64
  deriving DecidableEq, Repr

variable {R : Type → Type}

def twoDigits : Parser R Nat :=
  Decimal.value <$> Parser.seq [Lexeme.digit, Lexeme.digit]

/-- One of the ten digits, as a set. -/
def milliDigit : Parser R Char :=
  .oneOf "0123456789"

/-- A point and three digits; the digits as text. -/
def millis : Parser R String :=
  String.ofList <$> Parser.bind (.char '.') fun _ =>
    Parser.seq [milliDigit, milliDigit, milliDigit]

/-- Whole seconds as a number. With digits after the point, the seconds are written out in decimal
and the text is read as a number; a text that is none would count as zero. -/
def secondsOf (whole : Nat) : Option String → Binary64
  | none => .ofDecimal false whole 0
  | some digits => (Binary64.ofText? (toString whole ++ "." ++ digits)).getD .zero

def seconds : Parser R Binary64 := do
  let whole ← twoDigits
  secondsOf whole <$> millis.option

def time : Parser R Time := do
  let hours ← twoDigits
  let _ ← Parser.char ':'
  let minutes ← twoDigits
  let _ ← Parser.char ':'
  Time.mk hours minutes <$> seconds

def gap : Parser R (List Char) :=
  (Parser.satisfy Text.isBlank).star

def spacedTime : Parser R Time := do
  let t ← time
  (fun _ => t) <$> gap

def nextTime : Parser R Time := do
  let _ ← Parser.char ','
  let _ ← gap
  spacedTime

def times : Parser R (List Time) := do
  let first ← spacedTime
  (first :: ·) <$> nextTime.star

def timeArray : Parser R (List Time) := do
  let _ ← Parser.char '\x7b'
  let _ ← gap
  let ts ← (fun found => found.getD []) <$> times.option
  (fun _ => ts) <$> Parser.char '\x7d'

end Clock

end ParserCombinators
