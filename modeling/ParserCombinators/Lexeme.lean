import ParserCombinators.Decimal.Integer
import ParserCombinators.Parser.Derived
import ParserCombinators.Text.Blank

/-!
# Lexemes

Ready-made parsers for the small words that most grammars need.

- `Lexeme.digit`, `Lexeme.digits`, `Lexeme.integer`: numbers
- `Lexeme.identifier`, `Lexeme.vowel`: letters
- `Lexeme.blanks`, `Lexeme.token`: white space, and parsers that skip it behind them
-/

namespace ParserCombinators

namespace Lexeme

variable {R : Type → Type} {α : Type}

def digit : Parser R Char :=
  .satisfy Char.isDigit

def digits : Parser R String :=
  String.ofList <$> digit.plus

/-- An optional minus sign and digits, if the number they write is in the signed 64-bit range. -/
def integer : Parser R Int64 := do
  let (sign, ds) ← Parser.bind (.option (.char '-')) fun sign => (fun ds => (sign, ds)) <$> digits
  Parser.ofOption (Decimal.int64? (if sign.isSome then "-" ++ ds else ds))

def blanks : Parser R Unit :=
  (fun _ => ()) <$> (Parser.satisfy Text.isBlank).star

def isIdentifierStart (c : Char) : Bool :=
  c.isAlpha || c == '_'

def isIdentifierPart (c : Char) : Bool :=
  isIdentifierStart c || c.isDigit

/-- A letter or underscore, then letters, digits and underscores. -/
def identifier : Parser R String := do
  let head ← Parser.satisfy isIdentifierStart
  (fun tail => String.ofList (head :: tail)) <$> (Parser.satisfy isIdentifierPart).star

/-- Runs `p` and skips the blanks behind it. -/
def token (p : Parser R α) : Parser R α := do
  let v ← p
  (fun _ => v) <$> blanks

def isVowel (c : Char) : Bool :=
  ['a', 'e', 'i', 'o', 'u'].contains c.toLower

def vowel : Parser R Char :=
  .satisfy isVowel

end Lexeme

end ParserCombinators
