import ParserCombinators.Value

/-!
# Descriptions — parsers as data

A description says which parser to build, with every function in it picked from a fixed stock, so
that parsers can be read from outside, stored and printed.

- `CharClass`, `Transform`, `Join`: the stock of predicates and functions
- `Description`, `Continuation`: the descriptions
- `Description.anyOf`: a choice between several
- `CharClass.accepts`, `Transform.apply`, `Join.apply`: what the functions do
-/

namespace ParserCombinators

/-! ## Predicates -/

/-- The predicates on characters. Letters, digits and cases are those of ASCII. -/
inductive CharClass where
  | any
  | none
  | digit
  | upper
  | lower
  | alpha
  | alnum
  | space
  | nonAscii
  | notIn (set : String)
  /-- The characters from one to another, both included, by code point. -/
  | range (first last : Char)
  /-- Every character, but the run is cut short at a character of the set. -/
  | panicOn (set : String)

def CharClass.accepts : CharClass → Char → Callback Bool
  | .any, _ => pure true
  | .none, _ => pure false
  | .digit, c => pure c.isDigit
  | .upper, c => pure c.isUpper
  | .lower, c => pure c.isLower
  | .alpha, c => pure c.isAlpha
  | .alnum, c => pure c.isAlphanum
  | .space, c => pure (Text.isBlank c)
  | .nonAscii, c => pure (decide (128 ≤ c.toNat))
  | .notIn set, c => pure (!set.toList.contains c)
  | .range first last, c => pure (first ≤ c && c ≤ last)
  | .panicOn set, c =>
    if set.toList.contains c then Callback.raise (.raised "predicate failed") else pure true

/-! ## Functions on values -/

inductive Transform where
  | identity
  | text
  | size
  /-- The text read as an integer, zero if it is none. -/
  | int
  | const (value : Value)
  | tag (name : String)
  | default (value : Value)
  | sum
  | depth
  /-- Cuts the run short. -/
  | panic

def Transform.apply : Transform → Value → Callback Value
  | .identity, v => pure v
  | .text, v => pure (.str v.text)
  | .size, v => pure (.int (Int64.ofNat v.size))
  | .int, v => pure (.int ((Decimal.int64? v.text).getD 0))
  | .const value, _ => pure value
  | .tag name, v => pure (.tag name v)
  | .default value, v => pure (Value.orDefault value v)
  | .sum, v => pure (.int v.sum)
  | .depth, v => .int <$> v.depth
  | .panic, _ => Callback.raise (.raised "map failed")

inductive Join where
  | right
  | left
  | pair
  | prepend

def Join.apply : Join → Value → Value → Value
  | .right, _, w => w
  | .left, v, _ => v
  | .pair, v, w => .list [v, w]
  | .prepend, v, w => Value.prepend v w

/-! ## Descriptions -/

mutual

/-- Which parser to build. An `event` names the calls of the function at that place; without one
they are not announced. -/
inductive Description where
  | ok
  | endOfInput
  | like (charClass : CharClass)
  | char (c : Char)
  | oneOf (set : String)
  | str (text : String)
  | succeed (value : Value)
  | succeedWith (event : Option String) (value : Value)
  | seq (items : List Description)
  | or (left right : Description)
  | star (item : Description)
  | plus (item : Description)
  | option (item : Description)
  | chain (first : Description) (event : Option String) (next : Continuation)
  | map (item : Description) (event : Option String) (f : Transform)
  | named (label : String) (item : Description)
  | boxed (item : Description)
  | deferred (event : Option String) (item : Description)
  | rule (name : String)
  | fail
  | any
  | mustRead
  | position
  | look (item : Description)
  | notFollowedBy (item : Description)
  | probe (name : String) (item : Description)
  | digit
  | digits
  | integer
  | blanks
  | identifier
  | token (item : Description)
  | vowel
  | time
  | timeArray
  | color
  | expression

inductive Continuation where
  /-- A fixed parser, its value joined with the one before. -/
  | follow (join : Join) (next : Description)
  /-- As many copies as the text of the value says. -/
  | times (item : Description)
  /-- The text of the value once more. -/
  | same
  /-- The bracket that closes the one before. -/
  | close
  /-- The parser for the text of the value. -/
  | switch (cases : List (String × Description))
  /-- The text of the value as an integer. -/
  | int

end

/-- A choice between several parsers, in order: each one more is the right side of a choice whose
left side holds all before it. -/
def Description.anyOf (first : Description) (others : List Description) : Description :=
  others.foldl .or first

end ParserCombinators
