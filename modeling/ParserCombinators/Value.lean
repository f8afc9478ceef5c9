import ParserCombinators.Grammars.Clock
import ParserCombinators.Grammars.Color

/-!
# Values

The values of parsers that are described as data, where the type of a value is not known before the
run.

- `Value`: the values
- `Value.chars`, `Value.text`: the text that a value holds, from left to right
- `Value.size`, `Value.sum`, `Value.depth`, `Value.orDefault`, `Value.prepend`: functions on values
-/

namespace ParserCombinators

inductive Value where
  | unit
  /-- What an optional parser gives when it does not match. -/
  | absent
  /-- What an optional parser gives when it matches. -/
  | present (value : Value)
  | bool (value : Bool)
  | char (c : Char)
  | str (text : String)
  | int (n : Int64)
  | list (items : List Value)
  /-- A value with a name put on it. -/
  | tag (name : String) (value : Value)
  | time (time : Clock.Time)
  | color (color : Color)

namespace Value

mutual

/-- The characters that a value holds, from left to right; numbers and names count as written. -/
def chars : Value → List Char
  | .unit | .absent | .time _ => []
  | .present v | .tag _ v => v.chars
  | .bool b => (if b then "true" else "false").toList
  | .char c => [c]
  | .str text => text.toList
  | .int n => (toString n.toInt).toList
  | .list items => charsOfAll items
  | .color c => c.name.toList

def charsOfAll : List Value → List Char
  | [] => []
  | v :: vs => v.chars ++ charsOfAll vs

end

def text (v : Value) : String :=
  String.ofList v.chars

/-- The number of items of a list; of any other value the number of its characters. -/
def size : Value → Nat
  | .list items => items.length
  | v => v.chars.length

mutual

def sum : Value → Int64
  | .int n => n
  | .present v | .tag _ v => v.sum
  | .list items => sumOfAll items
  | .unit | .absent | .bool _ | .char _ | .str _ | .time _ | .color _ => 0

def sumOfAll : List Value → Int64
  | [] => 0
  | v :: vs => v.sum + sumOfAll vs

end

/-- One more than the sum of what is present, and one where nothing is. The sum itself goes round at
the end of the range, but the step beyond it is an overflow. -/
def depth : Value → Callback Int64
  | .present v => Callback.add v.sum 1
  | _ => pure 1

def orDefault (default : Value) : Value → Value
  | .absent => default
  | .present v => v
  | v => v

/-- A list with one more value before it; another value becomes the second of two. -/
def prepend (v : Value) : Value → Value
  | .list items => .list (v :: items)
  | w => .list [v, w]

end Value

end ParserCombinators
