import ParserCombinators.Lexeme
import ParserCombinators.Parser.Meaning

/-!
# Arithmetic expressions

Sums of products of integers and bracketed expressions, with blanks after every word:

```text
expression = term ('+' term)*
term       = factor ('*' factor)*
factor     = integer | '(' expression ')'
```

Values are computed while parsing, in the signed 64-bit range; a result outside of it stops the run.

- `Arithmetic.product`, `Arithmetic.total`: how the value of a term and of an expression is computed
- `Arithmetic.factor`, `Arithmetic.term`, `Arithmetic.expression`: the parsers, given a parser for
  the expressions between brackets
- `Arithmetic.grammar`, `Arithmetic.evaluate`: the grammar, and the value of a whole text
-/

namespace ParserCombinators

namespace Arithmetic

/-! ## Values -/

def product (first : Int64) (rest : List Int64) : Callback Int64 :=
  rest.foldlM Callback.mul first

/-- The value of an expression: the later terms are summed from zero, from left to right, and the
first term is added to that sum. -/
def total (first : Int64) (rest : List Int64) : Callback Int64 := do
  let later ← rest.foldlM Callback.add 0
  Callback.add first later

/-! ## Parsers -/

section

variable {R : Type → Type} (inner : Parser R Int64)

def factor : Parser R Int64 :=
  .boxed (.or (Lexeme.token Lexeme.integer) (do
    let _ ← Lexeme.token (.char '(')
    let value ← inner
    (fun _ => value) <$> Lexeme.token (.char ')')))

/-- What follows the first operand: an operator and one more operand, any number of times. -/
def operands (operator : Char) (operand : Parser R Int64) : Parser R (List Int64) :=
  .star (do
    let _ ← Lexeme.token (.char operator)
    operand)

def term : Parser R Int64 :=
  .boxed (.named "term" (do
    let first ← factor inner
    (operands '*' (factor inner)).map (product first)))

def expression : Parser R Int64 :=
  .boxed (.named "expr" (do
    let first ← term inner
    (operands '+' (term inner)).map (total first)))

end

/-! ## Grammar -/

inductive Rule : Type → Type where
  | expression : Rule Int64

/-- An expression may hold expressions between brackets. -/
def grammar : Grammar Rule where
  size := 1
  body
    | .expression => expression (.rule .expression)

/-- An expression and nothing else, with blanks before it. -/
def whole : Parser Rule Int64 := do
  let _ ← Lexeme.blanks
  let value ← Parser.rule .expression
  (fun _ => value) <$> Parser.endOfInput

def evaluate (text : String) : Engine (Option Int64) := do
  let outcome ← grammar.parse whole text
  pure outcome.value?

end Arithmetic

end ParserCombinators
