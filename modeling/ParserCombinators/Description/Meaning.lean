import ParserCombinators.Description.Basic
import ParserCombinators.Grammars.Arithmetic

/-!
# The parsers of descriptions

- `DescribedRule`: rules by name, and the rule of arithmetic expressions
- `Description.toParser`: the parser that a description stands for
- `Description.grammar`: the grammar of a table of descriptions
-/

namespace ParserCombinators

inductive DescribedRule : Type → Type where
  | named (name : String) : DescribedRule Value
  | expression : DescribedRule Int64

namespace Description

/-- The event `kind:name`, if there is a name. -/
def announce (kind : String) : Option String → Callback Unit
  | none => pure ()
  | some name => Callback.announce (kind ++ ":" ++ name)

def closer? : List Char → Option Char
  | ['('] => some ')'
  | ['['] => some ']'
  | ['\x7b'] => some '\x7d'
  | ['<'] => some '>'
  | _ => none

def caseFor (text : String) : List (String × Parser DescribedRule Value) →
    Parser DescribedRule Value
  | [] => .fail
  | (name, p) :: rest => if name = text then p else caseFor text rest

end Description

mutual

/-- The parser that a description stands for. -/
def Description.toParser : Description → Parser DescribedRule Value
  | .ok => (fun _ => .unit) <$> Parser.ok
  | .endOfInput => (fun _ => .unit) <$> Parser.endOfInput
  | .like charClass => .char <$> Parser.like charClass.accepts
  | .char c => .char <$> Parser.char c
  | .oneOf set => .char <$> Parser.oneOf set
  | .str text => .str <$> Parser.str text
  | .succeed value => .succeed value
  | .succeedWith event value => .succeedWith do
    Description.announce "make" event
    pure value
  | .seq items => .list <$> Parser.seq (Description.toParsers items)
  | .or left right => .or left.toParser right.toParser
  | .star item => .list <$> item.toParser.star
  | .plus item => .list <$> item.toParser.plus
  | .option item => (fun found => found.elim .absent .present) <$> item.toParser.option
  | .chain first event next =>
    .chain first.toParser (fun _ => Description.announce "chain" event) next.toParser
  | .map item event f => .map item.toParser fun v => do
    Description.announce "map" event
    f.apply v
  | .named label item => .named label item.toParser
  | .boxed item => .boxed item.toParser
  | .deferred event item => .deferred (Description.announce "lazy" event) item.toParser
  | .rule name => .rule (.named name)
  | .fail => .fail
  | .any => .char <$> Parser.any
  | .mustRead => .char <$> Parser.mustRead
  | .position => (fun n => .int (Int64.ofNat n)) <$> Parser.position
  | .look item => item.toParser.look
  | .notFollowedBy item => (fun _ => .unit) <$> item.toParser.notFollowedBy
  | .probe name item => item.toParser.probe name
  | .digit => .char <$> Lexeme.digit
  | .digits => .str <$> Lexeme.digits
  | .integer => .int <$> Lexeme.integer
  | .blanks => (fun _ => .unit) <$> Lexeme.blanks
  | .identifier => .str <$> Lexeme.identifier
  | .token item => Lexeme.token item.toParser
  | .vowel => .char <$> Lexeme.vowel
  | .time => .time <$> Clock.time
  | .timeArray => (fun times => .list (times.map .time)) <$> Clock.timeArray
  | .color => .color <$> Color.parser
  | .expression => .int <$> Parser.rule .expression

def Continuation.toParser : Continuation → Value → Parser DescribedRule Value
  | .follow join next, v => join.apply v <$> next.toParser
  | .times item, v =>
    match Decimal.uint16? v.text with
    | none => .fail
    | some n => .list <$> Parser.copies n item.toParser
  | .same, v => .str <$> Parser.str v.text
  | .close, v =>
    match Description.closer? v.chars with
    | none => .fail
    | some c => .char <$> Parser.char c
  | .switch cases, v => Description.caseFor v.text (Description.toCases cases)
  | .int, v => Parser.ofOption ((Decimal.int64? v.text).map .int)

def Description.toParsers : List Description → List (Parser DescribedRule Value)
  | [] => []
  | d :: ds => d.toParser :: Description.toParsers ds

def Description.toCases : List (String × Description) → List (String × Parser DescribedRule Value)
  | [] => []
  | (name, d) :: ds => (name, d.toParser) :: Description.toCases ds

end

/-- The rules of a table, with the rule of arithmetic expressions. A name that the table does not
have never matches. -/
def Description.grammar (rules : List (String × Description)) : Grammar DescribedRule where
  size := rules.length + 1
  body
    | .named name => Description.caseFor name (Description.toCases rules)
    | .expression => Arithmetic.expression (.rule .expression)

end ParserCombinators
