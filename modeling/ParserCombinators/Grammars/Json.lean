import ParserCombinators.Decimal.Binary64
import ParserCombinators.Lexeme
import ParserCombinators.Parser.Meaning

/-!
# JSON documents

A grammar for JSON trees with blanks after every word. Strings have no escapes: they run to the next
quotation mark. A number is a longest run of the characters that occur in numbers, if that run reads
as one.

- `Json`: the trees
- `Json.insert`, `Json.ofMembers`: the members of an object, in the order of their keys; a key that
  is repeated keeps its last value
- `Json.separated`: items between separators
- `Json.grammar`, `Json.parse`: the grammar, and the tree of a whole text
-/

namespace ParserCombinators

/-- A JSON tree; the members of an object are in the order of their keys. -/
inductive Json where
  | null
  | bool (value : Bool)
  | num (value : Binary64)
  | str (text : String)
  | array (items : List Json)
  | object (members : List (String × Json))

namespace Json

/-- Puts a member in its place among members that are in the order of their keys; a member with the
same key gives way. -/
def insert (key : String) (value : Json) : List (String × Json) → List (String × Json)
  | [] => [(key, value)]
  | (k, v) :: rest =>
    if key < k then (key, value) :: (k, v) :: rest
    else if key = k then (key, value) :: rest
    else (k, v) :: insert key value rest

/-- Members in the order in which they were written, as the members of an object. -/
def ofMembers (members : List (String × Json)) : List (String × Json) :=
  members.foldl (fun sorted member => insert member.1 member.2 sorted) []

/-! ## Parsers -/

section

variable {R : Type → Type} {α : Type}

def string : Parser R String :=
  Lexeme.token (do
    let _ ← Parser.char '"'
    let chars ← (Parser.satisfy (· != '"')).star
    (fun _ => String.ofList chars) <$> Parser.char '"')

/-- A run of the characters of numbers that reads as a number. -/
def number : Parser R Json := do
  let chars ← Lexeme.token (.plus (.oneOf "-+.eE0123456789"))
  Parser.ofOption ((Binary64.ofText? (String.ofList chars)).map .num)

def literal (word : String) (tree : Json) : Parser R Json :=
  (fun _ => tree) <$> Lexeme.token (.str word)

/-- Zero or more items with a separator between each two of them. -/
def separated (item : Parser R α) (separator : Char) : Parser R (List α) :=
  (fun found => found.getD []) <$> Parser.option (do
    let first ← item
    (first :: ·) <$> Parser.star (do
      let _ ← Lexeme.token (.char separator)
      item))

variable (inner : Parser R Json)

def keyValue : Parser R (String × Json) := do
  let key ← string
  let _ ← Lexeme.token (.char ':')
  (fun tree => (key, tree)) <$> inner

def members : Parser R Json := do
  let _ ← Lexeme.token (.char '\x7b')
  let found ← separated (keyValue inner) ','
  (fun _ => .object (ofMembers found)) <$> Lexeme.token (.char '\x7d')

def items : Parser R Json := do
  let _ ← Lexeme.token (.char '[')
  let found ← separated inner ','
  (fun _ => .array found) <$> Lexeme.token (.char ']')

/-- Any tree, given a parser for the trees inside it. -/
def tree : Parser R Json :=
  .boxed (.named "json"
    (members inner
      |>.or (items inner)
      |>.or (Json.str <$> string)
      |>.or number
      |>.or (literal "true" (.bool true))
      |>.or (literal "false" (.bool false))
      |>.or (literal "null" .null)))

end

/-! ## Grammar -/

inductive Rule : Type → Type where
  | tree : Rule Json

def grammar : Grammar Rule where
  size := 1
  body
    | .tree => tree (.rule .tree)

def document : Parser Rule Json := do
  let _ ← Lexeme.blanks
  let value ← Parser.rule .tree
  (fun _ => value) <$> Parser.endOfInput

def parse (text : String) : Engine (Option Json) := do
  let outcome ← grammar.parse document text
  pure outcome.value?

end Json

end ParserCombinators
