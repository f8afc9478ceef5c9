import ParserCombinators.Action

/-!
# Parsers

Parsers are terms: primitives for single characters and literals, combinators that build bigger
parsers out of smaller ones, and references to the rules of a grammar. `Parser R α` produces values
of type `α` and may refer to rules `R`; the rules are typed as well.

- `Parser`: the terms
- `Parser.seq`, `Parser.copies`: sequences from a list, or from one parser
- `Parser.bind`, `Parser.mapValue`: continuations and functions without effects; with them parsers
  are written in `do` blocks
-/

namespace ParserCombinators

/-- Parsers for values of a type, over rules `R`. -/
inductive Parser (R : Type → Type) : Type → Type 1 where
  /-- Matches without reading. -/
  | ok : Parser R Unit
  /-- Matches at the end of the text. -/
  | endOfInput : Parser R Unit
  /-- A character that the predicate accepts. -/
  | like (accepts : Char → Callback Bool) : Parser R Char
  /-- One given character. -/
  | char (c : Char) : Parser R Char
  /-- One of the characters of a text. -/
  | oneOf (set : String) : Parser R Char
  /-- A whole text. -/
  | str (text : String) : Parser R String
  /-- A given value, without reading. -/
  | succeed {α : Type} (value : α) : Parser R α
  /-- A value that is made anew each time, without reading. -/
  | succeedWith {α : Type} (make : Callback α) : Parser R α
  /-- So many parsers in order. -/
  | seqOf {α : Type} (n : Nat) (items : Fin n → Parser R α) : Parser R (List α)
  /-- The left side, or else the right side from the same place. -/
  | or {α : Type} (left right : Parser R α) : Parser R α
  /-- Zero or more. -/
  | star {α : Type} (p : Parser R α) : Parser R (List α)
  /-- One or more. -/
  | plus {α : Type} (p : Parser R α) : Parser R (List α)
  /-- Zero or one. -/
  | option {α : Type} (p : Parser R α) : Parser R (Option α)
  /-- First `p`, then the parser that a function chooses for its value. -/
  | chain {α β : Type} (p : Parser R α) (effect : α → Callback Unit) (next : α → Parser R β) :
      Parser R β
  /-- The parser `p`, its value changed by a function. -/
  | map {α β : Type} (p : Parser R α) (f : α → Callback β) : Parser R β
  /-- The parser `p` under a label. -/
  | named {α : Type} (label : String) (p : Parser R α) : Parser R α
  /-- The parser `p` behind a wrapper that hides how it is built. -/
  | boxed {α : Type} (p : Parser R α) : Parser R α
  /-- The parser `p`, built by a user's factory each time it runs. -/
  | deferred {α : Type} (factory : Callback Unit) (p : Parser R α) : Parser R α
  /-- A rule of the grammar. -/
  | rule {α : Type} (r : R α) : Parser R α
  /-- A parser that a user wrote as a function. -/
  | closure {α : Type} (f : Cursor → Callback (Outcome α)) : Parser R α
  /-- A parser that a user wrote around another: it runs `p`, sees the outcome, and chooses from
  which cursor and with which parser to go on. -/
  | inspect {α β γ : Type} (p : Parser R α)
      (choose : Cursor → Outcome α → Callback (Cursor × γ)) (next : γ → Parser R β) : Parser R β

namespace Parser

variable {R : Type → Type} {α β : Type}

def seq (ps : List (Parser R α)) : Parser R (List α) :=
  .seqOf ps.length ps.get

def copies (n : Nat) (p : Parser R α) : Parser R (List α) :=
  .seqOf n fun _ => p

/-- First `p`, then the parser for its value; the choice has no effects. -/
protected def bind (p : Parser R α) (next : α → Parser R β) : Parser R β :=
  .chain p (fun _ => pure ()) next

/-- The parser `p`, its value changed by a function without effects. -/
def mapValue (f : α → β) (p : Parser R α) : Parser R β :=
  .map p fun v => pure (f v)

instance : Monad (Parser R) where
  pure := .succeed
  bind := Parser.bind
  map := mapValue

end Parser

end ParserCombinators
