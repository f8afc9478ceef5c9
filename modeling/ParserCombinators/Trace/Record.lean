import ParserCombinators.Text.Column
import ParserCombinators.Text.Quoted

/-!
# Trace records

What a run can write about itself. A step record is written at a place in the text, under the label
of the innermost named parser; it says which operation is at work and what came of it. The other
records frame a whole parse.

- `Operation`, `Note`: what a step record is about
- `Record`: the records, with their `severity`
- `Level`: which severities are kept
- `Record.line`: the record as one line of text
-/

namespace ParserCombinators

namespace Trace

inductive Shown where
  | unit
  | char (c : Char)
  | text (s : String)
  deriving DecidableEq, Repr

def Shown.render : Shown → List Char
  | .unit => ['(', ')']
  | .char c => Text.quotedChar c
  | .text s => Text.quoted s

/-- The operation that writes a record, with what tells this use of it from others. -/
inductive Operation where
  /-- A text was taken up for parsing. -/
  | start
  | like
  | char (c : Char)
  | oneOf (set : String)
  | str (text : String)
  | endOfInput
  /-- A sequence, with the number of its parsers that matched. -/
  | seq (matched : Nat)
  /-- A choice that goes on to its right side. -/
  | choice
  /-- A repetition, with the number of values once it has any to report. -/
  | star (count : Option Nat)
  | plus (count : Option Nat)
  | named (label : String)
  deriving DecidableEq, Repr

namespace Operation

def name : Operation → String
  | .start => "Cursor::from"
  | .like => "like"
  | .char _ => "char"
  | .oneOf _ => "one_of"
  | .str _ => "str"
  | .endOfInput => "end"
  | .seq _ => "seq"
  | .choice => "or"
  | .star _ => "star"
  | .plus _ => "plus"
  | .named _ => "named"

/-- What stands between the brackets after the name; an operation without an argument shows the
empty text. -/
def argument : Operation → List Char
  | .start | .like | .endOfInput | .star none | .plus none => Text.quoted ""
  | .char c => Text.quotedChar c
  | .oneOf text | .str text | .named text => Text.quoted text
  | .seq count | .star (some count) | .plus (some count) => (toString count).toList
  | .choice => Text.quoted "right"

def render (op : Operation) : List Char :=
  op.name.toList ++ '(' :: op.argument ++ [')']

end Operation

inductive Note where
  /-- It begins. -/
  | opened
  | ok
  | noMatch
  | value (shown : Shown)
  deriving DecidableEq, Repr

def Note.render : Note → List Char
  | .opened => []
  | .ok => " -> ok".toList
  | .noMatch => " -> no match".toList
  | .value shown => " -> ".toList ++ shown.render

inductive Record where
  /-- A step: the unread text where it is written, the label in force, the operation, the note. -/
  | step (rest : List Char) (label : String) (op : Operation) (note : Note)
  /-- A parse begins on a text of so many bytes. -/
  | started (bytes : Nat)
  /-- A parse matched and left so many bytes. -/
  | matched (bytes : Nat)
  /-- A parse did not match. -/
  | failed
  deriving DecidableEq, Repr

inductive Severity where
  | debug
  | trace
  deriving DecidableEq, Repr

def Record.severity : Record → Severity
  | .step _ _ _ _ => .trace
  | .started _ | .matched _ | .failed => .debug

inductive Level where
  | off
  | debug
  | trace
  deriving DecidableEq, Repr

/-- Does the level keep records of this severity? -/
def Level.keeps : Level → Severity → Bool
  | .off, _ => false
  | .debug, .debug => true
  | .debug, .trace => false
  | .trace, _ => true

namespace Record

/-- Label and operation are filled up with spaces to this width. -/
def fieldWidth : Nat := 15

def message : Record → List Char
  | .step rest label op note =>
    Text.column rest ++ ' ' :: Text.padRight fieldWidth label.toList ++ " : ".toList ++
      Text.padRight fieldWidth op.render ++ note.render
  | .started bytes => "run _ on ".toList ++ (toString bytes).toList ++ " bytes".toList
  | .matched bytes => "run matched, ".toList ++ (toString bytes).toList ++ " bytes remain".toList
  | .failed => "run failed".toList

/-- The record as a line: severity, the fixed target, and the message. -/
def line (record : Record) : String :=
  let head := match record.severity with
    | .debug => "DEBUG tc "
    | .trace => "TRACE tc "
  head ++ String.ofList record.message

end Record

end Trace

end ParserCombinators
