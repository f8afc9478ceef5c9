import ParserCombinators.Engine

/-!
# Scripts on cursors

A script makes cursors, reads from them and compares them. Cursors are numbered from zero as they
are made.

- `CursorScript.Command`: one step
- `CursorScript.Answer`: what it says
- `CursorScript.run`: a whole script; the answers and all cursors
-/

namespace ParserCombinators

namespace CursorScript

inductive Command where
  /-- A cursor at the start of a text. -/
  | new (text : String)
  /-- The same, with the record of a text being taken up. -/
  | start (text : String)
  | read (cursor : Nat)
  | inspect (cursor : Nat)
  | compare (left right : Nat)

inductive Answer where
  | state (cursor : Cursor)
  | char (c : Char) (next : Cursor)
  | error (error : CursorError)
  | equal (value : Bool)
  /-- There is no cursor of this number. -/
  | missing

/-- The answer to a command, given the cursors made so far. -/
def answer (cursors : List Cursor) : Command → Engine Answer
  | .new text => pure (.state (Cursor.ofText text))
  | .start text => do
    let c ← Engine.start text
    pure (.state c)
  | .read k =>
    match cursors[k]? with
    | none => pure .missing
    | some c =>
      match c.read with
      | .error error => pure (.error error)
      | .ok (ch, next) => pure (.char ch next)
  | .inspect k => pure ((cursors[k]?).elim .missing .state)
  | .compare i j =>
    match cursors[i]?, cursors[j]? with
    | some a, some b => pure (.equal (decide (a = b)))
    | _, _ => pure .missing

def made : Command → Answer → List Cursor
  | .new _, .state c | .start _, .state c | .read _, .char _ c => [c]
  | _, _ => []

/-- Runs the commands in order; their answers, and all cursors. -/
def runFrom (cursors : List Cursor) : List Command → Engine (List Answer × List Cursor)
  | [] => pure ([], cursors)
  | command :: commands => do
    let first ← answer cursors command
    let (rest, all) ← runFrom (cursors ++ made command first) commands
    pure (first :: rest, all)

def run (commands : List Command) : Engine (List Answer × List Cursor) :=
  runFrom [] commands

end CursorScript

end ParserCombinators
