import ParserCombinators.Outcome

/-!
# Scripts on outcomes

A script makes outcomes, from nothing or from earlier ones, over one text. Outcomes are numbered
from zero.

- `OutcomeScript.Command`: one step
- `OutcomeScript.Made`: the outcome, and whether the step's function was called for it
- `OutcomeScript.run`: a whole script
- `OutcomeScript.equalTo`: an outcome compared with earlier ones
-/

namespace ParserCombinators

namespace OutcomeScript

inductive Command where
  /-- A success with a value, behind some characters of the text. -/
  | success (value : Int64) (reads : Nat)
  | failure
  /-- Adds to the value. -/
  | map (source : Nat) (n : Int64)
  /-- Reads a character; multiplies the value and adds the code point. -/
  | andThen (source : Nat) (n : Int64)
  /-- Another outcome in place of a failure. -/
  | orElse (source alternative : Nat)

/-- An outcome, and whether a function was called to make it. -/
structure Made where
  called : Bool
  outcome : Outcome Int64
  deriving DecidableEq

/-- Reads one character at `c` and takes it into the value. -/
def absorb (n : Int64) (c : Cursor) (v : Int64) : Outcome Int64 :=
  match c.read with
  | .error _ => .failure
  | .ok (ch, next) => .success next (v * n + Int64.ofNat ch.toNat)

/-- The outcome of a given number; a number that has none stands for a failure. -/
def lookup (made : List Made) (k : Nat) : Outcome Int64 :=
  (made[k]?).elim .failure Made.outcome

def step (text : String) (made : List Made) : Command → Made
  | .success value reads => ⟨false, .success ((Cursor.ofText text).advance reads) value⟩
  | .failure => ⟨false, .failure⟩
  | .map k n =>
    let source := lookup made k
    ⟨source.isSuccess, source.map (· + n)⟩
  | .andThen k n =>
    let source := lookup made k
    ⟨source.isSuccess, source.andThen (absorb n)⟩
  | .orElse k alternative =>
    let source := lookup made k
    ⟨source.isFailure, source.orElse fun _ => lookup made alternative⟩

def equalTo (earlier : List Made) (outcome : Outcome Int64) : List Bool :=
  earlier.map fun made => decide (made.outcome = outcome)

def run (text : String) (commands : List Command) : List Made :=
  commands.foldl (fun made command => made ++ [step text made command]) []

end OutcomeScript

end ParserCombinators
