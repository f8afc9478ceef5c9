import ParserCombinators.Cursor

/-!
# Outcomes — what a parser answers

A parser that ran to its end either did not match, or hands back a value and the cursor after the
text it took.

- `Outcome.map`, `Outcome.andThen`, `Outcome.orElse`: outcomes made from outcomes
- `Outcome.value?`, `Outcome.cursor?`, `Outcome.toOption`, `Outcome.toExcept`: views
- `NoMatch`: a failure seen as an error
-/

namespace ParserCombinators

inductive NoMatch where
  | noMatch
  deriving DecidableEq, Repr

namespace NoMatch

def message : NoMatch → String
  | .noMatch => "FailedMatch"

/-- Can a caller go on after this error? A text that does not match is an ordinary answer. -/
def isRecoverable : NoMatch → Bool
  | .noMatch => true

end NoMatch

inductive Outcome (α : Type) where
  | failure
  | success (cursor : Cursor) (value : α)
  deriving DecidableEq, Repr

namespace Outcome

variable {α β : Type}

def isSuccess : Outcome α → Bool
  | .failure => false
  | .success _ _ => true

def isFailure (o : Outcome α) : Bool :=
  !o.isSuccess

def map (f : α → β) : Outcome α → Outcome β
  | .failure => .failure
  | .success c v => .success c (f v)

/-- Goes on from a success; a failure stays one. -/
def andThen (o : Outcome α) (f : Cursor → α → Outcome β) : Outcome β :=
  match o with
  | .failure => .failure
  | .success c v => f c v

/-- Replaces a failure; a success stays as it is. -/
def orElse (o : Outcome α) (alternative : Unit → Outcome α) : Outcome α :=
  match o with
  | .failure => alternative ()
  | .success c v => .success c v

def value? : Outcome α → Option α
  | .failure => none
  | .success _ v => some v

def cursor? : Outcome α → Option Cursor
  | .failure => none
  | .success c _ => some c

def toOption : Outcome α → Option (Cursor × α)
  | .failure => none
  | .success c v => some (c, v)

def toExcept : Outcome α → Except NoMatch (Cursor × α)
  | .failure => .error .noMatch
  | .success c v => .ok (c, v)

@[simp] theorem map_failure (f : α → β) : (failure : Outcome α).map f = failure := rfl

@[simp] theorem map_success (f : α → β) (c : Cursor) (v : α) :
    (success c v).map f = success c (f v) := rfl

/-- `map` touches the value only. -/
@[simp] theorem isSuccess_map (f : α → β) (o : Outcome α) :
    (o.map f).isSuccess = o.isSuccess := by
  cases o <;> rfl

end Outcome

end ParserCombinators
