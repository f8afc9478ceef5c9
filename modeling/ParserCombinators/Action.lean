import ParserCombinators.Engine

/-!
# Actions — what parsers do

The meaning of a parser is an action: a run that starts at a cursor and returns an outcome. This
module gives the action of each primitive and combinator in terms of the actions of its parts, with
the records that each one writes.

- `Action.readIf`, `Action.endOfInput`, `Action.str`: primitives
- `Action.seq`, `Action.or`, `Action.star`, `Action.plus`, `Action.option`: combinators
- `Action.many`: the loop behind the repetitions; it takes fuel, since a parser that matches
  without reading could go on forever
- `Action.chain`, `Action.map`, `Action.inspect`: functions and continuations
- `Action.named`, `Action.deferred`: labels and deferred construction
-/

namespace ParserCombinators

abbrev Action (α : Type) : Type := Cursor → Engine (Outcome α)

namespace Action

variable {α β : Type}

/-! ## Primitives -/

def succeed (value : α) : Action α :=
  fun c => pure (.success c value)

def fail : Action α :=
  fun _ => pure .failure

def noteOf (shown : α → Trace.Shown) : Outcome α → Trace.Note
  | .failure => .noMatch
  | .success _ value => .value (shown value)

/-- Reads one character and keeps it if the user's predicate accepts it. -/
def readIf (op : Trace.Operation) (accepts : Char → Callback Bool) : Action Char := fun c => do
  Engine.trace c op .opened
  if c.atEnd then
    Engine.trace c op .noMatch
    pure .failure
  else
    match c.read with
    | .error error => Engine.panic (.defect (.unreadable error))
    | .ok (ch, next) =>
      let accepted ← Engine.call (accepts ch)
      let outcome := if accepted then .success next ch else .failure
      Engine.trace c op (noteOf .char outcome)
      pure outcome

def endOfInput : Action Unit := fun c => do
  let outcome := if c.atEnd then .success c () else .failure
  Engine.trace c .endOfInput (noteOf (fun _ => .unit) outcome)
  pure outcome

/-! ## Sequences -/

/-- The rest of a sequence of which `done` parsers have matched. -/
def seqFrom (done : Nat) : List (Action α) → Action (List α)
  | [], c => do
    Engine.trace c (.seq done) .ok
    pure (.success c [])
  | p :: ps, c => do
    match ← p c with
    | .failure =>
      Engine.trace c (.seq done) .noMatch
      pure .failure
    | .success next v =>
      let outcome ← seqFrom (done + 1) ps next
      pure (outcome.map (v :: ·))

def seq (ps : List (Action α)) : Action (List α) :=
  seqFrom 0 ps

def char (ch : Char) : Action Char :=
  readIf (.char ch) fun x => pure (x == ch)

def str (text : String) : Action String := fun c => do
  let chars ← seq (text.toList.map char) c
  let outcome := chars.map String.ofList
  Engine.trace c (.str text) (noteOf .text outcome)
  pure outcome

/-! ## Choice -/

/-- Runs the right side, from the same cursor, only if the left side failed. -/
def or (left right : Action α) : Action α := fun c => do
  match ← left c with
  | .failure =>
    Engine.trace c .choice .opened
    right c
  | .success next v => pure (.success next v)

def map (p : Action α) (f : α → Callback β) : Action β := fun c => do
  match ← p c with
  | .failure => pure .failure
  | .success next v =>
    let w ← Engine.call (f v)
    pure (.success next w)

/-- A choice between the value of `p` and none; that it matches is checked. -/
def option (p : Action α) : Action (Option α) := fun c => do
  let outcome ← or (p.map fun v => pure (some v)) (succeed none) c
  if outcome.isSuccess then pure outcome else Engine.panic (.defect .optionFailed)

/-! ## Repetition -/

/-- Runs `p` until it fails, at most `fuel` times; the last cursor and all values. -/
def many (p : Action α) : Nat → Cursor → Engine (Cursor × List α)
  | 0, _ => Engine.exhausted
  | fuel + 1, c => do
    match ← p c with
    | .failure => pure (c, [])
    | .success next v =>
      let (last, vs) ← many p fuel next
      pure (last, v :: vs)

def star (fuel : Nat) (p : Action α) : Action (List α) := fun c => do
  Engine.trace c (.star none) .opened
  let (last, vs) ← many p fuel c
  Engine.trace last (.star (some vs.length)) .ok
  pure (.success last vs)

def plus (fuel : Nat) (p : Action α) : Action (List α) := fun c => do
  Engine.trace c (.plus none) .opened
  match ← p c with
  | .failure =>
    Engine.trace c (.plus none) .noMatch
    pure .failure
  | .success next v =>
    let (last, vs) ← many p fuel next
    Engine.trace last (.plus (some (vs.length + 1))) .ok
    pure (.success last (v :: vs))

/-! ## Continuations and labels -/

/-- Calls the user's function on the value of `p`, then goes on with the action it chose. -/
def chain (p : Action α) (effect : α → Callback Unit) (next : α → Action β) : Action β :=
  fun c => do
    match ← p c with
    | .failure => pure .failure
    | .success after v =>
      Engine.call (effect v)
      next v after

/-- Runs `p`, lets the user's function see the outcome and choose a cursor, and goes on from
there. -/
def inspect {γ : Type} (p : Action α) (choose : Cursor → Outcome α → Callback (Cursor × γ))
    (next : γ → Action β) : Action β := fun c => do
  let outcome ← p c
  let (resume, choice) ← Engine.call (choose c outcome)
  next choice resume

/-- Runs `p` only if its factory returns; a fault of the factory is a panic of its own. -/
def deferred (factory : Callback Unit) (p : Action α) : Action α := fun c => do
  Engine.build factory
  p c

def named (label : String) (p : Action α) : Action α := fun c =>
  Engine.withLabel label do
    Engine.trace c (.named label) .opened
    p c

end Action

end ParserCombinators
