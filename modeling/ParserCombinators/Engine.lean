import ParserCombinators.Callback
import ParserCombinators.Outcome
import ParserCombinators.Trace.Journal

/-!
# The engine — the effects of a run

A run reads the trace level, holds the label of the innermost named parser as state, and adds to a
journal. It ends by returning, by a panic, or by using up its fuel; label and journal outlive every
ending.

- `Panic`: a fault of a user's function, or a `Defect` of the engine itself
- `Ending`, `Step`: how a run ended and what it left behind
- `Engine`: runs; a monad
- `Engine.run`: a run on its own
- `Engine.write`, `Engine.trace`: records
- `Engine.call`, `Engine.build`: calls of users' functions and factories
- `Engine.ensuring`, `Engine.withLabel`: cleaning up after every ending
-/

namespace ParserCombinators

inductive Defect where
  /-- A cursor that was not at the end could not be read. -/
  | unreadable (error : CursorError)
  /-- An optional parser failed. -/
  | optionFailed
  deriving DecidableEq, Repr

def Defect.message : Defect → String
  | .unreadable error => "Unexpected " ++ error.message ++ " on a cursor checked not at end"
  | .optionFailed => "option never fails"

inductive Panic where
  | fault (fault : Fault)
  | defect (defect : Defect)
  deriving DecidableEq, Repr

def Panic.message : Panic → String
  | .fault f => f.message
  | .defect d => d.message

inductive Ending (α : Type) where
  | returned (value : α)
  | panicked (panic : Panic)
  /-- The fuel ran out before the run was over. -/
  | exhausted
  deriving DecidableEq, Repr

/-- A run that is over: its ending, the label in force afterwards, and what it wrote. -/
structure Step (α : Type) where
  ending : Ending α
  label : String
  journal : Journal
  deriving DecidableEq, Repr

/-- A run, given the trace level and the label in force when it begins. -/
def Engine (α : Type) : Type :=
  Trace.Level → String → Step α

namespace Engine

variable {α β : Type}

protected def pure (a : α) : Engine α :=
  fun _ label => ⟨.returned a, label, []⟩

/-- Goes on with what `m` returned; another ending of `m` is the ending of both. -/
protected def bind (m : Engine α) (f : α → Engine β) : Engine β :=
  fun level label =>
    match m level label with
    | ⟨.returned a, middle, journal⟩ =>
      match f a level middle with
      | ⟨ending, last, later⟩ => ⟨ending, last, journal ++ later⟩
    | ⟨.panicked panic, last, journal⟩ => ⟨.panicked panic, last, journal⟩
    | ⟨.exhausted, last, journal⟩ => ⟨.exhausted, last, journal⟩

instance : Monad Engine where
  pure := Engine.pure
  bind := Engine.bind

/-- Right identity: the journal of `pure` is empty and is appended without effect. -/
protected theorem bind_pure (m : Engine α) : m.bind Engine.pure = m := by
  funext level label
  show (match m level label with
    | ⟨.returned a, middle, journal⟩ => (⟨.returned a, middle, journal ++ []⟩ : Step α)
    | ⟨.panicked panic, last, journal⟩ => ⟨.panicked panic, last, journal⟩
    | ⟨.exhausted, last, journal⟩ => ⟨.exhausted, last, journal⟩) = m level label
  rcases m level label with ⟨_ | _ | _, _, _⟩ <;> simp

/-- Left identity, by computation. -/
protected theorem pure_bind (a : α) (f : α → Engine β) : (Engine.pure a).bind f = f a := rfl

/-- The journals of three runs in a row do not depend on how the runs are grouped. -/
protected theorem bind_assoc {γ : Type} (m : Engine α) (f : α → Engine β) (g : β → Engine γ) :
    (m.bind f).bind g = m.bind fun a => (f a).bind g := by
  funext level label
  unfold Engine.bind
  rcases m level label with ⟨a | _ | _, middle, _⟩
  · dsimp only
    rcases f a level middle with ⟨_ | _ | _, _, _⟩ <;> simp
  · rfl
  · rfl

instance : LawfulMonad Engine :=
  LawfulMonad.mk' Engine Engine.bind_pure Engine.pure_bind Engine.bind_assoc

/-- A run on its own: no label is in force when it begins. -/
def run (level : Trace.Level) (m : Engine α) : Step α :=
  m level ""

/-! ## Endings -/

def panic (p : Panic) : Engine α :=
  fun _ label => ⟨.panicked p, label, []⟩

def exhausted : Engine α :=
  fun _ label => ⟨.exhausted, label, []⟩

/-! ## Journal -/

def write (record : Trace.Record) : Engine Unit :=
  fun level label =>
    ⟨.returned (), label, if level.keeps record.severity then [.record record] else []⟩

/-- Writes a step record at a cursor, under the label in force. -/
def trace (c : Cursor) (op : Trace.Operation) (note : Trace.Note) : Engine Unit :=
  fun level label => write (.step c.rest label op note) level label

/-- Takes up a text for parsing: the cursor at its start, and a record of it. -/
def start (text : String) : Engine Cursor := do
  let c := Cursor.ofText text
  trace c .start .ok
  pure c

/-- Calls a user's function: its events are entered, each as `entry` has it, and its fault is a
panic. -/
def callAs (entry : String → Trace.Entry) (callback : Callback α) : Engine α :=
  fun _ label =>
    let journal := callback.events.map entry
    match callback.result with
    | .ok a => ⟨.returned a, label, journal⟩
    | .error fault => ⟨.panicked (.fault fault), label, journal⟩

def call (callback : Callback α) : Engine α :=
  callAs .event callback

/-- Calls the factory of a deferred parser; its events are told apart from those of other calls. -/
def build (factory : Callback Unit) : Engine Unit :=
  callAs .built factory

/-! ## Label -/

def getLabel : Engine String :=
  fun _ label => ⟨.returned label, label, []⟩

def setLabel (label : String) : Engine Unit :=
  fun _ _ => ⟨.returned (), label, []⟩

/-- Runs `cleanup` after `m`, whatever the ending of `m`, and keeps that ending. -/
def ensuring (m : Engine α) (cleanup : Engine Unit) : Engine α :=
  fun level label =>
    match m level label with
    | ⟨ending, middle, journal⟩ =>
      match cleanup level middle with
      | ⟨_, last, later⟩ => ⟨ending, last, journal ++ later⟩

/-- Runs `m` under a label and puts the outer label in force again afterwards. -/
def withLabel (label : String) (m : Engine α) : Engine α := do
  let outer ← getLabel
  setLabel label
  m.ensuring (setLabel outer)

end Engine

end ParserCombinators
