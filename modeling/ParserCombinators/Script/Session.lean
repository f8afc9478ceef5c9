import ParserCombinators.Parser.Meaning

/-!
# Sessions — runs one after another

A session runs parsers of one grammar in turn, each on a text of its own or from the cursor that an
earlier step ended with. The label that a step leaves in force is the one that the next step starts
under.

- `Session.Start`: where a step starts
- `Session.Task`: a step to be run
- `Session.Answer`: what came of it
- `Session.run`: all steps in order
-/

namespace ParserCombinators

namespace Session

inductive Start where
  /-- At the start of a text, as a whole parse with its records. -/
  | parse (text : String)
  /-- In a text, behind some of its characters. -/
  | skip (text : String) (characters : Nat)
  /-- Where an earlier step ended; steps are numbered from zero. -/
  | after (step : Nat)

structure Task (R : Type → Type) (α : Type) where
  parser : Parser R α
  start : Start

variable {R : Type → Type} {α : Type}

/-- The run of a task, given the cursors that the earlier steps ended with; none if the step it
builds on has no cursor. -/
def Task.engine? (g : Grammar R) (ends : List (Option Cursor)) (task : Task R α) :
    Option (Engine (Outcome α)) :=
  match task.start with
  | .parse text => some (g.parse task.parser text)
  | .skip text characters => some (g.runAt task.parser ((Cursor.ofText text).advance characters))
  | .after step => (ends[step]?.join).map (g.runAt task.parser)

inductive Answer (α : Type) where
  | noCursor
  | ran (step : Step (Outcome α))

def Answer.cursor? : Answer α → Option Cursor
  | .ran ⟨.returned outcome, _, _⟩ => outcome.cursor?
  | _ => none

/-- The label in force after a step that began under `label`. -/
def Answer.labelAfter (label : String) : Answer α → String
  | .noCursor => label
  | .ran step => step.label

/-- One step, under a label and after the steps that ended at `ends`. -/
def answer (g : Grammar R) (level : Trace.Level) (label : String) (ends : List (Option Cursor))
    (task : Task R α) : Answer α :=
  match task.engine? g ends with
  | none => .noCursor
  | some engine => .ran (engine level label)

/-- The steps of a session that began with the steps that ended at `ends`. -/
def runFrom (g : Grammar R) (level : Trace.Level) :
    String → List (Option Cursor) → List (Task R α) → List (Answer α)
  | _, _, [] => []
  | label, ends, task :: tasks =>
    let first := answer g level label ends task
    first :: runFrom g level (first.labelAfter label) (ends ++ [first.cursor?]) tasks

def run (g : Grammar R) (level : Trace.Level) (tasks : List (Task R α)) : List (Answer α) :=
  runFrom g level "" [] tasks

end Session

end ParserCombinators
