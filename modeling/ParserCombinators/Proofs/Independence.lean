import Mathlib.Data.List.Basic
import ParserCombinators.Proofs.Effects
import ParserCombinators.Script.Session

/-!
# Independence — the steps of a session do not influence one another

The steps of a session share a label that is carried from one to the next, and nothing else. Each
step leaves the label as it found it, also when it fails or panics, so that every step begins under
the empty label, as a run of its own does. A step is thus determined by its parser and by the place
where it starts, and sessions can be taken apart and put together in another order. Parsers with
rules or values of several types share a session as parsers over the sum of those types.

- `Session.Place`, `Session.alone`: where a run of its own starts, and what it leaves behind
- `Session.getElem?_run`: a step of a session is the run of its own from the same place
- `Session.arrange`, `Session.Arrangeable`: some steps of a session, in another order
- `Session.steps_are_independent`: steps answer as on their own, and as in every other arrangement
-/

namespace ParserCombinators

namespace Session

variable {R : Type → Type} {α : Type}

/-! ## Steps on their own -/

inductive Place where
  /-- At the start of a text, as a whole parse with its records. -/
  | text (text : String)
  | cursor (c : Cursor)

/-- The place that a start stands for, given the cursors that the earlier steps ended with. -/
def Start.place? (ends : List (Option Cursor)) : Start → Option Place
  | .parse text => some (.text text)
  | .skip text characters => some (.cursor ((Cursor.ofText text).advance characters))
  | .after step => (ends[step]?.join).map .cursor

/-- What a parser leaves behind that runs on its own, with no label in force. -/
def alone (g : Grammar R) (level : Trace.Level) (p : Parser R α) : Place → Step (Outcome α)
  | .text text => (g.parse p text).run level
  | .cursor c => (g.runAt p c).run level

/-- The answer of a run of its own; a step without a place to start does not run. -/
def answerAt (g : Grammar R) (level : Trace.Level) (p : Parser R α) : Option Place → Answer α
  | none => .noCursor
  | some place => .ran (alone g level p place)

/-- Under the empty label, an answer of the session is one of `answerAt`. -/
theorem answer_eq_answerAt (g : Grammar R) (level : Trace.Level) (ends : List (Option Cursor))
    (task : Task R α) :
    answer g level "" ends task = answerAt g level task.parser (task.start.place? ends) := by
  rcases task with ⟨p, text | ⟨text, characters⟩ | step⟩
  · rfl
  · rfl
  · simp only [answer, Task.engine?, Start.place?]
    cases ends[step]?.join with
    | none => rfl
    | some c => rfl

/-! ## The label between the steps -/

/-- Every way to start a task runs a parser, and runs leave the label alone. -/
theorem steady_engine {g : Grammar R} {ends : List (Option Cursor)} {task : Task R α}
    {engine : Engine (Outcome α)} (h : task.engine? g ends = some engine) : engine.Steady := by
  rcases task with ⟨p, text | ⟨text, characters⟩ | step⟩
  · cases h
    exact g.steady_parse p text
  · cases h
    exact g.label_run _ p _
  · rcases Option.map_eq_some_iff.1 h with ⟨c, -, rfl⟩
    exact g.label_run _ p c

/-- After a step, the label is the one before it, whatever the ending of the step. -/
theorem labelAfter_answer (g : Grammar R) (level : Trace.Level) (label : String)
    (ends : List (Option Cursor)) (task : Task R α) :
    (answer g level label ends task).labelAfter label = label := by
  unfold answer
  cases hengine : task.engine? g ends with
  | none => rfl
  | some engine => exact steady_engine hengine level label

/-- The steps of a session that was under way, one by one. Induction on the tasks, for every list of
cursors before. -/
theorem getElem?_runFrom (g : Grammar R) (level : Trace.Level) (ends : List (Option Cursor))
    (tasks : List (Task R α)) (i : Nat) :
    (runFrom g level "" ends tasks)[i]? = tasks[i]?.map
      (answer g level "" (ends ++ ((runFrom g level "" ends tasks).take i).map Answer.cursor?)) := by
  induction tasks generalizing ends i with
  | nil => rfl
  | cons task tasks ih =>
    simp only [runFrom, labelAfter_answer]
    cases i with
    | zero => simp
    | succ i => simp [ih]

/-- A step answers as on its own, from the place where it starts. -/
theorem getElem?_run (g : Grammar R) (level : Trace.Level) (tasks : List (Task R α)) (i : Nat) :
    (run g level tasks)[i]? = tasks[i]?.map fun task => answerAt g level task.parser
      (task.start.place? (((run g level tasks).take i).map Answer.cursor?)) := by
  unfold run
  rw [getElem?_runFrom, List.nil_append]
  exact congrArg (tasks[i]?.map ·) (funext (answer_eq_answerAt g level _))

/-- Where a step that goes on from an earlier one starts. -/
theorem place?_after (answers : List (Answer α)) {k i : Nat} (h : k < i) :
    (Start.after k).place? ((answers.take i).map Answer.cursor?) =
      (answers[k]?.bind Answer.cursor?).map .cursor := by
  simp only [Start.place?, List.getElem?_map, List.getElem?_take_of_lt h]
  cases answers[k]? with
  | none => rfl
  | some earlier => rfl

/-! ## Other arrangements -/

def Start.renumber (number : Nat → Nat) : Start → Start
  | .parse text => .parse text
  | .skip text characters => .skip text characters
  | .after step => .after (number step)

/-- The session of some steps of another one, in the given order. A step that goes on from another
does so under the new number of that one. -/
def arrange (tasks : List (Task R α)) (order : List (Fin tasks.length)) : List (Task R α) :=
  order.map fun i =>
    ⟨(tasks.get i).parser, (tasks.get i).start.renumber (order.map Fin.val).idxOf⟩

/-- A step that goes on from another has it before itself, in the session and in the new order. -/
def Arrangeable (tasks : List (Task R α)) (order : List (Fin tasks.length)) : Prop :=
  ∀ j i, order[j]? = some i → ∀ k, (tasks.get i).start = .after k →
    k < i ∧ k ∈ (order.take j).map Fin.val

/-- What stands among the first items of a list is found there. -/
theorem idxOf_of_mem_take {steps : List Nat} {k j : Nat} (h : k ∈ steps.take j) :
    steps.idxOf k < j ∧ steps[steps.idxOf k]? = some k := by
  have hfirst : steps.idxOf k = (steps.take j).idxOf k := by
    rw [← List.idxOf_append_of_mem h, List.take_append_drop]
  have hlt : (steps.take j).idxOf k < (steps.take j).length := List.idxOf_lt_length_of_mem h
  constructor
  · rw [hfirst]
    exact Nat.lt_of_lt_of_le hlt (List.length_take_le j steps)
  · exact List.getElem?_idxOf (List.mem_of_mem_take h)

/-- A step answers in its new place as it did in the old one. Strong induction on the new place. -/
theorem getElem?_run_arrange (g : Grammar R) (level : Trace.Level) {tasks : List (Task R α)}
    {order : List (Fin tasks.length)} (h : Arrangeable tasks order) (j : Nat) :
    (run g level (arrange tasks order))[j]? = order[j]?.bind fun i => (run g level tasks)[i.val]? := by
  -- a step may go on from an earlier one, which by then has been seen to answer the same
  induction j using Nat.strongRecOn with
  | ind j ih =>
    rw [getElem?_run]
    simp only [arrange, List.getElem?_map]
    cases hi : order[j]? with
    | none => rfl
    | some i =>
      have htask : tasks[i.val]? = some (tasks.get i) := by simp
      simp only [Option.map_some, Option.bind_some, getElem?_run g level tasks, htask]
      refine congrArg (fun place => some (answerAt g level (tasks.get i).parser place)) ?_
      cases hstart : (tasks.get i).start with
      | parse text => rfl
      | skip text characters => rfl
      | after k =>
        rcases h j i hi k hstart with ⟨hk, hmem⟩
        rw [List.map_take] at hmem
        rcases idxOf_of_mem_take hmem with ⟨hnumber, hfound⟩
        rw [List.getElem?_map] at hfound
        rcases Option.map_eq_some_iff.1 hfound with ⟨source, hsource, rfl⟩
        have hsame := ih _ hnumber
        rw [hsource, Option.bind_some] at hsame
        show (Start.after _).place? _ = (Start.after _).place? _
        rw [place?_after _ hnumber, place?_after _ hk]
        exact congrArg (fun found => (Option.bind found Answer.cursor?).map Place.cursor) hsame

/-- A step of a session leaves behind what its parser leaves behind on its own, with no label in
force, from the place where the step starts: the same ending, be it a match, a failure or a panic,
the same events and the same records. Of the other steps only the cursor counts that it goes on
from. So the steps of a session may be left out, or taken in another order, as long as those that a
step goes on from stay before it; the steps that are left answer as they did. -/
theorem steps_are_independent (g : Grammar R) (level : Trace.Level) (tasks : List (Task R α)) :
    (∀ i : Nat, (run g level tasks)[i]? = tasks[i]?.map fun task => answerAt g level task.parser
      (task.start.place? (((run g level tasks).take i).map Answer.cursor?))) ∧
    ∀ order, Arrangeable tasks order → ∀ j : Nat,
      (run g level (arrange tasks order))[j]? = order[j]?.bind fun i => (run g level tasks)[i.val]? :=
  ⟨getElem?_run g level tasks, fun _ h => getElem?_run_arrange g level h⟩

/-- A panic under a label, a match, and a step that goes on from the match. -/
def threeSteps : List (Task NoRule Char) :=
  [⟨.named "lost" (.like fun _ => Callback.raise (.raised "no")), .parse "x"⟩,
    ⟨.named "first" (.char 'a'), .parse "aab"⟩,
    ⟨.char 'a', .after 1⟩]

/-- With the panic left to the end, the other two steps answer the same, and the second of them goes
on behind the first character. -/
theorem steps_are_independent_panic_last :
    Arrangeable threeSteps [⟨1, by decide⟩, ⟨2, by decide⟩, ⟨0, by decide⟩] ∧
    (run Grammar.none .trace (arrange threeSteps [⟨1, by decide⟩, ⟨2, by decide⟩, ⟨0, by decide⟩]))[1]? =
      (run Grammar.none .trace threeSteps)[2]? ∧
    ((run Grammar.none .trace threeSteps)[2]?.bind Answer.cursor?) = some ⟨['a', 'a'], ['b']⟩ := by
  have harrangeable :
      Arrangeable threeSteps [⟨1, by decide⟩, ⟨2, by decide⟩, ⟨0, by decide⟩] := by
    intro j i hi k hk
    rcases j with _ | _ | _ | j
    · cases hi
      cases hk
    · cases hi
      cases hk
      decide
    · cases hi
      cases hk
    · cases hi
  refine ⟨harrangeable, (steps_are_independent Grammar.none .trace threeSteps).2 _ harrangeable 1, ?_⟩
  decide

end Session

end ParserCombinators
