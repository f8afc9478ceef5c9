import ParserCombinators.Parser.Derived
import ParserCombinators.Proofs.Endings

/-!
# Equations — how parsers end, form by form

`Grammar.endingAt` is the ending of a parser at a given fuel. It obeys one equation for each form of
parser, written with the sequels of `Ending`; proofs about parsers go through these equations and
never open the actions.

- `Grammar.endingAt`, `Grammar.run_ending`: the ending, at every level and label
- `Grammar.endingAt_char`, `Grammar.endingAt_or`, ...: the equations
- `Grammar.loopAt`: the loop behind the repetitions, by its number of rounds
-/

namespace ParserCombinators

open Engine

variable {R : Type → Type} {α β : Type}

namespace Grammar

def endingAt (g : Grammar R) (fuel : Nat) (p : Parser R α) (c : Cursor) : Ending (Outcome α) :=
  (g.run fuel p c).ending

/-- How the loop behind a repetition ends: the last cursor and the values of the rounds before. -/
def loopAt (g : Grammar R) (fuel : Nat) (p : Parser R α) (rounds : Nat) (c : Cursor) :
    Ending (Cursor × List α) :=
  (Action.many (g.run fuel p) rounds c).ending

variable (g : Grammar R) (fuel : Nat)

/-- Every level and label gives `endingAt`, which is stated at one of each. -/
theorem run_ending (p : Parser R α) (c : Cursor) (level : Trace.Level) (label : String) :
    (g.run fuel p c level label).ending = g.endingAt fuel p c :=
  (g.uniform_run fuel p c).ending_eq level label

/-! ## Primitives -/

@[simp] theorem endingAt_ok (c : Cursor) : g.endingAt fuel .ok c = .returned (.success c ()) := rfl

@[simp] theorem endingAt_succeed (v : α) (c : Cursor) :
    g.endingAt fuel (.succeed v) c = .returned (.success c v) := rfl

@[simp] theorem endingAt_pure (v : α) (c : Cursor) :
    g.endingAt fuel (pure v) c = .returned (.success c v) := rfl

/-- The value is made anew by a call, so a fault of the call is a panic here. -/
theorem endingAt_succeedWith (make : Callback α) (c : Cursor) :
    g.endingAt fuel (.succeedWith make) c =
      Ending.ofCallback make >>= fun v => .returned (.success c v) := by
  show (Engine.call make >>= fun v => pure (Outcome.success c v)).ending = _
  rw [ending_bind _ fun _ => .pure _, ending_call]
  rfl

@[simp] theorem endingAt_endOfInput_nil (before : List Char) :
    g.endingAt fuel .endOfInput ⟨before, []⟩ = .returned (.success ⟨before, []⟩ ()) := rfl

@[simp] theorem endingAt_endOfInput_cons (before : List Char) (ch : Char) (rest : List Char) :
    g.endingAt fuel .endOfInput ⟨before, ch :: rest⟩ = .returned .failure := rfl

@[simp] theorem endingAt_like_nil (accepts : Char → Callback Bool) (before : List Char) :
    g.endingAt fuel (.like accepts) ⟨before, []⟩ = .returned .failure := rfl

/-- The predicate is called once, on the character under the cursor. -/
@[simp] theorem endingAt_like_cons (accepts : Char → Callback Bool) (before : List Char)
    (ch : Char) (rest : List Char) :
    g.endingAt fuel (.like accepts) ⟨before, ch :: rest⟩ =
      Ending.ofCallback (accepts ch) >>= fun accepted =>
        .returned (if accepted then .success ⟨ch :: before, rest⟩ ch else .failure) :=
  Action.ending_readIf_cons _ _ _ _ _

@[simp] theorem endingAt_satisfy_nil (accepts : Char → Bool) (before : List Char) :
    g.endingAt fuel (.satisfy accepts) ⟨before, []⟩ = .returned .failure := rfl

/-- A pure predicate neither faults nor announces. -/
@[simp] theorem endingAt_satisfy_cons (accepts : Char → Bool) (before : List Char)
    (ch : Char) (rest : List Char) :
    g.endingAt fuel (.satisfy accepts) ⟨before, ch :: rest⟩ =
      .returned (if accepts ch then .success ⟨ch :: before, rest⟩ ch else .failure) :=
  endingAt_like_cons g fuel _ _ _ _

/-- `char` and `satisfy` differ in their records only. -/
theorem endingAt_char (ch : Char) (c : Cursor) :
    g.endingAt fuel (.char ch) c = g.endingAt fuel (.satisfy (· == ch)) c := by
  rcases c with ⟨before, _ | ⟨x, rest⟩⟩
  · rfl
  · rw [endingAt_satisfy_cons]
    exact Action.ending_readIf_cons _ _ _ _ _

/-- `oneOf` asks for membership in the characters of the set. -/
theorem endingAt_oneOf (set : String) (c : Cursor) :
    g.endingAt fuel (.oneOf set) c = g.endingAt fuel (.satisfy set.toList.contains) c := by
  rcases c with ⟨before, _ | ⟨x, rest⟩⟩
  · rfl
  · rw [endingAt_satisfy_cons]
    exact Action.ending_readIf_cons _ _ _ _ _

/-- A literal is a prefix test, with the cursor moved behind it. -/
theorem endingAt_str (text : String) (before rest : List Char) :
    g.endingAt fuel (.str text) ⟨before, rest⟩ =
      .returned (if text.toList <+: rest then
        .success ⟨text.toList.reverse ++ before, rest.drop text.toList.length⟩ text
        else .failure) :=
  Action.ending_str text before rest

/-- A user's parser ends as its call does; a fault becomes a panic. -/
@[simp] theorem endingAt_closure (f : Cursor → Callback (Outcome α)) (c : Cursor) :
    g.endingAt fuel (.closure f) c = Ending.ofCallback (f c) :=
  ending_call _

@[simp] theorem endingAt_fail (c : Cursor) :
    g.endingAt fuel (.fail : Parser R α) c = .returned .failure := rfl

@[simp] theorem endingAt_ofOption_none (c : Cursor) :
    g.endingAt fuel (.ofOption (.none : Option α)) c = .returned .failure := rfl

@[simp] theorem endingAt_ofOption_some (v : α) (c : Cursor) :
    g.endingAt fuel (.ofOption (some v)) c = .returned (.success c v) := rfl

/-! ## Sequences, choices and continuations -/

@[simp] theorem endingAt_seqOf_zero (items : Fin 0 → Parser R α) (c : Cursor) :
    g.endingAt fuel (.seqOf 0 items) c = .returned (.success c []) := by
  simp only [endingAt, run, Parser.eval, List.ofFn_zero, Action.seq, Action.seqFrom]
  rfl

/-- A sequence is its first parser and then the sequence of the others; a failure of either is one
of the whole. -/
theorem endingAt_seqOf_succ (n : Nat) (items : Fin (n + 1) → Parser R α) (c : Cursor) :
    g.endingAt fuel (.seqOf (n + 1) items) c =
      (g.endingAt fuel (items 0) c).andThen fun next v =>
        (g.endingAt fuel (.seqOf n fun i => items i.succ) next).andThen fun last vs =>
          .returned (.success last (v :: vs)) := by
  have htail : ∀ q ∈ List.ofFn fun i : Fin n => g.run fuel (items i.succ), q.Uniform := by
    intro q hq
    rcases List.mem_ofFn.1 hq with ⟨i, rfl⟩
    exact g.uniform_run fuel _
  have hunfold : g.endingAt fuel (.seqOf (n + 1) items) c =
      (Action.seqFrom 0 (g.run fuel (items 0) ::
        List.ofFn fun i : Fin n => g.run fuel (items i.succ)) c).ending := by
    simp only [endingAt, run, Parser.eval, List.ofFn_succ, Action.seq]
  rw [hunfold, Action.ending_seqFrom_cons 0 _ htail]
  refine congrArg (Ending.andThen _) (funext fun next => funext fun v => ?_)
  -- on its own, the tail counts its parts from zero again
  rw [Action.ending_seqFrom_done (0 + 1) 0 htail next]
  change (g.endingAt fuel (.seqOf n fun i => items i.succ) next >>= _) = _
  rcases g.endingAt fuel (.seqOf n fun i => items i.succ) next with (_ | _) | _ | _ <;> rfl

/-- Ordered choice: the right side runs from the same cursor, and only after a failure. -/
theorem endingAt_or (left right : Parser R α) (c : Cursor) :
    g.endingAt fuel (.or left right) c =
      (g.endingAt fuel left c).orElse (g.endingAt fuel right c) := by
  have hright : (g.run fuel right c).Uniform := g.uniform_run fuel right c
  show (g.run fuel left c >>= _).ending = _
  -- the record between the two sides leaves no trace in the ending
  rw [ending_bind]
  · refine congrArg (Ending.bind _) (funext fun outcome => ?_)
    cases outcome <;> rfl
  · intro outcome
    cases outcome with
    | failure => exact .bind (.trace _ _ _) fun _ => hright
    | success next v => exact .pure _

/-- The effect is called after a match, before the parser that was chosen; its fault is a panic. -/
theorem endingAt_chain (p : Parser R α) (effect : α → Callback Unit) (next : α → Parser R β)
    (c : Cursor) :
    g.endingAt fuel (.chain p effect next) c =
      (g.endingAt fuel p c).andThen fun after v =>
        Ending.ofCallback (effect v) >>= fun _ => g.endingAt fuel (next v) after := by
  have hnext : ∀ v, (g.run fuel (next v)).Uniform := fun v => g.uniform_run fuel (next v)
  show (g.run fuel p c >>= _).ending = _
  rw [ending_bind]
  · refine congrArg (Ending.bind _) (funext fun outcome => ?_)
    cases outcome with
    | failure => rfl
    | success after v =>
      change (Engine.call (effect v) >>= fun _ => g.run fuel (next v) after).ending = _
      rw [ending_bind _ fun _ => hnext v after, ending_call]
      rfl
  · intro outcome
    cases outcome with
    | failure => exact .pure _
    | success after v => exact .bind (.call _) fun _ => hnext v after

/-- A continuation without effects. -/
@[simp] theorem endingAt_bind (p : Parser R α) (next : α → Parser R β) (c : Cursor) :
    g.endingAt fuel (p >>= next) c =
      (g.endingAt fuel p c).andThen fun after v => g.endingAt fuel (next v) after :=
  endingAt_chain g fuel p _ next c

/-- The function is called after a match only. -/
theorem endingAt_map (p : Parser R α) (f : α → Callback β) (c : Cursor) :
    g.endingAt fuel (.map p f) c =
      (g.endingAt fuel p c).andThen fun after v =>
        Ending.ofCallback (f v) >>= fun w => .returned (.success after w) := by
  show (g.run fuel p c >>= _).ending = _
  rw [ending_bind]
  · refine congrArg (Ending.bind _) (funext fun outcome => ?_)
    cases outcome with
    | failure => rfl
    | success after v =>
      change (Engine.call (f v) >>= fun w => pure (Outcome.success after w)).ending = _
      rw [ending_bind _ fun _ => .pure _, ending_call]
      rfl
  · intro outcome
    cases outcome with
    | failure => exact .pure _
    | success after v => exact .bind (.call _) fun _ => .pure _

/-- A function without effects on the value. -/
@[simp] theorem endingAt_functor_map (f : α → β) (p : Parser R α) (c : Cursor) :
    g.endingAt fuel (f <$> p) c =
      (g.endingAt fuel p c).andThen fun after v => .returned (.success after (f v)) :=
  endingAt_map g fuel p _ c

/-- `Defect.optionFailed` does not appear: the second alternative always matches. -/
theorem endingAt_option (p : Parser R α) (c : Cursor) :
    g.endingAt fuel (.option p) c =
      ((g.endingAt fuel p c).andThen fun after v => .returned (.success after (some v))).orElse
        (.returned (.success c .none)) := by
  have hchoice : (g.endingAt fuel (.or (.map p fun v => pure (some v)) (.succeed .none)) c) =
      ((g.endingAt fuel p c).andThen fun after v => .returned (.success after (some v))).orElse
        (.returned (.success c .none)) := by
    rw [endingAt_or, endingAt_map, endingAt_succeed]
    rfl
  -- an optional parser is this choice, checked to match; the check passes since the second
  -- alternative always does
  rw [← hchoice]
  show (g.run fuel (.or (.map p fun v => pure (some v)) (.succeed .none)) c >>= _).ending = _
  rw [ending_bind]
  · change g.endingAt fuel (.or (.map p fun v => pure (some v)) (.succeed .none)) c >>= _ = _
    rw [hchoice]
    rcases g.endingAt fuel p c with (_ | _) | _ | _ <;> rfl
  · intro outcome
    cases outcome with
    | failure => exact .panic _
    | success after v => exact .pure _

/-! ## Wrappers and rules -/

/-- A label is seen in records only. -/
@[simp] theorem endingAt_named (label : String) (p : Parser R α) (c : Cursor) :
    g.endingAt fuel (.named label p) c = g.endingAt fuel p c := by
  have huniform : (Engine.trace c (.named label) .opened >>= fun _ => g.run fuel p c).Uniform :=
    .bind (.trace _ _ _) fun _ => g.uniform_run fuel p c
  exact ending_withLabel_at label huniform .off ""

@[simp] theorem endingAt_boxed (p : Parser R α) (c : Cursor) :
    g.endingAt fuel (.boxed p) c = g.endingAt fuel p c := rfl

/-- The factory is called before the parser runs, and its fault ends the run there. -/
theorem endingAt_deferred (factory : Callback Unit) (p : Parser R α) (c : Cursor) :
    g.endingAt fuel (.deferred factory p) c =
      Ending.ofCallback factory >>= fun _ => g.endingAt fuel p c := by
  show (Engine.build factory >>= fun _ => g.run fuel p c).ending = _
  rw [ending_bind _ fun _ => g.uniform_run fuel p c, ending_build]
  rfl

@[simp] theorem endingAt_rule_zero (r : R α) (c : Cursor) :
    g.endingAt 0 (.rule r) c = .exhausted := rfl

/-- A call takes one unit of fuel and runs the body with the rest. -/
@[simp] theorem endingAt_rule_succ (r : R α) (c : Cursor) :
    g.endingAt (fuel + 1) (.rule r) c = g.endingAt fuel (g.body r) c := rfl

/-- The function sees the start and the outcome, and both the next cursor and the next parser come
from its result. -/
theorem endingAt_inspect {γ : Type} (p : Parser R α)
    (choose : Cursor → Outcome α → Callback (Cursor × γ)) (next : γ → Parser R β) (c : Cursor) :
    g.endingAt fuel (.inspect p choose next) c =
      g.endingAt fuel p c >>= fun outcome =>
        Ending.ofCallback (choose c outcome) >>= fun chosen =>
          g.endingAt fuel (next chosen.2) chosen.1 := by
  have hnext : ∀ chosen : Cursor × γ, (g.run fuel (next chosen.2) chosen.1).Uniform :=
    fun chosen => g.uniform_run fuel (next chosen.2) chosen.1
  show (g.run fuel p c >>= fun outcome => Engine.call (choose c outcome) >>= fun chosen =>
    g.run fuel (next chosen.2) chosen.1).ending = _
  rw [ending_bind]
  · refine congrArg (Ending.bind _) (funext fun outcome => ?_)
    rw [ending_bind _ hnext, ending_call]
    rfl
  · exact fun outcome => .bind (.call _) hnext

/-! ## Repetition -/

/-- No rounds left is out of fuel, not the end of the repetition. -/
@[simp] theorem loopAt_zero (p : Parser R α) (c : Cursor) :
    g.loopAt fuel p 0 c = .exhausted := rfl

/-- One round: the loop stops at the first failure, with the cursor from before it. -/
theorem loopAt_succ (p : Parser R α) (rounds : Nat) (c : Cursor) :
    g.loopAt fuel p (rounds + 1) c =
      g.endingAt fuel p c >>= fun
        | .failure => .returned (c, [])
        | .success next v =>
          g.loopAt fuel p rounds next >>= fun found => .returned (found.1, v :: found.2) := by
  have hloop : ∀ c, (Action.many (g.run fuel p) rounds c).Uniform :=
    fun c => closed_uniform.many (g.uniform_run fuel p) rounds c
  -- all rounds run at the same fuel, and only their number goes down
  show (g.run fuel p c >>= _).ending = _
  rw [ending_bind]
  · refine congrArg (Ending.bind _) (funext fun outcome => ?_)
    cases outcome with
    | failure => rfl
    | success next v => exact ending_bind _ fun _ => .pure _
  · intro outcome
    cases outcome with
    | failure => exact .pure _
    | success next v => exact .bind (hloop next) fun _ => .pure _

/-- `star` never fails: whatever the loop returns is a match. -/
theorem endingAt_star (p : Parser R α) (c : Cursor) :
    g.endingAt fuel (.star p) c =
      g.loopAt fuel p fuel c >>= fun found => .returned (.success found.1 found.2) := by
  show (Engine.trace _ _ _ >>= fun _ => Action.many (g.run fuel p) fuel c >>= _).ending = _
  rw [ending_trace_bind, ending_bind _ fun _ => .bind (.trace _ _ _) fun _ => .pure _]
  rfl

/-- `plus` is `p` once and then the loop of `star`, with the same fuel. -/
theorem endingAt_plus (p : Parser R α) (c : Cursor) :
    g.endingAt fuel (.plus p) c =
      (g.endingAt fuel p c).andThen fun next v =>
        g.loopAt fuel p fuel next >>= fun found => .returned (.success found.1 (v :: found.2)) := by
  have hloop : ∀ c, (Action.many (g.run fuel p) fuel c).Uniform :=
    fun c => closed_uniform.many (g.uniform_run fuel p) fuel c
  show (Engine.trace _ _ _ >>= fun _ => g.run fuel p c >>= _).ending = _
  rw [ending_trace_bind, ending_bind]
  · refine congrArg (Ending.bind _) (funext fun outcome => ?_)
    cases outcome with
    | failure => rfl
    | success next v =>
      change (Action.many (g.run fuel p) fuel next >>= _).ending = _
      rw [ending_bind _ fun _ => .bind (.trace _ _ _) fun _ => .pure _]
      rfl
  · intro outcome
    cases outcome with
    | failure => exact .bind (.trace _ _ _) fun _ => .pure _
    | success next v => exact .bind (hloop next) fun _ => .bind (.trace _ _ _) fun _ => .pure _

end Grammar

end ParserCombinators
