import ParserCombinators.Parser.Fuel
import ParserCombinators.Proofs.Effects

/-!
# Endings — runs without their journal

How a run ends depends neither on the trace level nor on the label in force: records are written,
never read. So the ending of a run can be computed in a smaller monad that has no journal and no
label, and there it obeys one equation for each form of parser.

- `Ending`: a monad, with `Ending.ofCallback` for calls of users' functions
- `Ending.sequel`, `Engine.journal_bind`: what comes after a run that returned
- `Engine.Uniform`, `Engine.ending`: runs whose ending is the same at every level and label
- `Engine.closed_uniform`, `Grammar.uniform_run`: all parsers are of this kind
- `Grammar.endingAt`: the ending of a parser at a given fuel, with its equations
-/

namespace ParserCombinators

variable {α β : Type}

namespace Ending

/-- Goes on with what was returned; another ending stays as it is. -/
protected def bind (e : Ending α) (f : α → Ending β) : Ending β :=
  match e with
  | .returned a => f a
  | .panicked p => .panicked p
  | .exhausted => .exhausted

instance : Monad Ending where
  pure := .returned
  bind := Ending.bind

@[simp] theorem pure_eq (a : α) : (pure a : Ending α) = .returned a := rfl

@[simp] theorem returned_bind (a : α) (f : α → Ending β) : (Ending.returned a >>= f) = f a := rfl

@[simp] theorem panicked_bind (p : Panic) (f : α → Ending β) :
    (Ending.panicked p >>= f) = .panicked p := rfl

@[simp] theorem exhausted_bind (f : α → Ending β) :
    ((Ending.exhausted : Ending α) >>= f) = .exhausted := rfl

instance : LawfulMonad Ending :=
  LawfulMonad.mk' Ending
    (fun e => by cases e <;> rfl)
    (fun _ _ => rfl)
    (fun e _ _ => by cases e <;> rfl)

/-- Inversion of `>>=`, one lemma for each ending. A return comes from two returns. -/
theorem bind_eq_returned {e : Ending α} {f : α → Ending β} {b : β} :
    (e >>= f) = .returned b ↔ ∃ a, e = .returned a ∧ f a = .returned b := by
  cases e <;> simp

/-- A panic comes from either half; the second counts only if the first returned. -/
theorem bind_eq_panicked {e : Ending α} {f : α → Ending β} {p : Panic} :
    (e >>= f) = .panicked p ↔ e = .panicked p ∨ ∃ a, e = .returned a ∧ f a = .panicked p := by
  cases e <;> simp

/-- The same for a run without end. -/
theorem bind_eq_exhausted {e : Ending α} {f : α → Ending β} :
    (e >>= f) = .exhausted ↔ e = .exhausted ∨ ∃ a, e = .returned a ∧ f a = .exhausted := by
  cases e <;> simp

def ofCallback (callback : Callback α) : Ending α :=
  match callback.result with
  | .ok a => .returned a
  | .error fault => .panicked (.fault fault)

@[simp] theorem ofCallback_pure (a : α) : ofCallback (pure a) = .returned a := rfl

@[simp] theorem ofCallback_raise (fault : Fault) :
    ofCallback (Callback.raise fault : Callback α) = .panicked (.fault fault) := rfl

def andThen (e : Ending (Outcome α)) (f : Cursor → α → Ending (Outcome β)) : Ending (Outcome β) :=
  e >>= fun
    | .failure => .returned .failure
    | .success c v => f c v

def orElse (e alternative : Ending (Outcome α)) : Ending (Outcome α) :=
  e >>= fun
    | .failure => alternative
    | .success c v => .returned (.success c v)

/-- What comes after a run that returned; after another there is nothing. -/
def sequel (e : Ending α) (f : α → List β) : List β :=
  match e with
  | .returned a => f a
  | .panicked _ | .exhausted => []

/-- A sequel that always is empty leaves nothing, whatever the ending. -/
theorem sequel_eq_nil (e : Ending α) {f : α → List β} (h : ∀ a, f a = []) : e.sequel f = [] := by
  cases e with
  | returned a => exact h a
  | panicked | exhausted => rfl

section Sequels

variable (f : Cursor → α → Ending (Outcome β)) (alternative : Ending (Outcome α))

@[simp] theorem failure_andThen :
    (Ending.returned (.failure : Outcome α)).andThen f = .returned .failure := rfl

@[simp] theorem success_andThen (c : Cursor) (v : α) :
    (Ending.returned (.success c v)).andThen f = f c v := rfl

@[simp] theorem panicked_andThen (p : Panic) :
    (Ending.panicked p : Ending (Outcome α)).andThen f = .panicked p := rfl

@[simp] theorem exhausted_andThen :
    (Ending.exhausted : Ending (Outcome α)).andThen f = .exhausted := rfl

/-- Associativity, by cases on the ending and its outcome. -/
theorem andThen_assoc {γ : Type} (e : Ending (Outcome α)) (f : Cursor → α → Ending (Outcome β))
    (h : Cursor → β → Ending (Outcome γ)) :
    (e.andThen f).andThen h = e.andThen fun c v => (f c v).andThen h := by
  rcases e with (_ | ⟨c, v⟩) | p | _ <;> rfl

@[simp] theorem failure_orElse : (Ending.returned .failure).orElse alternative = alternative := rfl

@[simp] theorem success_orElse (c : Cursor) (v : α) :
    (Ending.returned (.success c v)).orElse alternative = .returned (.success c v) := rfl

@[simp] theorem panicked_orElse (p : Panic) :
    (Ending.panicked p).orElse alternative = .panicked p := rfl

@[simp] theorem exhausted_orElse : Ending.exhausted.orElse alternative = .exhausted := rfl

end Sequels

/-- Inversion of `andThen`, one lemma for each ending. A match is made of two matches. -/
theorem andThen_eq_success {e : Ending (Outcome α)} {f : Cursor → α → Ending (Outcome β)}
    {c : Cursor} {w : β} :
    e.andThen f = .returned (.success c w) ↔
      ∃ middle v, e = .returned (.success middle v) ∧ f middle v = .returned (.success c w) := by
  rcases e with (_ | ⟨middle, v⟩) | p | _ <;> simp [and_assoc]

/-- A panic of `e`, or one after a match of `e`; after a failure nothing runs. -/
theorem andThen_eq_panicked {e : Ending (Outcome α)} {f : Cursor → α → Ending (Outcome β)}
    {p : Panic} :
    e.andThen f = .panicked p ↔
      e = .panicked p ∨
        ∃ middle v, e = .returned (.success middle v) ∧ f middle v = .panicked p := by
  rcases e with (_ | ⟨middle, v⟩) | p | _ <;> simp [and_assoc]

theorem andThen_eq_exhausted {e : Ending (Outcome α)} {f : Cursor → α → Ending (Outcome β)} :
    e.andThen f = .exhausted ↔
      e = .exhausted ∨
        ∃ middle v, e = .returned (.success middle v) ∧ f middle v = .exhausted := by
  rcases e with (_ | ⟨middle, v⟩) | p | _ <;> simp [and_assoc]

/-- Inversion of `orElse`. The alternative is tried only after a failure, so a panic of `e` hides
it. -/
theorem orElse_eq_success {e alternative : Ending (Outcome α)} {c : Cursor} {v : α} :
    e.orElse alternative = .returned (.success c v) ↔
      e = .returned (.success c v) ∨
        e = .returned .failure ∧ alternative = .returned (.success c v) := by
  rcases e with (_ | ⟨middle, v⟩) | p | _ <;> simp

theorem orElse_eq_panicked {e alternative : Ending (Outcome α)} {p : Panic} :
    e.orElse alternative = .panicked p ↔
      e = .panicked p ∨ e = .returned .failure ∧ alternative = .panicked p := by
  rcases e with (_ | ⟨middle, v⟩) | p | _ <;> simp

theorem orElse_eq_exhausted {e alternative : Ending (Outcome α)} :
    e.orElse alternative = .exhausted ↔
      e = .exhausted ∨ e = .returned .failure ∧ alternative = .exhausted := by
  rcases e with (_ | ⟨middle, v⟩) | p | _ <;> simp

end Ending

/-! ## Runs whose ending needs no level and no label -/

namespace Engine

/-- How a run ends, at the level that keeps no records and with no label in force. -/
def ending (m : Engine α) : Ending α :=
  (m .off "").ending

/-- The run ends in the same way at every level and label. -/
structure Uniform (m : Engine α) : Prop where
  ending_eq : ∀ level label, (m level label).ending = m.ending

namespace Uniform

protected theorem pure (a : α) : (pure a : Engine α).Uniform :=
  ⟨fun _ _ => rfl⟩

protected theorem trace (c : Cursor) (op : Trace.Operation) (note : Trace.Note) :
    (Engine.trace c op note).Uniform :=
  ⟨fun _ _ => rfl⟩

protected theorem write (record : Trace.Record) : (Engine.write record).Uniform :=
  ⟨fun _ _ => rfl⟩

protected theorem panic (p : Panic) : (Engine.panic p : Engine α).Uniform :=
  ⟨fun _ _ => rfl⟩

protected theorem exhausted : (Engine.exhausted : Engine α).Uniform :=
  ⟨fun _ _ => rfl⟩

/-- The journal depends on `entry`, the ending does not. -/
protected theorem callAs (entry : String → Trace.Entry) (callback : Callback α) :
    (Engine.callAs entry callback).Uniform := by
  constructor
  intro level label
  rcases callback with ⟨events, fault | a⟩ <;> rfl

protected theorem call (callback : Callback α) : (Engine.call callback).Uniform :=
  .callAs _ callback

protected theorem build (factory : Callback Unit) : (Engine.build factory).Uniform :=
  .callAs _ factory

end Uniform

/-- At every level and label, a sequel ends as its two halves do. The second half may begin under
another label than the first, which is why it has to be uniform. -/
theorem ending_bind_at (m : Engine α) {f : α → Engine β} (hf : ∀ a, (f a).Uniform)
    (level : Trace.Level) (label : String) :
    ((m >>= f) level label).ending = (m level label).ending >>= fun a => (f a).ending := by
  show (Engine.bind m f level label).ending = _
  unfold Engine.bind
  rcases m level label with ⟨a | p | _, middle, journal⟩
  -- the first half may have left another label in force
  · exact (hf a).ending_eq level middle
  · rfl
  · rfl

/-- What a sequel leaves behind is what its two halves do, the second only if the first returned. -/
theorem journal_bind (m : Engine α) (f : α → Engine β) (level : Trace.Level) (label : String) :
    ((m >>= f) level label).journal =
      (m level label).journal ++ (m level label).ending.sequel fun a =>
        (f a level (m level label).label).journal := by
  show (Engine.bind m f level label).journal = _
  unfold Engine.bind
  rcases m level label with ⟨a | p | _, middle, journal⟩
  · rfl
  · exact (List.append_nil journal).symm
  · exact (List.append_nil journal).symm

/-- A pure sequel adds nothing to the journal. -/
theorem journal_bind_pure (m : Engine α) (f : α → β) (level : Trace.Level) (label : String) :
    ((m >>= fun a => pure (f a)) level label).journal = (m level label).journal := by
  have hnothing : ((m level label).ending.sequel fun a =>
      ((pure (f a) : Engine β) level (m level label).label).journal) = [] :=
    Ending.sequel_eq_nil _ fun _ => rfl
  rw [journal_bind, hnothing, List.append_nil]

/-- A function on what a run returns touches neither its label nor its journal. -/
theorem map_apply (φ : α → β) (m : Engine α) (level : Trace.Level) (label : String) :
    (φ <$> m) level label =
      ⟨φ <$> (m level label).ending, (m level label).label, (m level label).journal⟩ := by
  show Engine.bind m _ level label = _
  unfold Engine.bind
  rcases m level label with ⟨a | panic | _, last, journal⟩
  · show (⟨.returned (φ a), last, journal ++ []⟩ : Step β) = _
    rw [List.append_nil]
    rfl
  · rfl
  · rfl

/-- `Engine.ending` is a monad morphism on sequels that are uniform. -/
theorem ending_bind (m : Engine α) {f : α → Engine β} (hf : ∀ a, (f a).Uniform) :
    (m >>= f).ending = m.ending >>= fun a => (f a).ending :=
  ending_bind_at m hf .off ""

/-- Uniformity composes along `>>=`. -/
theorem Uniform.bind {m : Engine α} {f : α → Engine β} (hm : m.Uniform)
    (hf : ∀ a, (f a).Uniform) : (m >>= f).Uniform := by
  constructor
  intro level label
  rw [ending_bind_at m hf, ending_bind m hf, hm.ending_eq level label]

/-- A label changes no ending. -/
theorem ending_withLabel_at (inner : String) {m : Engine α} (hm : m.Uniform)
    (level : Trace.Level) (label : String) :
    (withLabel inner m level label).ending = m.ending :=
  hm.ending_eq level inner

/-- A uniform run does not see the inner label either. -/
theorem Uniform.withLabel (inner : String) {m : Engine α} (hm : m.Uniform) :
    (Engine.withLabel inner m).Uniform := by
  constructor
  intro level label
  rw [ending_withLabel_at inner hm]
  exact (ending_withLabel_at inner hm .off "").symm

@[simp] theorem ending_pure (a : α) : (pure a : Engine α).ending = .returned a := rfl

@[simp] theorem ending_trace (c : Cursor) (op : Trace.Operation) (note : Trace.Note) :
    (trace c op note).ending = .returned () := rfl

@[simp] theorem ending_write (record : Trace.Record) : (write record).ending = .returned () := rfl

/-- A record changes no ending. -/
@[simp] theorem ending_trace_bind (c : Cursor) (op : Trace.Operation) (note : Trace.Note)
    (f : Unit → Engine β) : (trace c op note >>= f).ending = (f ()).ending := rfl

@[simp] theorem ending_map_trace (c : Cursor) (op : Trace.Operation) (note : Trace.Note)
    (f : Unit → β) : (f <$> trace c op note).ending = .returned (f ()) := rfl

@[simp] theorem ending_write_bind (record : Trace.Record) (f : Unit → Engine β) :
    (write record >>= f).ending = (f ()).ending := rfl

@[simp] theorem ending_panic (p : Panic) : (panic p : Engine α).ending = .panicked p := rfl

/-- The two kinds of calls end alike: with the result, or with the fault as a panic. -/
theorem ending_callAs (entry : String → Trace.Entry) (callback : Callback α) :
    (callAs entry callback).ending = Ending.ofCallback callback := by
  rcases callback with ⟨events, fault | a⟩ <;> rfl

@[simp] theorem ending_call (callback : Callback α) :
    (call callback).ending = Ending.ofCallback callback :=
  ending_callAs _ callback

@[simp] theorem ending_build (factory : Callback Unit) :
    (build factory).ending = Ending.ofCallback factory :=
  ending_callAs _ factory

end Engine

open Engine

/-! ## Parsers are uniform -/

/-- No effect reads the level or the label, so `Closed` carries uniformity to all parsers. -/
theorem Engine.closed_uniform : Closed Uniform where
  pure := .pure
  bind := .bind
  trace := .trace
  build := .build
  call := .call
  panic := .panic
  exhausted := .exhausted
  withLabel := .withLabel

def Action.Uniform (p : Action α) : Prop :=
  ∀ c, (p c).Uniform

variable {R : Type → Type}

/-- `endingAt` may therefore fix the level and the label. -/
theorem Grammar.uniform_run (g : Grammar R) (fuel : Nat) (p : Parser R α) :
    (g.run fuel p).Uniform :=
  closed_uniform.run g fuel p

/-! ## Endings of actions -/

namespace Action

/-- At the end the predicate is not called. -/
theorem ending_readIf_nil (op : Trace.Operation) (accepts : Char → Callback Bool)
    (before : List Char) :
    (readIf op accepts ⟨before, []⟩).ending = .returned .failure := rfl

/-- Before a character the ending is that of the predicate; `Defect.unreadable` does not appear. -/
theorem ending_readIf_cons (op : Trace.Operation) (accepts : Char → Callback Bool)
    (before : List Char) (ch : Char) (rest : List Char) :
    (readIf op accepts ⟨before, ch :: rest⟩).ending =
      Ending.ofCallback (accepts ch) >>= fun accepted =>
        .returned (if accepted then .success ⟨ch :: before, rest⟩ ch else .failure) := by
  simp only [readIf, ending_trace_bind, Cursor.atEnd, List.isEmpty_cons, Bool.false_eq_true,
    if_false, Cursor.read]
  -- the trace behind the call is uniform, so the ending of the sequel can be taken apart
  rw [ending_bind _ fun _ => .bind (.trace _ _ _) fun _ => .pure _]
  simp

/-- A sequence goes on from where its first part stopped. -/
theorem ending_seqFrom_cons (done : Nat) (p : Action α) {ps : List (Action α)}
    (hps : ∀ q ∈ ps, q.Uniform) (c : Cursor) :
    (seqFrom done (p :: ps) c).ending =
      (p c).ending.andThen fun next v =>
        (seqFrom (done + 1) ps next).ending >>= fun outcome =>
          .returned (outcome.map (v :: ·)) := by
  have hrest : (seqFrom (done + 1) ps).Uniform := closed_uniform.seqFrom hps _
  rw [seqFrom, ending_bind]
  -- what comes after the first part is the same on both sides, outcome by outcome
  · refine congrArg (Ending.bind _) (funext fun outcome => ?_)
    cases outcome with
    | failure => rfl
    | success next v => exact ending_bind _ fun _ => .pure _
  · intro outcome
    cases outcome with
    | failure => exact .bind (.trace _ _ _) fun _ => .pure _
    | success next v => exact .bind (hrest next) fun _ => .pure _

/-- The count in `Operation.seq` is seen in records only. Induction on the list, for every pair of
counts. -/
theorem ending_seqFrom_done (done done' : Nat) {ps : List (Action α)} (hps : ∀ q ∈ ps, q.Uniform)
    (c : Cursor) : (seqFrom done ps c).ending = (seqFrom done' ps c).ending := by
  induction ps generalizing done done' c with
  | nil => rfl
  | cons p ps ih =>
    have htail : ∀ q ∈ ps, q.Uniform := fun q hq => hps q (by simp [hq])
    rw [ending_seqFrom_cons done p htail, ending_seqFrom_cons done' p htail]
    simp only [ih (done + 1) (done' + 1) htail]

/-- Characters in a row match where the text starts with them. Induction on the characters, for
every cursor. -/
theorem ending_seqFrom_char (chars : List Char) (done : Nat) (before rest : List Char) :
    (seqFrom done (chars.map char) ⟨before, rest⟩).ending =
      .returned (if chars <+: rest then
        .success ⟨chars.reverse ++ before, rest.drop chars.length⟩ chars else .failure) := by
  induction chars generalizing done before rest with
  | nil =>
    simp only [List.map_nil, seqFrom, ending_trace_bind, List.nil_prefix, if_true]
    rfl
  | cons ch chars ih =>
    have hchars : ∀ p ∈ chars.map char, p.Uniform := by
      intro p hp
      rcases List.mem_map.1 hp with ⟨x, -, rfl⟩
      exact closed_uniform.readIf _ _
    rw [List.map_cons, ending_seqFrom_cons done _ hchars]
    cases rest with
    | nil => simp [char, ending_readIf_nil]
    | cons x rest =>
      rw [char, ending_readIf_cons]
      -- the first characters decide, unless they agree
      by_cases hx : x = ch
      · subst hx
        by_cases hstarts : chars <+: rest <;> simp [ih, hstarts]
      · have hne : ¬ ch = x := fun h => hx h.symm
        simp [hx, hne]

/-- A text matches where the unread text starts with it. -/
theorem ending_str (text : String) (before rest : List Char) :
    (str text ⟨before, rest⟩).ending =
      .returned (if text.toList <+: rest then
        .success ⟨text.toList.reverse ++ before, rest.drop text.toList.length⟩ text
        else .failure) := by
  unfold str
  rw [ending_bind _ fun _ => .bind (.trace _ _ _) fun _ => .pure _, seq, ending_seqFrom_char]
  by_cases h : text.toList <+: rest <;> simp [h]

end Action

end ParserCombinators
