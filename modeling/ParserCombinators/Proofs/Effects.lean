import ParserCombinators.Parser.Meaning

/-!
# Effects — what holds of every run

Parsers reach the engine through a few effects only: they write records, call functions of users,
call the factories of deferred parsers, put labels in force, and stop. What holds of these effects
and carries over to sequels therefore holds of every parser; no parser has to be opened for it.

- `Engine.Closed`: the properties of runs that carry over in this way
- `Engine.Closed.many`, `Engine.Closed.seqFrom`, ...: actions out of such effects
- `Engine.Closed.eval`, `Engine.Closed.run`, `Engine.Closed.parse`: parsers, grammars and whole
  parses
- `Engine.withLabel_apply`: a run under a label of its own
- `Engine.Steady`, `Grammar.label_run`, `Grammar.steady_parse`: a run leaves the label in force that
  it found
-/

namespace ParserCombinators

variable {R : Type → Type} {α β : Type}

/-- The check in `option` always passes: an optional parser is `p` with a second alternative that
matches without reading. -/
theorem Action.option_eq (p : Action α) (c : Cursor) :
    p.option c = p c >>= fun
      | .failure => do
        Engine.trace c .choice .opened
        pure (.success c none)
      | .success next v => pure (.success next (some v)) := by
  unfold option or map
  simp only [bind_assoc]
  refine bind_congr fun outcome => ?_
  cases outcome with
  | failure => simp only [pure_bind, bind_assoc, succeed, Outcome.isSuccess, if_true]
  | success next v => rfl

namespace Engine

/-- The property holds of the effects that parsers have, and of what is put together from runs with
the property. -/
structure Closed (P : {α : Type} → Engine α → Prop) : Prop where
  pure : ∀ {α : Type} (a : α), P (pure a)
  bind : ∀ {α β : Type} {m : Engine α} {f : α → Engine β}, P m → (∀ a, P (f a)) → P (m >>= f)
  trace : ∀ (c : Cursor) (op : Trace.Operation) (note : Trace.Note), P (trace c op note)
  build : ∀ factory : Callback Unit, P (build factory)
  call : ∀ {α : Type} (callback : Callback α), P (call callback)
  panic : ∀ {α : Type} (p : Panic), P (panic p : Engine α)
  exhausted : ∀ {α : Type}, P (exhausted : Engine α)
  withLabel : ∀ {α : Type} (label : String) {m : Engine α}, P m → P (withLabel label m)

namespace Closed

variable {P : {α : Type} → Engine α → Prop}

/-! ## Actions -/

/-- Reading is a record, a call of the predicate and a record, or the panic of an unreadable
cursor. -/
theorem readIf (hP : Closed P) (op : Trace.Operation) (accepts : Char → Callback Bool)
    (c : Cursor) : P (Action.readIf op accepts c) := by
  refine hP.bind (hP.trace _ _ _) fun _ => ?_
  cases c.atEnd with
  | true => exact hP.bind (hP.trace _ _ _) fun _ => hP.pure _
  | false =>
    cases c.read with
    | error e => exact hP.panic _
    | ok after => exact hP.bind (hP.call _) fun _ => hP.bind (hP.trace _ _ _) fun _ => hP.pure _

/-- Induction on the list; the property is asked of each part at every cursor. -/
theorem seqFrom (hP : Closed P) {ps : List (Action α)} (h : ∀ p ∈ ps, ∀ c, P (p c)) (done : Nat)
    (c : Cursor) : P (Action.seqFrom done ps c) := by
  -- for every count of the parts before, as the count goes up along the list
  induction ps generalizing done c with
  | nil => exact hP.bind (hP.trace _ _ _) fun _ => hP.pure _
  | cons p ps ih =>
    refine hP.bind (h p List.mem_cons_self c) fun outcome => ?_
    cases outcome with
    | failure => exact hP.bind (hP.trace _ _ _) fun _ => hP.pure _
    | success next v =>
      have hrest : P (Action.seqFrom (done + 1) ps next) :=
        ih (fun q hq => h q (List.mem_cons_of_mem p hq)) (done + 1) next
      exact hP.bind hrest fun _ => hP.pure _

/-- A literal is a sequence of `Action.char`, followed by one record. -/
theorem str (hP : Closed P) (text : String) (c : Cursor) : P (Action.str text c) := by
  have hchars : ∀ p ∈ text.toList.map Action.char, ∀ c, P (p c) := by
    intro p hp
    rcases List.mem_map.1 hp with ⟨ch, -, rfl⟩
    exact hP.readIf _ _
  exact hP.bind (hP.seqFrom hchars 0 c) fun _ => hP.bind (hP.trace _ _ _) fun _ => hP.pure _

theorem map (hP : Closed P) {p : Action α} (hp : ∀ c, P (p c)) (f : α → Callback β) (c : Cursor) :
    P (p.map f c) := by
  refine hP.bind (hp c) fun outcome => ?_
  cases outcome with
  | failure => exact hP.pure _
  | success next v => exact hP.bind (hP.call _) fun _ => hP.pure _

/-- The right side starts from the same cursor, after one record. -/
theorem or (hP : Closed P) {left right : Action α} (hl : ∀ c, P (left c)) (hr : ∀ c, P (right c))
    (c : Cursor) : P (left.or right c) := by
  refine hP.bind (hl c) fun outcome => ?_
  cases outcome with
  | failure => exact hP.bind (hP.trace _ _ _) fun _ => hr c
  | success next v => exact hP.pure _

theorem option (hP : Closed P) {p : Action α} (hp : ∀ c, P (p c)) (c : Cursor) : P (p.option c) := by
  refine hP.bind (hP.or (hP.map hp _) (fun _ => hP.pure _) c) fun outcome => ?_
  cases outcome with
  -- out of reach, since the second alternative always matches, but an effect all the same
  | failure => exact hP.panic _
  | success next v => exact hP.pure _

/-- Induction on fuel; the loop adds no effect of its own except running out. -/
theorem many (hP : Closed P) {p : Action α} (hp : ∀ c, P (p c)) (fuel : Nat) (c : Cursor) :
    P (Action.many p fuel c) := by
  induction fuel generalizing c with
  | zero => exact hP.exhausted
  | succ fuel ih =>
    refine hP.bind (hp c) fun outcome => ?_
    cases outcome with
    | failure => exact hP.pure _
    | success next v => exact hP.bind (ih next) fun _ => hP.pure _

theorem plus (hP : Closed P) {p : Action α} (hp : ∀ c, P (p c)) (fuel : Nat) (c : Cursor) :
    P (p.plus fuel c) := by
  refine hP.bind (hP.trace _ _ _) fun _ => hP.bind (hp c) fun outcome => ?_
  cases outcome with
  | failure => exact hP.bind (hP.trace _ _ _) fun _ => hP.pure _
  | success next v =>
    exact hP.bind (hP.many hp fuel next) fun _ => hP.bind (hP.trace _ _ _) fun _ => hP.pure _

/-- The sequel may depend on the value, so the property is asked of `next v` for every `v`. -/
theorem chain (hP : Closed P) {p : Action α} (hp : ∀ c, P (p c)) (effect : α → Callback Unit)
    {next : α → Action β} (hnext : ∀ v c, P (next v c)) (c : Cursor) :
    P (p.chain effect next c) := by
  refine hP.bind (hp c) fun outcome => ?_
  cases outcome with
  | failure => exact hP.pure _
  | success after v => exact hP.bind (hP.call _) fun _ => hnext v after

/-! ## Parsers and grammars -/

/-- Structural induction on the parser, over rules that have the property. The cases without parts
are the effects themselves. -/
theorem eval (hP : Closed P) (fuel : Nat) {rules : {α : Type} → R α → Action α}
    (hrules : ∀ {α : Type} (r : R α) (c : Cursor), P (rules r c)) (p : Parser R α) :
    ∀ c, P (p.eval fuel rules c) := by
  induction p with
  | ok | succeed => exact fun c => hP.pure _
  | endOfInput => exact fun c => hP.bind (hP.trace _ _ _) fun _ => hP.pure _
  | like | char | oneOf => exact hP.readIf _ _
  | str text => exact hP.str text
  | succeedWith make => exact fun c => hP.bind (hP.call _) fun _ => hP.pure _
  | seqOf n items ih =>
    refine hP.seqFrom (fun p hp => ?_) 0
    rcases List.mem_ofFn.1 hp with ⟨i, rfl⟩
    exact ih i
  | or left right ihl ihr => exact hP.or ihl ihr
  | star p ih =>
    exact fun c => hP.bind (hP.trace _ _ _) fun _ => hP.bind (hP.many ih fuel c) fun _ =>
      hP.bind (hP.trace _ _ _) fun _ => hP.pure _
  | plus p ih => exact hP.plus ih fuel
  | option p ih => exact hP.option ih
  | chain p effect next ihp ihn => exact hP.chain ihp effect ihn
  | map p f ih => exact hP.map ih f
  | named label p ih => exact fun c => hP.withLabel _ (hP.bind (hP.trace _ _ _) fun _ => ih c)
  | boxed p ih => exact ih
  | deferred factory p ih => exact fun c => hP.bind (hP.build factory) fun _ => ih c
  | rule r => exact hrules r
  | closure f => exact fun c => hP.call _
  -- the function's choice decides only where, and with which of the sequels, to go on
  | inspect p choose next ihp ihn =>
    exact fun c => hP.bind (ihp c) fun _ => hP.bind (hP.call _) fun chosen => ihn chosen.2 chosen.1

/-- Rules are tied by induction on fuel; at fuel zero a call is `exhausted`. -/
theorem run (hP : Closed P) (g : Grammar R) (fuel : Nat) (p : Parser R α) (c : Cursor) :
    P (g.run fuel p c) := by
  have hcall : ∀ (n : Nat) {α : Type} (r : R α) (c : Cursor), P (g.call n r c) := by
    intro n
    induction n with
    | zero => exact fun _ _ => hP.exhausted
    | succ n ih => exact fun r => hP.eval n (fun r c => ih r c) _
  exact hP.eval fuel (fun r c => hcall fuel r c) p c

/-- A whole parse also writes debug records, which `Closed` does not cover. -/
theorem parse (hP : Closed P) (hwrite : ∀ record, P (write record)) (g : Grammar R)
    (p : Parser R α) (text : String) : P (g.parse p text) := by
  have hstart : P (start text) := hP.bind (hP.trace _ _ _) fun _ => hP.pure _
  refine hP.bind hstart fun c => hP.bind (hwrite _) fun _ => ?_
  exact hP.bind (hP.run g _ p c) fun _ => hP.bind (hwrite _) fun _ => hP.pure _

end Closed

/-! ## The label in force -/

/-- The run is the one under `inner`, with the label component replaced by the outer label. -/
theorem withLabel_apply (inner : String) (m : Engine α) (level : Trace.Level) (label : String) :
    withLabel inner m level label =
      ⟨(m level inner).ending, label, (m level inner).journal⟩ := by
  show (⟨(m level inner).ending, label, [] ++ ([] ++ ((m level inner).journal ++ []))⟩ : Step α) = _
  simp only [List.nil_append, List.append_nil]

/-- The run leaves the label in force that it found, whatever its ending. -/
def Steady (m : Engine α) : Prop :=
  ∀ level label, (m level label).label = label

/-- The label that the first run leaves is the one that the second finds. -/
theorem Steady.bind {m : Engine α} {f : α → Engine β} (hm : m.Steady) (hf : ∀ a, (f a).Steady) :
    (m >>= f).Steady := by
  intro level label
  show (Engine.bind m f level label).label = label
  unfold Engine.bind
  have hfirst := hm level label
  generalize m level label = step at hfirst ⊢
  rcases step with ⟨a | p | _, middle, journal⟩
  · exact (hf a level middle).trans hfirst
  · exact hfirst
  · exact hfirst

/-- Calls have no access to the label. -/
theorem steady_callAs (entry : String → Trace.Entry) (callback : Callback α) :
    (callAs entry callback).Steady := by
  rcases callback with ⟨events, fault | a⟩
  · exact fun _ _ => rfl
  · exact fun _ _ => rfl

/-- Every effect leaves the label alone, except `withLabel`, which restores it. -/
theorem closed_steady : Closed Steady where
  pure _ _ _ := rfl
  bind := .bind
  trace _ _ _ _ _ := rfl
  build := steady_callAs _
  call := steady_callAs _
  panic _ _ _ := rfl
  exhausted _ _ := rfl
  -- cleaning up puts the outer label back, so nothing is asked of the run in between
  withLabel _ _ _ _ _ := rfl

end Engine

/-- After every run, whatever its ending, the label is the one from before. -/
theorem Grammar.label_run (g : Grammar R) (fuel : Nat) (p : Parser R α) (c : Cursor)
    (level : Trace.Level) (label : String) : (g.run fuel p c level label).label = label :=
  Engine.closed_steady.run g fuel p c level label

theorem Grammar.steady_parse (g : Grammar R) (p : Parser R α) (text : String) :
    (g.parse p text).Steady :=
  Engine.closed_steady.parse (fun _ _ _ => rfl) g p text

end ParserCombinators
