import ParserCombinators.Proofs.Endings
import ParserCombinators.Proofs.Positions

/-!
# Erasure — labels, boxes, deferral and records leave results alone

A parser may be named, boxed or deferred in any of its parts. Taking all of this away changes
neither how a run ends nor which functions of users it calls, at no level and under no label; only
the records tell the difference, and the events of factories. The levels themselves differ by the
records that they keep, and by nothing else.

- `Parser.erase`, `Grammar.erase`: parsers and grammars without wrappers, with `Parser.Bare`; of a
  deferred parser whose factory raises a fault, the fault is left
- `Engine.Indistinct`: two runs that end in the same way after the same calls, at any levels and
  labels
- `Grammar.indistinct_run`: a parser and what is left of it
- `Engine.Leveled`: at a lower level, a run is the same run with fewer records
- `Grammar.records_parse_debug`: what a whole parse records at the lower of the two levels
- `Grammar.wrappers_are_unobservable`: all of this together
-/

namespace ParserCombinators

variable {R : Type → Type} {α β : Type}

/-! ## Taking wrappers away -/

namespace Parser

/-- What a factory hands over: the parser that it builds, or a fault and no parser. -/
def handedOver (factory : Callback Unit) (p : Parser R α) : Parser R α :=
  match factory.result with
  | .ok _ => p
  | .error fault => .succeedWith (Callback.raise fault)

/-- The parser without labels, boxes and deferral, in all its parts and in all parsers that
functions choose. A reference to a rule stays one, so that rules are unfolded when they are
called. -/
def erase : {α : Type} → Parser R α → Parser R α
  | _, .named _ p => p.erase
  | _, .boxed p => p.erase
  | _, .deferred factory p => handedOver factory p.erase
  | _, .seqOf n items => .seqOf n fun i => (items i).erase
  | _, .or left right => .or left.erase right.erase
  | _, .star p => .star p.erase
  | _, .plus p => .plus p.erase
  | _, .option p => .option p.erase
  | _, .chain p effect next => .chain p.erase effect fun v => (next v).erase
  | _, .map p f => .map p.erase f
  | _, .inspect p choose next => .inspect p.erase choose fun v => (next v).erase
  | _, .ok => .ok
  | _, .endOfInput => .endOfInput
  | _, .like accepts => .like accepts
  | _, .char c => .char c
  | _, .oneOf set => .oneOf set
  | _, .str text => .str text
  | _, .succeed value => .succeed value
  | _, .succeedWith make => .succeedWith make
  | _, .rule r => .rule r
  | _, .closure f => .closure f

def Bare : {α : Type} → Parser R α → Prop
  | _, .named _ _ | _, .boxed _ | _, .deferred _ _ => False
  | _, .seqOf n items => ∀ i : Fin n, (items i).Bare
  | _, .or left right => left.Bare ∧ right.Bare
  | _, .star p | _, .plus p | _, .option p | _, .map p _ => p.Bare
  | _, .chain p _ next => p.Bare ∧ ∀ v, (next v).Bare
  | _, .inspect p _ next => p.Bare ∧ ∀ v, (next v).Bare
  | _, .ok | _, .endOfInput | _, .like _ | _, .char _ | _, .oneOf _ | _, .str _ => True
  | _, .succeed _ | _, .succeedWith _ | _, .rule _ | _, .closure _ => True

/-- `erase` reaches every depth. Induction on the parser; a factory that raises leaves
`succeedWith`, which is bare. -/
theorem bare_erase (p : Parser R α) : p.erase.Bare := by
  induction p with
  | ok | endOfInput | like | char | oneOf | str | succeed | succeedWith | rule | closure => trivial
  | seqOf n items ih => exact ih
  | or left right ihl ihr => exact ⟨ihl, ihr⟩
  | star p ih | plus p ih | option p ih | map p f ih => exact ih
  | named label p ih | boxed p ih => exact ih
  | deferred factory p ih =>
    rcases factory with ⟨events, fault | _⟩
    · trivial
    · exact ih
  | chain p effect next ihp ihn => exact ⟨ihp, ihn⟩
  | inspect p choose next ihp ihn => exact ⟨ihp, ihn⟩

end Parser

def Grammar.erase (g : Grammar R) : Grammar R where
  size := g.size
  body r := (g.body r).erase

/-! ## Runs that cannot be told apart by their results -/

namespace Engine

/-- At any levels, and under any labels, the two runs end in the same way and call the same
functions of users in the same order, the factories of deferred parsers aside. -/
structure Indistinct (m m' : Engine α) : Prop where
  ending_eq : ∀ level label level' label', (m level label).ending = (m' level' label').ending
  calls_eq : ∀ level label level' label',
    (m level label).journal.calls = (m' level' label').journal.calls

namespace Indistinct

/-- The relation is symmetric; it is not reflexive for runs that read the level or the label. -/
protected theorem symm {m m' : Engine α} (h : m.Indistinct m') : m'.Indistinct m :=
  ⟨fun level label level' label' => (h.ending_eq level' label' level label).symm,
    fun level label level' label' => (h.calls_eq level' label' level label).symm⟩

/-- Indistinct runs with indistinct sequels are indistinct, also if they leave different labels
behind. -/
protected theorem bind {m m' : Engine α} {f f' : α → Engine β} (hm : m.Indistinct m')
    (hf : ∀ a, (f a).Indistinct (f' a)) : (m >>= f).Indistinct (m' >>= f') := by
  have hboth : ∀ level label level' label',
      (Engine.bind m f level label).ending = (Engine.bind m' f' level' label').ending ∧
      (Engine.bind m f level label).journal.calls =
        (Engine.bind m' f' level' label').journal.calls := by
    intro level label level' label'
    have hending := hm.ending_eq level label level' label'
    have hcalls := hm.calls_eq level label level' label'
    unfold Engine.bind
    generalize m level label = step at hending hcalls ⊢
    generalize m' level' label' = step' at hending hcalls ⊢
    rcases step with ⟨e, middle, journal⟩
    rcases step' with ⟨e', middle', journal'⟩
    cases hending
    cases e with
    | returned a =>
      -- the two sequels may begin under different labels
      have hlater := (hf a).calls_eq level middle level' middle'
      refine ⟨(hf a).ending_eq level middle level' middle', ?_⟩
      show Journal.calls (journal ++ (f a level middle).journal) =
        Journal.calls (journal' ++ (f' a level' middle').journal)
      rw [Journal.calls_append, Journal.calls_append, hcalls, hlater]
    | panicked | exhausted => exact ⟨rfl, hcalls⟩
  exact ⟨fun level label level' label' => (hboth level label level' label').1,
    fun level label level' label' => (hboth level label level' label').2⟩

/-- A label may be put around one side only. -/
theorem withLabel (inner : String) {m m' : Engine α} (h : m.Indistinct m') :
    (Engine.withLabel inner m).Indistinct m' := by
  constructor
  · intro level label
    rw [withLabel_apply]
    exact h.ending_eq level inner
  · intro level label
    rw [withLabel_apply]
    exact h.calls_eq level inner

protected theorem pure (a : α) : (pure a : Engine α).Indistinct (pure a) :=
  ⟨fun _ _ _ _ => rfl, fun _ _ _ _ => rfl⟩

/-- Records are no calls. -/
theorem calls_write (record : Trace.Record) (level : Trace.Level) (label : String) :
    (Engine.write record level label).journal.calls = [] := by
  show Journal.calls (if level.keeps record.severity then [.record record] else []) = []
  cases level.keeps record.severity with
  | false => rfl
  | true => rfl

protected theorem write (record : Trace.Record) : (write record).Indistinct (write record) where
  ending_eq _ _ _ _ := rfl
  calls_eq level label level' label' := by rw [calls_write, calls_write]

/-- A step record is written or not, and is no call in either case. -/
theorem calls_trace (c : Cursor) (op : Trace.Operation) (note : Trace.Note) (level : Trace.Level)
    (label : String) : (Engine.trace c op note level label).journal.calls = [] :=
  calls_write _ level label

protected theorem trace (c : Cursor) (op : Trace.Operation) (note : Trace.Note) :
    (trace c op note).Indistinct (trace c op note) where
  ending_eq _ _ _ _ := rfl
  calls_eq level label level' label' := by rw [calls_trace, calls_trace]

/-- The events of a call do not depend on the level. -/
protected theorem call (callback : Callback α) : (call callback).Indistinct (call callback) := by
  rcases callback with ⟨events, fault | a⟩
  · exact ⟨fun _ _ _ _ => rfl, fun _ _ _ _ => rfl⟩
  · exact ⟨fun _ _ _ _ => rfl, fun _ _ _ _ => rfl⟩

/-- A step record may stand before one side only. -/
theorem trace_bind (c : Cursor) (op : Trace.Operation) (note : Trace.Note) {m m' : Engine α}
    (h : m.Indistinct m') : (Engine.trace c op note >>= fun _ => m).Indistinct m' where
  ending_eq := h.ending_eq
  calls_eq level label level' label' := by
    show Journal.calls ((Engine.trace c op note level label).journal ++ (m level label).journal) = _
    rw [Journal.calls_append, calls_trace, List.nil_append]
    exact h.calls_eq level label level' label'

/-- The events of a factory are entered as `.built`, which `calls` leaves out. -/
theorem calls_build (factory : Callback Unit) (level : Trace.Level) (label : String) :
    (build factory level label).journal.calls = [] := by
  have hevents : ∀ events : List String, Journal.calls (events.map .built) = [] := by
    simp [Journal.calls, Trace.Entry.call?]
  rcases factory with ⟨events, fault | _⟩
  · exact hevents events
  · exact hevents events

/-- A factory that returns may be called on one side only. -/
theorem build_bind (events : List String) {m m' : Engine α} (h : m.Indistinct m') :
    (build ⟨events, .ok ()⟩ >>= fun _ => m).Indistinct m' where
  ending_eq := h.ending_eq
  calls_eq level label level' label' := by
    show Journal.calls ((build ⟨events, .ok ()⟩ level label).journal ++ (m level label).journal) = _
    rw [Journal.calls_append, calls_build, List.nil_append]
    exact h.calls_eq level label level' label'

/-- A factory that raises cannot be told apart from the fault alone, which is what `handedOver`
leaves of it. -/
theorem build_raises (events : List String) (fault : Fault) (f : Unit → Engine α)
    (f' : β → Engine α) :
    (build ⟨events, .error fault⟩ >>= f).Indistinct (call (Callback.raise fault) >>= f') where
  ending_eq _ _ _ _ := rfl
  calls_eq level label _ _ := calls_build ⟨events, .error fault⟩ level label

end Indistinct

/-- Runs of parsers are indistinct from themselves, at two levels and under two labels. -/
theorem closed_indistinct : Closed fun {α} (m : Engine α) => m.Indistinct m where
  pure := .pure
  bind := .bind
  trace := .trace
  build := by
    rintro ⟨events, fault | _⟩
    · exact ⟨fun _ _ _ _ => rfl, fun _ _ _ _ => rfl⟩
    · exact ⟨fun _ _ _ _ => rfl, fun _ _ _ _ => rfl⟩
  call := .call
  panic _ := ⟨fun _ _ _ _ => rfl, fun _ _ _ _ => rfl⟩
  exhausted := ⟨fun _ _ _ _ => rfl, fun _ _ _ _ => rfl⟩
  withLabel inner _ h := (h.withLabel inner).symm.withLabel inner

end Engine

open Engine

/-! ## A parser and what is left of it -/

namespace Action

/-- Two loops over indistinct actions. Induction on fuel, for every cursor. -/
theorem indistinct_many {p p' : Action α} (h : ∀ c, (p c).Indistinct (p' c)) (fuel : Nat)
    (c : Cursor) : (many p fuel c).Indistinct (many p' fuel c) := by
  induction fuel generalizing c with
  | zero => exact closed_indistinct.exhausted
  | succ fuel ih =>
    refine .bind (h c) fun outcome => ?_
    cases outcome with
    | failure => exact .pure _
    | success next v => exact .bind (ih next) fun _ => .pure _

/-- Two sequences of indistinct parts. Induction on their number. -/
theorem indistinct_seqFrom {n : Nat} (done : Nat) {p p' : Fin n → Action α}
    (h : ∀ i c, (p i c).Indistinct (p' i c)) (c : Cursor) :
    (seqFrom done (List.ofFn p) c).Indistinct (seqFrom done (List.ofFn p') c) := by
  induction n generalizing done c with
  | zero =>
    simp only [List.ofFn_zero]
    exact .bind (.trace _ _ _) fun _ => .pure _
  | succ n ih =>
    simp only [List.ofFn_succ]
    refine .bind (h 0 c) fun outcome => ?_
    cases outcome with
    | failure => exact .bind (.trace _ _ _) fun _ => .pure _
    | success next v => exact .bind (ih (done + 1) (fun i => h i.succ) next) fun _ => .pure _

end Action

/-- A parser and its erasure, over rules that are related in the same way. Induction on the parser;
the cases of the wrappers drop one side. -/
theorem Parser.indistinct_eval {fuel : Nat} {rules rules' : {α : Type} → R α → Action α}
    (hrules : ∀ {α : Type} (r : R α) (c : Cursor), (rules r c).Indistinct (rules' r c))
    (p : Parser R α) : ∀ c, (p.eval fuel rules c).Indistinct (p.erase.eval fuel rules' c) := by
  induction p with
  | ok | succeed => exact fun c => .pure _
  | endOfInput => exact fun c => .bind (.trace _ _ _) fun _ => .pure _
  | like | char | oneOf => exact closed_indistinct.readIf _ _
  | str text => exact closed_indistinct.str text
  | succeedWith make => exact fun c => .bind (.call _) fun _ => .pure _
  | seqOf n items ih => exact Action.indistinct_seqFrom 0 ih
  | or left right ihl ihr =>
    intro c
    refine .bind (ihl c) fun outcome => ?_
    cases outcome with
    | failure => exact .bind (.trace _ _ _) fun _ => ihr c
    | success next v => exact .pure _
  | star p ih =>
    intro c
    refine .bind (.trace _ _ _) fun _ => .bind (Action.indistinct_many ih fuel c) fun _ => ?_
    exact .bind (.trace _ _ _) fun _ => .pure _
  | plus p ih =>
    intro c
    refine .bind (.trace _ _ _) fun _ => .bind (ih c) fun outcome => ?_
    cases outcome with
    | failure => exact .bind (.trace _ _ _) fun _ => .pure _
    | success next v =>
      refine .bind (Action.indistinct_many ih fuel next) fun _ => ?_
      exact .bind (.trace _ _ _) fun _ => .pure _
  | option p ih =>
    intro c
    simp only [Parser.eval, Parser.erase, Action.option_eq]
    refine .bind (ih c) fun outcome => ?_
    cases outcome with
    | failure => exact .bind (.trace _ _ _) fun _ => .pure _
    | success next v => exact .pure _
  | chain p effect next ihp ihn =>
    intro c
    refine .bind (ihp c) fun outcome => ?_
    cases outcome with
    | failure => exact .pure _
    | success after v => exact .bind (.call _) fun _ => ihn v after
  | map p f ih =>
    intro c
    refine .bind (ih c) fun outcome => ?_
    cases outcome with
    | failure => exact .pure _
    | success next v => exact .bind (.call _) fun _ => .pure _
  | named label p ih => exact fun c => .withLabel label (.trace_bind _ _ _ (ih c))
  | boxed p ih => exact ih
  -- a factory that returns is passed over, one that raises has left its fault
  | deferred factory p ih =>
    intro c
    rcases factory with ⟨events, fault | _⟩
    · exact .build_raises events fault _ _
    · exact .build_bind events (ih c)
  | rule r => exact hrules r
  | closure f => exact fun c => .call _
  | inspect p choose next ihp ihn =>
    exact fun c => .bind (ihp c) fun _ => .bind (.call _) fun chosen => ihn chosen.2 chosen.1

namespace Grammar

variable (g : Grammar R)

/-- Rules and their erased bodies. Induction on fuel. -/
theorem indistinct_call (fuel : Nat) (r : R α) (c : Cursor) :
    (g.call fuel r c).Indistinct (g.erase.call fuel r c) := by
  induction fuel generalizing α c with
  | zero => exact closed_indistinct.exhausted
  | succ fuel ih => exact Parser.indistinct_eval (fun r c => ih r c) (g.body r) c

theorem indistinct_run (fuel : Nat) (p : Parser R α) (c : Cursor) :
    (g.run fuel p c).Indistinct (g.erase.run fuel p.erase c) :=
  Parser.indistinct_eval (fun r c => g.indistinct_call fuel r c) p c

/-- Whole parses write the same records around the run, and records are no calls. -/
theorem indistinct_parse (p : Parser R α) (text : String) :
    (g.parse p text).Indistinct (g.erase.parse p.erase text) := by
  refine .bind (.bind (.trace _ _ _) fun _ => .pure _) fun c => .bind (.write _) fun _ => ?_
  refine .bind (g.indistinct_run _ p c) fun outcome => ?_
  exact .bind (.write _) fun _ => .pure _

end Grammar

/-! ## Levels -/

namespace Journal

def keptAt (level : Trace.Level) (journal : Journal) : Journal :=
  journal.filter fun
    | .record r => level.keeps r.severity
    | .event _ | .built _ => true

/-- Journals are filtered entry by entry. -/
theorem keptAt_append (level : Trace.Level) (j k : Journal) :
    keptAt level (j ++ k) = keptAt level j ++ keptAt level k :=
  List.filter_append j k

/-- Every level keeps what is not a record. -/
theorem keptAt_map {entry : String → Trace.Entry} (h : ∀ e, (entry e).record? = none)
    (level : Trace.Level) (events : List String) :
    keptAt level (events.map entry) = events.map entry := by
  unfold keptAt
  rw [List.filter_eq_self]
  intro x hx
  rcases List.mem_map.1 hx with ⟨e, -, rfl⟩
  cases hentry : entry e with
  | record r =>
    have hnone := h e
    rw [hentry] at hnone
    cases hnone
  | event | built => rfl

/-- Filtering the journal is filtering its records. -/
theorem records_keptAt (level : Trace.Level) (journal : Journal) :
    records (keptAt level journal) = (records journal).filter fun r => level.keeps r.severity := by
  induction journal with
  | nil => rfl
  | cons entry journal ih =>
    cases entry with
    | record r =>
      cases hkept : level.keeps r.severity with
      | false => simpa [keptAt, records, Trace.Entry.record?, hkept] using ih
      | true => simpa [keptAt, records, Trace.Entry.record?, hkept] using ih
    | event e => exact ih
    | built e => exact ih

end Journal

namespace Engine

/-- At every level, the run is the run at the highest level, less the records that the level does
not keep. -/
def Leveled (m : Engine α) : Prop :=
  ∀ level label, m level label =
    ⟨(m .trace label).ending, (m .trace label).label, (m .trace label).journal.keptAt level⟩

namespace Leveled

/-- Leveled runs compose: the value that `m` returns and the label it leaves are those at the
highest level. -/
protected theorem bind {m : Engine α} {f : α → Engine β} (hm : m.Leveled)
    (hf : ∀ a, (f a).Leveled) : (m >>= f).Leveled := by
  intro level label
  show Engine.bind m f level label = ⟨(Engine.bind m f .trace label).ending,
    (Engine.bind m f .trace label).label, (Engine.bind m f .trace label).journal.keptAt level⟩
  unfold Engine.bind
  rw [hm level label]
  rcases m .trace label with ⟨a | panic | _, middle, journal⟩
  · simp only [hf a level middle, Journal.keptAt_append]
  · rfl
  · rfl

protected theorem pure (a : α) : (pure a : Engine α).Leveled :=
  fun _ _ => rfl

protected theorem write (record : Trace.Record) : (write record).Leveled := by
  intro level label
  cases level <;> cases record <;> rfl

/-- Calls enter no records, so every level keeps all of a call. -/
protected theorem callAs {entry : String → Trace.Entry} (h : ∀ e, (entry e).record? = none)
    (callback : Callback α) : (callAs entry callback).Leveled := by
  rcases callback with ⟨events, fault | a⟩
  · exact fun level _ => congrArg (Step.mk _ _) (Journal.keptAt_map h level events).symm
  · exact fun level _ => congrArg (Step.mk _ _) (Journal.keptAt_map h level events).symm

end Leveled

/-- Records are the only effect that looks at the level. -/
theorem closed_leveled : Closed Leveled where
  pure := .pure
  bind := .bind
  trace c op note := fun level label => Leveled.write (.step c.rest label op note) level label
  build := .callAs fun _ => rfl
  call := .callAs fun _ => rfl
  panic _ _ _ := rfl
  exhausted _ _ := rfl
  withLabel inner m h := by
    intro level label
    rw [withLabel_apply, withLabel_apply, h level inner]

def Silent (m : Engine α) : Prop :=
  ∀ label, (m .debug label).journal.records = []

theorem silent_callAs {entry : String → Trace.Entry} (h : ∀ e, (entry e).record? = none)
    (callback : Callback α) : (callAs entry callback).Silent := by
  rcases callback with ⟨events, fault | a⟩
  · exact fun _ => Journal.records_map_eq_nil h events
  · exact fun _ => Journal.records_map_eq_nil h events

/-- Parsers write step records only, and `.debug` keeps none of these. -/
theorem closed_silent : Closed Silent where
  pure _ _ := rfl
  -- the journals of both halves are empty of records, so their concatenation is
  bind := by
    intro α β m f hm hf label
    show (Engine.bind m f .debug label).journal.records = []
    unfold Engine.bind
    have hfirst := hm label
    generalize m .debug label = step at hfirst ⊢
    rcases step with ⟨a | panic | _, middle, journal⟩
    · show Journal.records (journal ++ (f a .debug middle).journal) = []
      rw [Journal.records_append, hf a middle, List.append_nil]
      exact hfirst
    · exact hfirst
    · exact hfirst
  trace _ _ _ _ := rfl
  build := silent_callAs fun _ => rfl
  call := silent_callAs fun _ => rfl
  panic _ _ := rfl
  exhausted _ := rfl
  withLabel inner m h := by
    intro label
    rw [withLabel_apply]
    exact h inner

end Engine

namespace Grammar

variable (g : Grammar R)

/-- The debug records of a parse are filtered in the same way as those of steps. -/
theorem leveled_parse (p : Parser R α) (text : String) : (g.parse p text).Leveled :=
  closed_leveled.parse .write g p text

/-- The records with which a parse closes: one that says what came of it, unless a panic cut it
short. -/
def closingRecords : Ending (Outcome α) → List Trace.Record
  | .returned .failure => [.failed]
  | .returned (.success c _) => [.matched c.remaining.utf8ByteSize]
  | .panicked _ | .exhausted => []

/-- Behind a run, a parse records what came of it and nothing else. -/
theorem records_run_then_verdict (p : Parser R α) (c : Cursor) (label : String) :
    ((g.runAt p c >>= fun outcome => do
      Engine.write (verdict outcome)
      pure outcome) .debug label).journal.records =
    closingRecords ((g.runAt p c >>= fun outcome => do
      Engine.write (verdict outcome)
      pure outcome) .debug label).ending := by
  have hsilent : (g.runAt p c .debug label).journal.records = [] := closed_silent.run g _ p c label
  show Journal.records (Engine.bind _ _ _ _).journal = closingRecords (Engine.bind _ _ _ _).ending
  unfold Engine.bind
  -- the run itself is silent, so only its ending matters
  generalize g.runAt p c .debug label = step at hsilent ⊢
  rcases step with ⟨(_ | ⟨c', v⟩) | panic | _, last, journal⟩
  · show Journal.records (journal ++ [.record .failed]) = [.failed]
    rw [Journal.records_append, hsilent]
    rfl
  · show Journal.records (journal ++ [.record (.matched (Text.byteSize c'.rest))]) =
      [.matched (String.ofList c'.rest).utf8ByteSize]
    rw [Journal.records_append, hsilent, Text.utf8ByteSize_ofList]
    rfl
  · exact hsilent
  · exact hsilent

/-- At `.debug` a parse records its start and its closing, and nothing of the run between them. -/
theorem records_parse_debug (p : Parser R α) (text : String) (label : String) :
    (g.parse p text .debug label).journal.records =
      .started text.utf8ByteSize :: closingRecords (g.parse p text .debug label).ending := by
  have hlater := g.records_run_then_verdict p (.ofText text) label
  rw [← Text.byteSize_toList]
  exact congrArg (Trace.Record.started (Text.byteSize text.toList) :: ·) hlater

/-- A parser and what is left of it without its wrappers, over the rules and what is left of them,
end in the same way after the same calls, at all levels and under all labels, run by run and parse
by parse. At the lower level a whole parse records that it began and, if it was not cut short, what
came of it; these are the records of the higher level without those of steps. -/
theorem wrappers_are_unobservable (p : Parser R α) :
    (p.erase.Bare ∧ ∀ {β : Type} (r : R β), (g.erase.body r).Bare) ∧
    (∀ fuel c, (g.run fuel p c).Indistinct (g.erase.run fuel p.erase c)) ∧
    (∀ text, (g.parse p text).Indistinct (g.erase.parse p.erase text)) ∧
    ∀ text label,
      (g.parse p text .debug label).journal.records =
        .started text.utf8ByteSize :: closingRecords (g.parse p text .debug label).ending ∧
      (g.parse p text .debug label).journal.records =
        (g.parse p text .trace label).journal.records.filter fun r => r.severity ≠ .trace := by
  refine ⟨⟨p.bare_erase, fun r => (g.body r).bare_erase⟩, fun fuel c => g.indistinct_run fuel p c,
    g.indistinct_parse p, fun text label => ⟨g.records_parse_debug p text label, ?_⟩⟩
  rw [g.leveled_parse p text .debug label, Journal.records_keptAt]
  refine List.filter_congr fun r _ => ?_
  cases r <;> rfl

end Grammar

end ParserCombinators
