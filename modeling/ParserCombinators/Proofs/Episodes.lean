import ParserCombinators.Proofs.Equations

/-!
# Episodes — the trace is well bracketed and truthful

Readers of one character and repetitions write a record when they begin and another when they are
over. The runs of these parsers inside a run make up a forest: which of them are run follows from
how the parsers before them ended, and what comes of each is how it ends on its own. The trace is
this forest written out from left to right. So a run that returns leaves an opening and a closing
for each of them, properly nested, and the closing says what came of that very run. A run that is
cut short leaves the start of such a sequence, and the openings without a closing are those of the
parsers that were running.

- `Trace.Mark`, `Journal.marks`: the openings and closings in a journal
- `Trace.Nested`, `Trace.Unclosed`: nested sequences, and sequences that are cut short
- `Episode`: a run of such a parser with the runs inside it; `Episode.marksOfAll` writes them out,
  `Episode.activeOfAll` finds those that did not come to an end
- `Parser.episodes`, `Grammar.episodes`: the episodes of a run, by how its parts end
- `Engine.Tells`: a run whose journal holds the marks of given episodes
- `Grammar.trace_is_bracketed`: every run of every parser is one
-/

namespace ParserCombinators

variable {R : Type → Type} {α β : Type}

/-! ## Openings and closings -/

namespace Trace

namespace Operation

def isPaired : Operation → Bool
  | .like | .char _ | .oneOf _ | .star _ | .plus _ => true
  | .start | .str _ | .endOfInput | .seq _ | .choice | .named _ => false

/-- Does the operation run code of the user's: a predicate, or any parser at all? -/
def runsUserCode : Operation → Bool
  | .like | .star _ | .plus _ => true
  | .start | .char _ | .oneOf _ | .str _ | .endOfInput | .seq _ | .choice | .named _ => false

def counted : Operation → Option Nat → Operation
  | .star _, count => .star count
  | .plus _, count => .plus count
  | op, _ => op

end Operation

structure Mark where
  op : Operation
  note : Note
  deriving DecidableEq, Repr

/-- The mark ends what the operation began: it is of the same operation, whatever its number. -/
def Mark.Closes (mark : Mark) (op : Operation) : Prop :=
  mark.note ≠ .opened ∧ mark.op.counted none = op.counted none

def Record.mark? : Record → Option Mark
  | .step _ _ op note => if op.isPaired then some ⟨op, note⟩ else none
  | .started _ | .matched _ | .failed => none

/-- Each opening is followed by one closing of the same operation, and what is between the two is
nested as well. -/
inductive Nested : List Mark → Prop
  | nil : Nested []
  | pair {op : Operation} {closing : Mark} {inside after : List Mark} (hcloses : closing.Closes op)
      (hinside : Nested inside) (hafter : Nested after) :
      Nested (⟨op, .opened⟩ :: inside ++ closing :: after)

/-- Nested but for some openings that have no closing yet, the outermost first. -/
inductive Unclosed : List Mark → List Operation → Prop
  | nested {marks : List Mark} (h : Nested marks) : Unclosed marks []
  | opened {op : Operation} {before inside : List Mark} {ops : List Operation}
      (hbefore : Nested before) (hinside : Unclosed inside ops) :
      Unclosed (before ++ ⟨op, .opened⟩ :: inside) (op :: ops)

/-- Nesting is closed under concatenation. Induction on the first sequence. -/
theorem Nested.append {marks marks' : List Mark} (h : Nested marks) (h' : Nested marks') :
    Nested (marks ++ marks') := by
  induction h with
  | nil => exact h'
  | pair hcloses hinside _ _ ih =>
    rw [List.append_assoc, List.cons_append]
    exact .pair hcloses hinside ih

/-- What is nested may stand before; it adds no opening. -/
theorem Nested.append_unclosed {marks marks' : List Mark} {ops : List Operation} (h : Nested marks)
    (h' : Unclosed marks' ops) : Unclosed (marks ++ marks') ops := by
  cases h' with
  | nested h' => exact .nested (h.append h')
  | opened hbefore hinside =>
    rw [← List.append_assoc]
    exact .opened (h.append hbefore) hinside

/-- What is cut short is the start of a nested sequence. Induction from the innermost opening
outwards: each is closed by a mark of its own operation. -/
theorem Unclosed.exists_nested {marks : List Mark} {ops : List Operation} (h : Unclosed marks ops) :
    ∃ later, Nested (marks ++ later) := by
  induction h with
  | nested h => exact ⟨[], by simpa using h⟩
  | @opened op before inside ops hbefore _ ih =>
    -- what is inside is closed first, and then this opening
    rcases ih with ⟨later, hlater⟩
    have hpair : Nested (⟨op, .opened⟩ :: (inside ++ later) ++ ⟨op, .noMatch⟩ :: []) :=
      .pair ⟨nofun, rfl⟩ hlater .nil
    exact ⟨later ++ [⟨op, .noMatch⟩], by simpa using hbefore.append hpair⟩

end Trace

open Trace

namespace Journal

def marks (journal : Journal) : List Mark :=
  journal.records.filterMap Record.mark?

/-- `marks` is a morphism of journals, as `records` is. -/
@[simp] theorem marks_append (j k : Journal) :
    Journal.marks (j ++ k) = Journal.marks j ++ Journal.marks k := by
  simp [marks]

end Journal

/-! ## Episodes -/

inductive Verdict where
  | failed
  /-- It read a character. -/
  | read (ch : Char)
  /-- It collected so many values. -/
  | collected (count : Nat)
  deriving DecidableEq, Repr

def Verdict.mark (op : Operation) : Verdict → Mark
  | .failed => ⟨op, .noMatch⟩
  | .read ch => ⟨op, .value (.char ch)⟩
  | .collected count => ⟨op.counted (some count), .ok⟩

/-- A repetition reports a number that its opening does not have; `Mark.Closes` looks past it. -/
theorem Verdict.closes_mark (op : Operation) (verdict : Verdict) : (verdict.mark op).Closes op := by
  cases verdict with
  | failed => exact ⟨nofun, rfl⟩
  | read ch => exact ⟨nofun, rfl⟩
  | collected count =>
    refine ⟨nofun, ?_⟩
    cases op <;> rfl

/-- Only the number changes, so closings of paired operations are marks as well. -/
theorem Verdict.isPaired_mark (op : Operation) (verdict : Verdict) :
    (verdict.mark op).op.isPaired = op.isPaired := by
  cases verdict with
  | failed | read => rfl
  | collected count => cases op <;> rfl

/-- A run of a parser that writes two records, with the runs inside it. It has no verdict if it did
not come to an end. -/
inductive Episode where
  | mk (op : Operation) (verdict : Option Verdict) (inside : List Episode)

namespace Episode

mutual

def marks : Episode → List Mark
  | .mk op verdict inside =>
    ⟨op, .opened⟩ :: marksOfAll inside ++ (verdict.map (Verdict.mark op)).toList

def marksOfAll : List Episode → List Mark
  | [] => []
  | episode :: episodes => episode.marks ++ marksOfAll episodes

end

mutual

/-- The operations that did not come to an end, the outermost first. -/
def active : Episode → List Operation
  | .mk op verdict inside => (if verdict.isNone then [op] else []) ++ activeOfAll inside

def activeOfAll : List Episode → List Operation
  | [] => []
  | episode :: episodes => episode.active ++ activeOfAll episodes

end

/-- Forests are written out from left to right. -/
@[simp] theorem marksOfAll_append (xs ys : List Episode) :
    marksOfAll (xs ++ ys) = marksOfAll xs ++ marksOfAll ys := by
  induction xs with
  | nil => rfl
  | cons x xs ih => simp [marksOfAll, ih]

/-- The active operations of a forest, tree by tree. -/
@[simp] theorem activeOfAll_append (xs ys : List Episode) :
    activeOfAll (xs ++ ys) = activeOfAll xs ++ activeOfAll ys := by
  induction xs with
  | nil => rfl
  | cons x xs ih => simp [activeOfAll, ih]

theorem activeOfAll_singleton (op : Operation) (verdict : Option Verdict) (inside : List Episode) :
    activeOfAll [.mk op verdict inside] =
      (if verdict.isNone then [op] else []) ++ activeOfAll inside :=
  List.append_nil _

theorem marksOfAll_singleton (op : Operation) (verdict : Option Verdict) (inside : List Episode) :
    marksOfAll [.mk op verdict inside] =
      ⟨op, .opened⟩ :: marksOfAll inside ++ (verdict.map (Verdict.mark op)).toList :=
  List.append_nil _

mutual

/-- An episode in which nothing is active is nested. Structural recursion on the episode, together
with `nested_marksOfAll`. -/
theorem nested_marks : (episode : Episode) → episode.active = [] → Nested episode.marks
  | .mk _ none _, h => nomatch h
  | .mk op (some verdict) inside, h =>
    .pair (verdict.closes_mark op) (nested_marksOfAll inside h) .nil

theorem nested_marksOfAll :
    (episodes : List Episode) → activeOfAll episodes = [] → Nested (marksOfAll episodes)
  | [], _ => .nil
  | episode :: episodes, h =>
    have hboth := List.append_eq_nil_iff.1 h
    (nested_marks episode hboth.1).append (nested_marksOfAll episodes hboth.2)

end

/-- An episode without a verdict is the outermost of those that are active; one with a verdict has
nothing active inside, by `hsettled`. -/
theorem unclosed_singleton {op : Operation} {verdict : Option Verdict} {inside : List Episode}
    (hinside : Unclosed (marksOfAll inside) (activeOfAll inside))
    (hsettled : verdict ≠ none → activeOfAll inside = []) :
    Unclosed (marksOfAll [.mk op verdict inside]) (activeOfAll [.mk op verdict inside]) := by
  cases verdict with
  | none =>
    rw [marksOfAll_singleton, activeOfAll_singleton, Option.map_none, Option.toList_none,
      List.append_nil]
    exact .opened .nil hinside
  | some v =>
    have hnone : activeOfAll [.mk op (some v) inside] = [] := by
      rw [activeOfAll_singleton, hsettled nofun]
      rfl
    rw [hnone]
    exact .nested (nested_marksOfAll _ hnone)

end Episode

/-! ## The episodes of a run -/

def Outcome.verdict (of : α → Verdict) : Outcome α → Verdict
  | .failure => .failed
  | .success _ v => of v

def Ending.verdict (of : α → Verdict) : Ending (Outcome α) → Option Verdict
  | .returned outcome => some (outcome.verdict of)
  | .panicked _ | .exhausted => none

def Ending.onMatch (e : Ending (Outcome α)) (f : Cursor → α → List β) : List β :=
  e.sequel fun
    | .failure => []
    | .success c v => f c v

namespace Episode

def reading (op : Operation) (e : Ending (Outcome Char)) : Episode :=
  .mk op (e.verdict .read) []

/-- The episodes of actions in a row, as long as they match; each comes with its own episodes. -/
def inRow : List (Action α × (Cursor → List Episode)) → Cursor → List Episode
  | [], _ => []
  | (p, episodes) :: rest, c => episodes c ++ (p c).ending.onMatch fun next _ => inRow rest next

def ofRounds (p : Action α) (episodes : Cursor → List Episode) : Nat → Cursor → List Episode
  | 0, _ => []
  | rounds + 1, c =>
    episodes c ++ (p c).ending.onMatch fun next _ => ofRounds p episodes rounds next

end Episode

/-- The operation that a parser records twice, and what it reports of a value. -/
def Parser.reports? : {α : Type} → Parser R α → Option (Operation × (α → Verdict))
  | _, .like _ => some (.like, .read)
  | _, .char ch => some (.char ch, .read)
  | _, .oneOf set => some (.oneOf set, .read)
  | _, .star _ => some (.star none, fun vs => .collected vs.length)
  | _, .plus _ => some (.plus none, fun vs => .collected vs.length)
  | _, _ => none

/-- The episodes of a parser at a cursor, given those of the rules. Where a parser is run, and
whether it is, depends on how the parsers before it ended; what comes of it is how it ends there. -/
def Parser.episodes (g : Grammar R) (fuel : Nat)
    (rules : {α : Type} → R α → Cursor → List Episode) :
    {α : Type} → Parser R α → Cursor → List Episode
  | _, .ok, _ | _, .endOfInput, _ | _, .succeed _, _ | _, .succeedWith _, _ | _, .closure _, _ => []
  | _, .like accepts, c => [.reading .like (g.endingAt fuel (.like accepts) c)]
  | _, .char ch, c => [.reading (.char ch) (g.endingAt fuel (.char ch) c)]
  | _, .oneOf set, c => [.reading (.oneOf set) (g.endingAt fuel (.oneOf set) c)]
  | _, .str text, c =>
    Episode.inRow (text.toList.map fun ch =>
      (g.run fuel (.char ch), fun c => [.reading (.char ch) (g.endingAt fuel (.char ch) c)])) c
  | _, .seqOf n items, c =>
    Episode.inRow (List.ofFn fun i : Fin n =>
      (g.run fuel (items i), (items i).episodes g fuel rules)) c
  | _, .or left right, c =>
    left.episodes g fuel rules c ++ (g.endingAt fuel left c).sequel fun
      | .failure => right.episodes g fuel rules c
      | .success _ _ => []
  | _, .star p, c =>
    [.mk (.star none) ((g.endingAt fuel (.star p) c).verdict fun vs => .collected vs.length)
      (Episode.ofRounds (g.run fuel p) (p.episodes g fuel rules) fuel c)]
  | _, .plus p, c =>
    [.mk (.plus none) ((g.endingAt fuel (.plus p) c).verdict fun vs => .collected vs.length)
      (Episode.ofRounds (g.run fuel p) (p.episodes g fuel rules) (fuel + 1) c)]
  | _, .chain p effect next, c =>
    p.episodes g fuel rules c ++ (g.endingAt fuel p c).onMatch fun after v =>
      (Ending.ofCallback (effect v)).sequel fun _ => (next v).episodes g fuel rules after
  | _, .inspect p choose next, c =>
    p.episodes g fuel rules c ++ (g.endingAt fuel p c).sequel fun outcome =>
      (Ending.ofCallback (choose c outcome)).sequel fun chosen =>
        (next chosen.2).episodes g fuel rules chosen.1
  | _, .option p, c | _, .map p _, c | _, .named _ p, c | _, .boxed p, c =>
    p.episodes g fuel rules c
  | _, .deferred factory p, c =>
    (Ending.ofCallback factory).sequel fun _ => p.episodes g fuel rules c
  | _, .rule r, c => rules r c

namespace Grammar

def ruleEpisodes (g : Grammar R) : Nat → {α : Type} → R α → Cursor → List Episode
  | 0, _, _, _ => []
  | fuel + 1, _, r, c => (g.body r).episodes g fuel (g.ruleEpisodes fuel) c

def episodes (g : Grammar R) (fuel : Nat) (p : Parser R α) (c : Cursor) : List Episode :=
  p.episodes g fuel (g.ruleEpisodes fuel) c

end Grammar

/-! ## Runs that tell episodes -/

namespace Engine

/-- At the trace level a record of a paired operation is one mark, any other record is none. -/
theorem marks_trace (c : Cursor) (op : Operation) (note : Note) (label : String) :
    (Engine.trace c op note .trace label).journal.marks =
      if op.isPaired then [⟨op, note⟩] else [] := by
  show Journal.marks [.record (.step c.rest label op note)] = _
  cases hop : op.isPaired <;>
    simp [Journal.marks, Journal.records, Entry.record?, Record.mark?, hop]

/-- The run leaves behind the marks of the episodes. Those that are active have no closing, run code
of the user's, and are none if the run returned. -/
structure Tells (m : Engine α) (episodes : List Episode) : Prop where
  uniform : m.Uniform
  marks : ∀ label, (m .trace label).journal.marks = Episode.marksOfAll episodes
  unclosed : Unclosed (Episode.marksOfAll episodes) (Episode.activeOfAll episodes)
  runsUserCode : ∀ op ∈ Episode.activeOfAll episodes, op.runsUserCode = true
  settled : ∀ a, m.ending = .returned a → Episode.activeOfAll episodes = []

namespace Tells

/-- A run without marks tells the empty forest. -/
theorem quiet {m : Engine α} (hm : m.Uniform)
    (hmarks : ∀ label, (m .trace label).journal.marks = []) : m.Tells [] where
  uniform := hm
  marks := hmarks
  unclosed := .nested .nil
  runsUserCode := nofun
  settled _ _ := rfl

protected theorem pure (a : α) : (pure a : Engine α).Tells [] :=
  quiet (.pure a) fun _ => rfl

protected theorem exhausted : (Engine.exhausted : Engine α).Tells [] :=
  quiet .exhausted fun _ => rfl

/-- Operations that write one record leave no mark. -/
protected theorem trace (c : Cursor) {op : Operation} (hop : op.isPaired = false) (note : Note) :
    (Engine.trace c op note).Tells [] := by
  refine quiet (.trace c op note) fun label => ?_
  rw [marks_trace, hop]
  rfl

/-- Calls of users' functions write entries that are no records, and so leave no mark. -/
protected theorem callAs {entry : String → Entry} (hentry : ∀ e, (entry e).record? = none)
    (callback : Callback α) : (Engine.callAs entry callback).Tells [] := by
  refine quiet (.callAs entry callback) fun label => ?_
  have hevents : ∀ events : List String, Journal.marks (events.map entry) = [] := by
    intro events
    unfold Journal.marks
    rw [Journal.records_map_eq_nil hentry]
    rfl
  rcases callback with ⟨events, fault | a⟩
  · exact hevents events
  · exact hevents events

protected theorem call (callback : Callback α) : (Engine.call callback).Tells [] :=
  .callAs (fun _ => rfl) callback

/-- The episodes of a sequel are those of its first half, and those of the second if there is one.
By then those of the first have come to an end. -/
protected theorem bind {m : Engine α} {f : α → Engine β} {episodes : List Episode}
    {later : α → List Episode} (hm : m.Tells episodes) (hf : ∀ a, (f a).Tells (later a)) :
    (m >>= f).Tells (episodes ++ m.ending.sequel later) := by
  have huniform : ∀ a, (f a).Uniform := fun a => (hf a).uniform
  have hmarks : ∀ label, ((m >>= f) .trace label).journal.marks =
      Episode.marksOfAll (episodes ++ m.ending.sequel later) := by
    intro label
    rw [journal_bind, Journal.marks_append, hm.marks, Episode.marksOfAll_append,
      hm.uniform.ending_eq]
    cases m.ending with
    | returned a => exact congrArg _ ((hf a).marks _)
    | panicked | exhausted => rfl
  by_cases hreturns : ∃ a, m.ending = .returned a
  -- the first half has come to an end, so that its marks are nested by themselves
  · rcases hreturns with ⟨a, hending⟩
    have hnone : Episode.activeOfAll episodes = [] := hm.settled a hending
    have hnested : Nested (Episode.marksOfAll episodes) := Episode.nested_marksOfAll _ hnone
    have hactive : Episode.activeOfAll (episodes ++ later a) = Episode.activeOfAll (later a) := by
      rw [Episode.activeOfAll_append, hnone, List.nil_append]
    rw [hending] at hmarks ⊢
    refine ⟨.bind hm.uniform huniform, hmarks, ?_, ?_, fun b hb => ?_⟩
    · rw [Ending.sequel, hactive, Episode.marksOfAll_append]
      exact hnested.append_unclosed (hf a).unclosed
    · rw [Ending.sequel, hactive]
      exact (hf a).runsUserCode
    · rw [ending_bind m huniform, hending] at hb
      rw [Ending.sequel, hactive]
      exact (hf a).settled b hb
  -- it is cut short, and nothing comes after it
  · have hnothing : m.ending.sequel later = [] := by
      cases hending : m.ending with
      | returned a => exact absurd ⟨a, hending⟩ hreturns
      | panicked | exhausted => rfl
    rw [hnothing, List.append_nil] at hmarks ⊢
    refine ⟨.bind hm.uniform huniform, hmarks, hm.unclosed, hm.runsUserCode, fun b hb => ?_⟩
    rw [ending_bind m huniform] at hb
    rcases Ending.bind_eq_returned.1 hb with ⟨a, hending, -⟩
    exact absurd ⟨a, hending⟩ hreturns

/-- What leaves no mark may come after. -/
theorem bind_quiet {m : Engine α} {f : α → Engine β} {episodes : List Episode}
    (hm : m.Tells episodes) (hf : ∀ a, (f a).Tells []) : (m >>= f).Tells episodes := by
  have htells := hm.bind hf
  rwa [Ending.sequel_eq_nil _ fun _ => rfl, List.append_nil] at htells

/-- What leaves no mark and always returns may come before. -/
theorem quiet_bind {m : Engine Unit} {f : Unit → Engine β} {episodes : List Episode}
    (hm : m.Tells []) (hreturns : m.ending = .returned ()) (hf : (f ()).Tells episodes) :
    (m >>= f).Tells episodes := by
  have htells := hm.bind fun _ => hf
  rwa [hreturns] at htells

/-- A fault of the call leaves no room for a sequel, and so for no episode. -/
theorem callAs_bind {entry : String → Entry} (hentry : ∀ e, (entry e).record? = none)
    {callback : Callback α} {f : α → Engine β} {later : α → List Episode}
    (hf : ∀ a, (f a).Tells (later a)) :
    (Engine.callAs entry callback >>= f).Tells ((Ending.ofCallback callback).sequel later) := by
  have htells := (Tells.callAs hentry callback).bind hf
  rwa [ending_callAs, List.nil_append] at htells

theorem call_bind {callback : Callback α} {f : α → Engine β} {later : α → List Episode}
    (hf : ∀ a, (f a).Tells (later a)) :
    (Engine.call callback >>= f).Tells ((Ending.ofCallback callback).sequel later) :=
  callAs_bind (fun _ => rfl) hf

/-- Goes on from a match; where there is none, the sequel leaves no mark. -/
theorem andThen {m : Engine (Outcome α)} {f : Outcome α → Engine β} {episodes : List Episode}
    {later : Cursor → α → List Episode} (hm : m.Tells episodes) (hfailure : (f .failure).Tells [])
    (hsuccess : ∀ c v, (f (.success c v)).Tells (later c v)) :
    (m >>= f).Tells (episodes ++ m.ending.onMatch later) := by
  refine hm.bind fun outcome => ?_
  cases outcome with
  | failure => exact hfailure
  | success c v => exact hsuccess c v

/-- A label changes no mark: `Mark` has none. -/
theorem withLabel (label : String) {m : Engine α} {episodes : List Episode}
    (hm : m.Tells episodes) : (Engine.withLabel label m).Tells episodes where
  uniform := hm.uniform.withLabel label
  marks outer := by
    rw [withLabel_apply]
    exact hm.marks label
  unclosed := hm.unclosed
  runsUserCode := hm.runsUserCode
  settled a ha := by
    rw [Engine.ending, ending_withLabel_at label hm.uniform] at ha
    exact hm.settled a ha

section Bracket

variable {c : Cursor} {op : Operation} {body : Engine β} {place : β → Cursor}
  {closing : β → Operation} {note : β → Note} {result : β → Outcome α}

theorem uniform_closing (b : β) : Uniform (do
    Engine.trace (place b) (closing b) (note b)
    pure (result b)) :=
  .bind (.trace _ _ _) fun _ => .pure _

/-- The ending of a bracket is the ending of its body, as `result` turns it into an outcome. -/
theorem ending_bracket : Engine.ending (do
      Engine.trace c op .opened
      let b ← body
      Engine.trace (place b) (closing b) (note b)
      pure (result b)) = body.ending >>= fun b => .returned (result b) := by
  rw [ending_trace_bind, ending_bind _ uniform_closing]
  rfl

/-- The marks of a bracket. The closing is written only if the body returns. -/
theorem marks_bracket (hop : op.isPaired = true) (hclosing : ∀ b, (closing b).isPaired = true)
    (hbody : body.Uniform) (label : String) :
    ((do
      Engine.trace c op .opened
      let b ← body
      Engine.trace (place b) (closing b) (note b)
      pure (result b) : Engine (Outcome α)) .trace label).journal.marks =
      ⟨op, .opened⟩ :: (body .trace label).journal.marks ++
        body.ending.sequel fun b => [⟨closing b, note b⟩] := by
  have hlast : ∀ b after, ((do
      Engine.trace (place b) (closing b) (note b)
      pure (result b) : Engine (Outcome α)) .trace after).journal.marks =
        [⟨closing b, note b⟩] := by
    intro b after
    rw [journal_bind_pure, marks_trace, if_pos (hclosing b)]
  -- the closing record is written under the label that the body left, and has the same mark there
  have hrest : ((do
      let b ← body
      Engine.trace (place b) (closing b) (note b)
      pure (result b) : Engine (Outcome α)) .trace label).journal.marks =
        (body .trace label).journal.marks ++
          body.ending.sequel fun b => [⟨closing b, note b⟩] := by
    rw [journal_bind, Journal.marks_append, hbody.ending_eq]
    cases body.ending with
    | returned b => exact congrArg _ (hlast b _)
    | panicked | exhausted => rfl
  rw [journal_bind, Journal.marks_append, marks_trace, if_pos hop]
  exact congrArg (⟨op, .opened⟩ :: ·) hrest

/-- An opening, what is inside, and a closing that says what came of it, make up one episode. -/
theorem bracket {m : Engine (Outcome α)} {inside : List Episode} {of : α → Verdict}
    (hm : m = do
      Engine.trace c op .opened
      let b ← body
      Engine.trace (place b) (closing b) (note b)
      pure (result b))
    (hop : op.isPaired = true) (hbody : body.Tells inside)
    (hmark : ∀ b, (⟨closing b, note b⟩ : Mark) = ((result b).verdict of).mark op)
    (huser : op.runsUserCode = true ∨ ∃ b, body.ending = .returned b) :
    m.Tells [.mk op (m.ending.verdict of) inside] := by
  have hclosing : ∀ b, (closing b).isPaired = true := by
    intro b
    have hpaired := congrArg (fun mark => mark.op.isPaired) (hmark b)
    rwa [Verdict.isPaired_mark, hop] at hpaired
  rw [hm, ending_bracket]
  refine ⟨.bind (.trace _ _ _) fun _ => .bind hbody.uniform uniform_closing, fun label => ?_, ?_,
    fun active hactive => ?_, fun outcome hreturned => ?_⟩
  · rw [marks_bracket hop hclosing hbody.uniform, hbody.marks]
    cases body.ending with
    | returned b => simp [Episode.marksOfAll_singleton, Ending.sequel, Ending.verdict, hmark]
    | panicked | exhausted =>
      simp [Episode.marksOfAll_singleton, Ending.sequel, Ending.verdict]
  · refine Episode.unclosed_singleton hbody.unclosed fun hverdict => ?_
    cases hends : body.ending with
    | returned b => exact hbody.settled b hends
    | panicked | exhausted => exact absurd (by rw [hends]; rfl) hverdict
  · rw [Episode.activeOfAll_singleton, List.mem_append] at hactive
    rcases hactive with hself | hinside
    · rcases huser with huser | ⟨b, hends⟩
      · split at hself
        · rwa [List.mem_singleton.1 hself]
        · cases hself
      -- it came to an end, and is none of those that are active
      · rw [hends] at hself
        cases hself
    · exact hbody.runsUserCode active hinside
  · rw [ending_bracket] at hreturned
    rcases Ending.bind_eq_returned.1 hreturned with ⟨b, hends, -⟩
    rw [Episode.activeOfAll_singleton, hends, hbody.settled b hends]
    rfl

end Bracket

end Tells

end Engine

open Engine

/-! ## Actions -/

def Action.Tells (p : Action α) (episodes : Cursor → List Episode) : Prop :=
  ∀ c, (p c).Tells (episodes c)

namespace Action

/-- A reader of one character is one episode. Its predicate is the user's, or else it never gives
up. -/
theorem tells_readIf {op : Operation} {accepts : Char → Callback Bool} (hop : op.isPaired = true)
    (huser : op.runsUserCode = true ∨ ∀ ch, ∃ b, Ending.ofCallback (accepts ch) = .returned b) :
    (readIf op accepts).Tells fun c => [.reading op (readIf op accepts c).ending] := by
  rintro ⟨before, _ | ⟨ch, rest⟩⟩
  -- at the end of the text there is nothing inside
  · have hends : readIf op accepts ⟨before, []⟩ =
        Engine.trace ⟨before, []⟩ op .opened >>= fun _ => (pure () : Engine Unit) >>= fun _ =>
          Engine.trace ⟨before, []⟩ op .noMatch >>= fun _ => pure .failure := rfl
    refine .bracket hends hop (.pure ()) (fun _ => ?_) (.inr ⟨(), rfl⟩)
    rfl
  · refine .bracket rfl hop (.call (accepts ch)) (fun accepted => ?_) ?_
    · cases accepted <;> rfl
    · rw [ending_call]
      exact huser.imp_right fun h => h ch

/-- Parts in a row, up to the first that fails. Induction on the list, for every count of the parts
before. -/
theorem tells_seqFrom (done : Nat) {ps : List (Action α × (Cursor → List Episode))}
    (h : ∀ p ∈ ps, p.1.Tells p.2) :
    (seqFrom done (ps.map Prod.fst)).Tells (Episode.inRow ps) := by
  induction ps generalizing done with
  | nil => exact fun c => .quiet_bind (.trace _ rfl _) rfl (.pure _)
  | cons p ps ih =>
    intro c
    refine .andThen (h p List.mem_cons_self c) ?_ fun next v => ?_
    · exact .quiet_bind (.trace _ rfl _) rfl (.pure _)
    · have hrest := ih (done + 1) (fun q hq => h q (List.mem_cons_of_mem p hq)) next
      exact .bind_quiet hrest fun _ => .pure _

/-- The predicate of `char` is the library's own and never faults. -/
theorem tells_char (ch : Char) :
    (char ch).Tells fun c => [.reading (.char ch) (char ch c).ending] :=
  tells_readIf rfl (.inr fun _ => ⟨_, rfl⟩)

/-- A literal is the row of its characters; the record that it writes itself is not paired. -/
theorem tells_str (text : String) :
    (str text).Tells (Episode.inRow (text.toList.map fun ch =>
      (char ch, fun c => [.reading (.char ch) (char ch c).ending]))) := by
  intro c
  have hchars : ∀ chars : List Char, chars.map char = (chars.map fun ch =>
      (char ch, fun c => [Episode.reading (.char ch) (char ch c).ending])).map Prod.fst := by
    intro chars
    rw [List.map_map]
    rfl
  unfold str seq
  rw [hchars]
  refine .bind_quiet (tells_seqFrom 0 (fun p hp => ?_) c) fun _ =>
    .quiet_bind (.trace _ rfl _) rfl (.pure _)
  rcases List.mem_map.1 hp with ⟨ch, -, rfl⟩
  exact tells_char ch

/-- The rounds of a loop. Induction on their number. -/
theorem tells_many {p : Action α} {episodes : Cursor → List Episode} (hp : p.Tells episodes)
    (rounds : Nat) (c : Cursor) :
    (many p rounds c).Tells (Episode.ofRounds p episodes rounds c) := by
  induction rounds generalizing c with
  | zero => exact .exhausted
  | succ rounds ih =>
    exact .andThen (hp c) (.pure _) fun next v => .bind_quiet (ih next) fun _ => .pure _

/-- The opening is written before the loop and the closing after it, with the number of values. -/
theorem tells_star {p : Action α} {episodes : Cursor → List Episode} (hp : p.Tells episodes)
    (fuel : Nat) : (p.star fuel).Tells fun c =>
      [.mk (.star none) ((p.star fuel c).ending.verdict fun vs => .collected vs.length)
        (Episode.ofRounds p episodes fuel c)] :=
  fun c => .bracket rfl rfl (tells_many hp fuel c) (fun _ => rfl) (.inl rfl)

/-- One or more matches are the rounds of one loop, of which the first has to match; in this form
`plus` is a bracket. -/
theorem plus_eq (p : Action α) (fuel : Nat) (c : Cursor) :
    p.plus fuel c = (do
      Engine.trace c (.plus none) .opened
      let found ← many p (fuel + 1) c
      Engine.trace found.1 (.plus (if found.2.isEmpty then none else some found.2.length))
        (if found.2.isEmpty then .noMatch else .ok)
      pure (if found.2.isEmpty then .failure else .success found.1 found.2)) := by
  unfold plus
  refine bind_congr fun _ => ?_
  -- the first round of the loop is the match that has to be there
  rw [many, bind_assoc]
  refine bind_congr fun outcome => ?_
  cases outcome with
  | failure => rfl
  | success next v =>
    simp only [bind_assoc, pure_bind]
    rfl

/-- By `plus_eq`: no values is a failure, some are a match with their number. -/
theorem tells_plus {p : Action α} {episodes : Cursor → List Episode} (hp : p.Tells episodes)
    (fuel : Nat) : (p.plus fuel).Tells fun c =>
      [.mk (.plus none) ((p.plus fuel c).ending.verdict fun vs => .collected vs.length)
        (Episode.ofRounds p episodes (fuel + 1) c)] := by
  intro c
  refine .bracket (plus_eq p fuel c) rfl (tells_many hp (fuel + 1) c) (fun found => ?_) (.inl rfl)
  rcases found with ⟨last, _ | ⟨v, vs⟩⟩
  · rfl
  · rfl

end Action

/-! ## Parsers and grammars -/

open ParserCombinators.Action (tells_readIf tells_char tells_str tells_seqFrom tells_star
  tells_plus)

/-- Every parser tells its episodes, over rules that do. Induction on the parser. -/
theorem Parser.tells_eval (g : Grammar R) (fuel : Nat)
    {rules : {α : Type} → R α → Cursor → List Episode}
    (hrules : ∀ {α : Type} (r : R α), (g.call fuel r).Tells (rules r)) (p : Parser R α) :
    (g.run fuel p).Tells (p.episodes g fuel rules) := by
  induction p with
  | ok | succeed => exact fun c => .pure _
  | endOfInput => exact fun c => .quiet_bind (.trace _ rfl _) rfl (.pure _)
  | like accepts => exact tells_readIf rfl (.inl rfl)
  | char ch => exact tells_char ch
  | oneOf set => exact tells_readIf rfl (.inr fun _ => ⟨_, rfl⟩)
  | str text => exact tells_str text
  | succeedWith make => exact fun c => .bind_quiet (.call _) fun _ => .pure _
  | seqOf n items ih =>
    have hitems : (List.ofFn fun i : Fin n =>
        (g.run fuel (items i), (items i).episodes g fuel rules)).map Prod.fst =
          List.ofFn fun i : Fin n => g.run fuel (items i) := List.map_ofFn
    -- each action of the list goes with its own episodes
    change (Action.seqFrom 0 (List.ofFn fun i : Fin n => g.run fuel (items i))).Tells _
    rw [← hitems]
    refine tells_seqFrom 0 fun p hp => ?_
    rcases List.mem_ofFn.1 hp with ⟨i, rfl⟩
    exact ih i
  | or left right ihl ihr =>
    intro c
    refine .bind (ihl c) fun outcome => ?_
    cases outcome with
    -- the record of a choice is no mark
    | failure => exact .quiet_bind (.trace _ rfl _) rfl (ihr c)
    | success next v => exact .pure _
  | star p ih => exact tells_star ih fuel
  | plus p ih => exact tells_plus ih fuel
  | option p ih =>
    intro c
    have hoption : g.run fuel (.option p) c = _ := Action.option_eq (g.run fuel p) c
    rw [hoption]
    refine .bind_quiet (ih c) fun outcome => ?_
    cases outcome with
    | failure => exact .quiet_bind (.trace _ rfl _) rfl (.pure _)
    | success next v => exact .pure _
  | chain p effect next ihp ihn =>
    exact fun c => .andThen (ihp c) (.pure _) fun after v => .call_bind fun _ => ihn v after
  | map p f ih =>
    intro c
    refine .bind_quiet (ih c) fun outcome => ?_
    cases outcome with
    | failure => exact .pure _
    | success next v => exact .bind_quiet (.call _) fun _ => .pure _
  | named label p ih => exact fun c => .withLabel label (.quiet_bind (.trace _ rfl _) rfl (ih c))
  | boxed p ih => exact ih
  | deferred factory p ih => exact fun c => .callAs_bind (fun _ => rfl) fun _ => ih c
  | rule r => exact hrules r
  | closure f => exact fun c => .call _
  | inspect p choose next ihp ihn =>
    exact fun c => .bind (ihp c) fun _ => .call_bind fun chosen => ihn chosen.2 chosen.1

namespace Grammar

variable (g : Grammar R)

/-- Induction on fuel, as in `ruleEpisodes`. -/
theorem tells_call (fuel : Nat) (r : R α) : (g.call fuel r).Tells (g.ruleEpisodes fuel r) := by
  induction fuel generalizing α with
  | zero => exact fun c => .exhausted
  | succ fuel ih => exact Parser.tells_eval g fuel ih (g.body r)

theorem tells_run (fuel : Nat) (p : Parser R α) : (g.run fuel p).Tells (g.episodes fuel p) :=
  Parser.tells_eval g fuel (g.tells_call fuel) p

/-- A parser that is recorded twice is one episode, and its verdict is how it ends. -/
theorem episodes_of_reports (fuel : Nat) {p : Parser R α} {op : Operation} {of : α → Verdict}
    (h : p.reports? = some (op, of)) (c : Cursor) :
    ∃ inside, g.episodes fuel p c = [.mk op ((g.endingAt fuel p c).verdict of) inside] := by
  cases p with
  | like | char | oneOf | star | plus =>
    cases h
    exact ⟨_, rfl⟩
  | _ => cases h

/-- A closing never calls a match a failure: the notes of the two are different for each
operation. -/
theorem note_eq_noMatch_iff {p : Parser R α} {op : Operation} {of : α → Verdict}
    (h : p.reports? = some (op, of)) (outcome : Outcome α) :
    ((outcome.verdict of).mark op).note = .noMatch ↔ outcome = .failure := by
  cases outcome with
  | failure => exact iff_of_true rfl rfl
  | success c v =>
    cases p with
    | like | char | oneOf | star | plus =>
      cases h
      exact iff_of_false nofun nofun
    | _ => cases h

/-- The trace of a run is the forest of its episodes, written out. If the run returns, it is
properly nested and no episode is active. In particular a run of a parser that is recorded twice
leaves an opening, something nested, and a closing that says what came of it; it says that there is
no match if and only if the run failed. If a run is cut short by a panic, its trace is the start of
a nested sequence, and the openings without a closing are those of the episodes that are active, the
outermost first; each of them is a repetition or a reader with a predicate of the user's. -/
theorem trace_is_bracketed (fuel : Nat) (p : Parser R α) (c : Cursor) (label : String) :
    (g.run fuel p c .trace label).journal.marks = Episode.marksOfAll (g.episodes fuel p c) ∧
    (∀ outcome, (g.run fuel p c .trace label).ending = .returned outcome →
      Nested (g.run fuel p c .trace label).journal.marks ∧
        Episode.activeOfAll (g.episodes fuel p c) = [] ∧
        ∀ op of, p.reports? = some (op, of) →
          (∃ inside, Nested inside ∧ (g.run fuel p c .trace label).journal.marks =
            ⟨op, .opened⟩ :: inside ++ [(outcome.verdict of).mark op]) ∧
          (((outcome.verdict of).mark op).note = .noMatch ↔ outcome = .failure)) ∧
    (∀ panic, (g.run fuel p c .trace label).ending = .panicked panic →
      Unclosed (g.run fuel p c .trace label).journal.marks
          (Episode.activeOfAll (g.episodes fuel p c)) ∧
        (∀ op ∈ Episode.activeOfAll (g.episodes fuel p c), op.runsUserCode = true) ∧
        ∃ later, Nested ((g.run fuel p c .trace label).journal.marks ++ later)) := by
  have htells : (g.run fuel p c).Tells (g.episodes fuel p c) := g.tells_run fuel p c
  rw [htells.marks label, g.run_ending]
  refine ⟨rfl, fun outcome houtcome => ?_, fun panic _ =>
    ⟨htells.unclosed, htells.runsUserCode, htells.unclosed.exists_nested⟩⟩
  have hnone : Episode.activeOfAll (g.episodes fuel p c) = [] := htells.settled outcome houtcome
  refine ⟨Episode.nested_marksOfAll _ hnone, hnone, fun op of hreports =>
    ⟨?_, note_eq_noMatch_iff hreports outcome⟩⟩
  rcases g.episodes_of_reports fuel hreports c with ⟨inside, hepisode⟩
  rw [hepisode, houtcome, Episode.activeOfAll_singleton] at hnone
  refine ⟨Episode.marksOfAll inside, Episode.nested_marksOfAll inside hnone, ?_⟩
  rw [hepisode, houtcome, Episode.marksOfAll_singleton]
  rfl

/-- A repetition that ends on its own, and one in which the predicate gives up on the second
character: there the repetition and the reader inside it are left open. -/
theorem trace_is_bracketed_second_character :
    Nested (Grammar.none.run 3 (.plus (.char 'a')) ⟨[], ['a', 'b']⟩ .trace "").journal.marks ∧
    (Grammar.none.run 3 (.plus (.char 'a')) ⟨[], ['a', 'b']⟩ .trace "").journal.marks =
      [⟨.plus .none, .opened⟩, ⟨.char 'a', .opened⟩, ⟨.char 'a', .value (.char 'a')⟩,
        ⟨.char 'a', .opened⟩, ⟨.char 'a', .noMatch⟩, ⟨.plus (some 1), .ok⟩] ∧
    Unclosed (Grammar.none.run 3 (.star (.like fun ch =>
        if ch = 'b' then Callback.raise (.raised "b") else pure true)) ⟨[], ['a', 'b']⟩ .trace
          "").journal.marks [.star .none, .like] := by
  refine ⟨?_, by decide, ?_⟩
  · exact ((trace_is_bracketed Grammar.none 3 (.plus (.char 'a')) ⟨[], ['a', 'b']⟩ "").2.1
      (.success ⟨['a'], ['b']⟩ ['a']) (by decide)).1
  · exact ((trace_is_bracketed Grammar.none 3 (.star (.like fun ch =>
      if ch = 'b' then Callback.raise (.raised "b") else pure true)) ⟨[], ['a', 'b']⟩ "").2.2
        (.fault (.raised "b")) (by decide)).1

end Grammar

end ParserCombinators
