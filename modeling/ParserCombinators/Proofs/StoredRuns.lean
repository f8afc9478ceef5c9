import ParserCombinators.Proofs.Conditions
import ParserCombinators.Proofs.Endings
import ParserCombinators.Proofs.Positions

/-!
# Stored runs — parsers on byte offsets

A `Cursor` is a place between two characters by its type, so `Grammar.run` has nothing to check. In
memory there is only a text and a number. Here parsers run on such positions: each view of a text is
a slice that may be cut wrongly, each read adds to an offset in a machine word, and the first check
that fails stops the run with a `Trap`. `Follows` relates such a run to the run on cursors, with one
lemma per action; no trap is left.

- `StoredRun`, `StoredAction`: runs that a trap can stop, and what parsers do at a position
- `Grammar.runStored`, `Grammar.parseStored`: the interpreter over positions
- `Condition.fits`: functions that hand on texts whose size a word can hold
- `Follows`: the same run, with its cursors stored; composes along `>>=`
- `Action.StoredAs`, `Parser.storedAs_eval`, `Grammar.storedAs_call`: one lemma per action, then
  induction over parsers and over fuel
- `Grammar.runStored_position`, `Grammar.parseStored_eq`: no trap in any run
- `Description.parseStored_eq`, `Json.parseStored_eq`: parsers of which nothing has to be asked
-/

namespace ParserCombinators

variable {R : Type → Type} {α β γ : Type}

/-! ## Runs that a trap can stop -/

/-- A trap is a result of the engine and not an ending of its own, so `withLabel` puts the outer
label back around it. -/
def StoredRun (α : Type) : Type := ExceptT Trap Engine α

instance : Monad StoredRun :=
  inferInstanceAs (Monad (ExceptT Trap Engine))

instance : LawfulMonad StoredRun :=
  inferInstanceAs (LawfulMonad (ExceptT Trap Engine))

abbrev StoredAction (α : Type) : Type := Position → StoredRun (Option (Position × α))

/-- Both slices of the text, as a cursor. A user's function is handed this one, since it may ask for
either slice. -/
def Position.cursor (x : Position) : Except Trap Cursor := do
  let left ← x.consumed
  let right ← x.remaining
  pure (.between left right)

def Outcome.stored : Outcome α → Option (Position × α)
  | .failure => none
  | .success c v => some (c.position, v)

namespace StoredRun

def run (m : StoredRun α) : Engine (Except Trap α) :=
  ExceptT.run m

def check (checked : Except Trap α) : StoredRun α :=
  ExceptT.mk (pure checked)

def lift (m : Engine α) : StoredRun α :=
  ExceptT.lift m

def withLabel (label : String) (m : StoredRun α) : StoredRun α :=
  ExceptT.mk (Engine.withLabel label m.run)

/-- The record is worked out, and its slices are taken, only if the level keeps it. -/
def write (severity : Trace.Severity) (record : String → Except Trap Trace.Record) :
    StoredRun Unit :=
  ExceptT.mk fun level label =>
    if level.keeps severity then
      match record label with
      | .ok record => ⟨.returned (.ok ()), label, [.record record]⟩
      | .error trap => ⟨.returned (.error trap), label, []⟩
    else
      ⟨.returned (.ok ()), label, []⟩

def trace (x : Position) (op : Trace.Operation) (note : Trace.Note) : StoredRun Unit :=
  write .trace fun label => do
    let rest ← x.remaining
    pure (.step rest.toList label op note)

/-- A stored outcome as a user's function sees it. -/
def restore : Option (Position × α) → StoredRun (Outcome α)
  | none => pure .failure
  | some (x, v) => do
    let c ← check x.cursor
    pure (.success c v)

end StoredRun

/-! ## Actions -/

namespace StoredAction

open StoredRun

def succeed (value : α) : StoredAction α :=
  fun x => pure (some (x, value))

def noteOf (shown : α → Trace.Shown) : Option (Position × α) → Trace.Note
  | none => .noMatch
  | some (_, value) => .value (shown value)

/-- The end is found by comparing numbers, the character by decoding a slice, the next offset by a
sum up to `largest`. -/
def readIf (largest : Nat) (op : Trace.Operation) (accepts : Char → Callback Bool) :
    StoredAction Char := fun x => do
  trace x op .opened
  if x.atEnd then
    trace x op .noMatch
    pure none
  else
    match ← check (x.read largest) with
    | .error error => lift (Engine.panic (.defect (.unreadable error)))
    | .ok (ch, next) =>
      let accepted ← lift (Engine.call (accepts ch))
      let outcome := if accepted then some (next, ch) else none
      trace x op (noteOf .char outcome)
      pure outcome

def endOfInput : StoredAction Unit := fun x => do
  let outcome := if x.atEnd then some (x, ()) else none
  trace x .endOfInput (noteOf (fun _ => .unit) outcome)
  pure outcome

def seqFrom (done : Nat) : List (StoredAction α) → StoredAction (List α)
  | [], x => do
    trace x (.seq done) .ok
    pure (some (x, []))
  | p :: ps, x => do
    match ← p x with
    | none =>
      trace x (.seq done) .noMatch
      pure none
    | some (next, v) =>
      let outcome ← seqFrom (done + 1) ps next
      pure (outcome.map (Prod.map id (v :: ·)))

def seq (ps : List (StoredAction α)) : StoredAction (List α) :=
  seqFrom 0 ps

def char (largest : Nat) (ch : Char) : StoredAction Char :=
  readIf largest (.char ch) fun x => pure (x == ch)

def str (largest : Nat) (text : String) : StoredAction String := fun x => do
  let chars ← seq (text.toList.map (char largest)) x
  let outcome := chars.map (Prod.map id String.ofList)
  trace x (.str text) (noteOf .text outcome)
  pure outcome

def or (left right : StoredAction α) : StoredAction α := fun x => do
  match ← left x with
  | none =>
    trace x .choice .opened
    right x
  | some found => pure (some found)

def map (p : StoredAction α) (f : α → Callback β) : StoredAction β := fun x => do
  match ← p x with
  | none => pure none
  | some (next, v) =>
    let w ← lift (Engine.call (f v))
    pure (some (next, w))

def option (p : StoredAction α) : StoredAction (Option α) := fun x => do
  let outcome ← or (p.map fun v => pure (some v)) (succeed none) x
  if outcome.isSome then pure outcome else lift (Engine.panic (.defect .optionFailed))

def many (p : StoredAction α) : Nat → Position → StoredRun (Position × List α)
  | 0, _ => lift Engine.exhausted
  | fuel + 1, x => do
    match ← p x with
    | none => pure (x, [])
    | some (next, v) =>
      let (last, vs) ← many p fuel next
      pure (last, v :: vs)

def star (fuel : Nat) (p : StoredAction α) : StoredAction (List α) := fun x => do
  trace x (.star none) .opened
  let (last, vs) ← many p fuel x
  trace last (.star (some vs.length)) .ok
  pure (some (last, vs))

def plus (fuel : Nat) (p : StoredAction α) : StoredAction (List α) := fun x => do
  trace x (.plus none) .opened
  match ← p x with
  | none =>
    trace x (.plus none) .noMatch
    pure none
  | some (next, v) =>
    let (last, vs) ← many p fuel next
    trace last (.plus (some (vs.length + 1))) .ok
    pure (some (last, v :: vs))

def chain (p : StoredAction α) (effect : α → Callback Unit) (next : α → StoredAction β) :
    StoredAction β := fun x => do
  match ← p x with
  | none => pure none
  | some (after, v) =>
    lift (Engine.call (effect v))
    next v after

/-- The function sees the start and the outcome as cursors, so both are cut out for it. -/
def inspect (p : StoredAction α) (choose : Cursor → Outcome α → Callback (Cursor × γ))
    (next : γ → StoredAction β) : StoredAction β := fun x => do
  let outcome ← p x
  let c ← check x.cursor
  let seen ← restore outcome
  let (resume, choice) ← lift (Engine.call (choose c seen))
  next choice resume.position

def deferred (factory : Callback Unit) (p : StoredAction α) : StoredAction α := fun x => do
  lift (Engine.build factory)
  p x

def named (label : String) (p : StoredAction α) : StoredAction α := fun x =>
  withLabel label do
    trace x (.named label) .opened
    p x

def closure (f : Cursor → Callback (Outcome α)) : StoredAction α := fun x => do
  let c ← check x.cursor
  let outcome ← lift (Engine.call (f c))
  pure outcome.stored

end StoredAction

/-! ## Parsers and grammars -/

/-- `Parser.eval` over positions. -/
def Parser.evalStored (largest fuel : Nat) (rules : {α : Type} → R α → StoredAction α) :
    {α : Type} → Parser R α → StoredAction α
  | _, .ok => StoredAction.succeed ()
  | _, .endOfInput => StoredAction.endOfInput
  | _, .like accepts => StoredAction.readIf largest .like accepts
  | _, .char c => StoredAction.char largest c
  | _, .oneOf set =>
    StoredAction.readIf largest (.oneOf set) fun c => pure (set.toList.contains c)
  | _, .str text => StoredAction.str largest text
  | _, .succeed value => StoredAction.succeed value
  | _, .succeedWith make => fun x => do
    let value ← StoredRun.lift (Engine.call make)
    pure (some (x, value))
  | _, .seqOf n items =>
    StoredAction.seq (List.ofFn fun i : Fin n => (items i).evalStored largest fuel rules)
  | _, .or left right =>
    StoredAction.or (left.evalStored largest fuel rules) (right.evalStored largest fuel rules)
  | _, .star p => StoredAction.star fuel (p.evalStored largest fuel rules)
  | _, .plus p => StoredAction.plus fuel (p.evalStored largest fuel rules)
  | _, .option p => StoredAction.option (p.evalStored largest fuel rules)
  | _, .chain p effect next =>
    StoredAction.chain (p.evalStored largest fuel rules) effect fun v =>
      (next v).evalStored largest fuel rules
  | _, .map p f => StoredAction.map (p.evalStored largest fuel rules) f
  | _, .named label p => StoredAction.named label (p.evalStored largest fuel rules)
  | _, .boxed p => p.evalStored largest fuel rules
  | _, .deferred factory p => StoredAction.deferred factory (p.evalStored largest fuel rules)
  | _, .rule r => rules r
  | _, .closure f => StoredAction.closure f
  | _, .inspect p choose next =>
    StoredAction.inspect (p.evalStored largest fuel rules) choose fun v =>
      (next v).evalStored largest fuel rules

namespace Grammar

def callStored (g : Grammar R) (largest : Nat) : Nat → {α : Type} → R α → StoredAction α
  | 0, _, _ => fun _ => StoredRun.lift Engine.exhausted
  | fuel + 1, _, r => (g.body r).evalStored largest fuel (g.callStored largest fuel)

/-- `Grammar.run` over positions, in machine words up to `largest`. -/
def runStored (g : Grammar R) (largest fuel : Nat) (p : Parser R α) : StoredAction α :=
  p.evalStored largest fuel (g.callStored largest fuel)

/-- The closing record shows the size of a slice. -/
def verdictStored : Option (Position × α) → StoredRun Unit
  | .none => StoredRun.write .debug fun _ => pure .failed
  | .some (x, _) => StoredRun.write .debug fun _ => do
    let rest ← x.remaining
    pure (.matched rest.utf8ByteSize)

/-- `Grammar.parse` over positions. -/
def parseStored (g : Grammar R) (largest : Nat) (p : Parser R α) (text : String) :
    StoredRun (Option (Position × α)) := do
  let x := Position.start text
  StoredRun.trace x .start .ok
  StoredRun.write .debug fun _ => pure (.started text.utf8ByteSize)
  let outcome ← g.runStored largest (g.fuelFor (.ofText text)) p x
  verdictStored outcome
  pure outcome

end Grammar

/-! ## Texts that fit -/

/-- A word up to `largest` holds the size of the text, and with it each offset. -/
def Cursor.Fits (largest : Nat) (c : Cursor) : Prop :=
  c.input.utf8ByteSize ≤ largest

def Outcome.Fits (largest : Nat) : Outcome α → Prop
  | .failure => True
  | .success c _ => c.Fits largest

/-- Stepping over a character leaves the text as it is. -/
theorem Cursor.Fits.next {largest : Nat} {before rest : List Char} {ch : Char}
    (h : Cursor.Fits largest ⟨before, ch :: rest⟩) : Cursor.Fits largest ⟨ch :: before, rest⟩ := by
  have hread : (⟨before, ch :: rest⟩ : Cursor).read = .ok (ch, ⟨ch :: before, rest⟩) := rfl
  unfold Fits
  rw [input_of_read hread]
  exact h

namespace Condition

/-- Functions that are given cursors in texts that fit hand on such cursors only. -/
def fits (largest : Nat) : Condition where
  closure f := ∀ c, c.Fits largest → ∀ outcome, (f c).result = .ok outcome → outcome.Fits largest
  choice choose := ∀ c outcome, c.Fits largest → outcome.Fits largest →
    ∀ chosen, (choose c outcome).result = .ok chosen → chosen.1.Fits largest

/-- `resumeAfter` goes on at the start or behind the match, both in a text that fits. -/
theorem fits_resumeAfter {largest : Nat} {c : Cursor} {outcome : Outcome α} (hc : c.Fits largest)
    (h : outcome.Fits largest) : (Parser.resumeAfter c outcome).1.Fits largest := by
  cases outcome with
  | failure => exact hc
  | success next v => exact h

/-- The functions behind the derived parsers stay in the text that they are given. -/
theorem basic_fits (largest : Nat) : (fits largest).Basic where
  fail := by
    intro α c _ outcome h
    cases h
    trivial
  any := by
    rintro R ⟨before, _ | ⟨ch, rest⟩⟩ hc outcome h
    · cases h
      trivial
    · cases h
      exact hc.next
  look := by
    intro α c outcome hc _ chosen h
    cases h
    exact hc
  notFollowedBy := by
    intro α c outcome hc _ chosen h
    cases h
    exact hc
  firstOf := by
    intro α c outcome hc houtcome chosen h
    cases h
    exact fits_resumeAfter hc houtcome

/-- So do those that ask for an offset. -/
theorem placed_fits (largest : Nat) : (fits largest).Placed where
  mustRead := by
    rintro R ⟨before, _ | ⟨ch, rest⟩⟩ hc outcome h
    · cases h
    · cases h
      exact hc.next
  position := by
    intro R c hc outcome h
    cases h
    exact hc
  probe := by
    intro R α name p hp
    refine ⟨?_, fun _ => ⟨hp, Parser.meets_ofOption (basic_fits largest), ?_⟩⟩
    · intro c hc outcome h
      cases h
      exact hc
    · intro c outcome hc houtcome chosen h
      cases outcome with
      | failure =>
        cases h
        exact hc
      | success next v =>
        cases h
        exact houtcome

end Condition

/-! ## The same run, stored -/

/-- The run `m` on positions follows the run `n` on cursors: no check of `m` fails, both leave the
same label and the same journal, and `m` returns `view a` where `n` returns `a`. What `n` returns is
`Good`, which is what the sequels of both may rely on. -/
structure Follows (view : α → β) (Good : α → Prop) (m : StoredRun β) (n : Engine α) : Prop where
  run_eq : m.run = (fun a => .ok (view a)) <$> n
  good : ∀ level label a, (n level label).ending = .returned a → Good a

/-- `Follows.run_eq` leaves no room for a trap. -/
theorem StoredRun.ne_trap {view : α → β} {m : StoredRun β} {n : Engine α}
    (h : m.run = (fun a => .ok (view a)) <$> n) (level : Trace.Level) (label : String)
    (trap : Trap) : (m.run level label).ending ≠ .returned (.error trap) := by
  rw [h, Engine.map_apply]
  rcases (n level label).ending with a | panic | _
  · exact nofun
  · exact nofun
  · exact nofun

/-- Sequels need to agree only on what the run before them returns. -/
theorem Engine.bind_congr_of_returned {m : Engine α} {f f' : α → Engine β}
    (h : ∀ level label a, (m level label).ending = .returned a → f a = f' a) :
    (m >>= f) = m >>= f' := by
  funext level label
  show Engine.bind m f level label = Engine.bind m f' level label
  unfold Engine.bind
  have hat := h level label
  rcases hm : m level label with ⟨a | panic | _, middle, journal⟩
  · rw [hm] at hat
    dsimp only
    rw [hat a rfl]
  · rfl
  · rfl

/-- Inversion of `>>=` at a level and a label; the sequel starts under the label that the first run
left. -/
theorem Engine.exists_of_bind_returned {m : Engine α} {f : α → Engine β} {level : Trace.Level}
    {label : String} {b : β} (h : ((m >>= f) level label).ending = .returned b) :
    ∃ a middle, (m level label).ending = .returned a ∧ (f a level middle).ending = .returned b := by
  change (Engine.bind m f level label).ending = _ at h
  unfold Engine.bind at h
  rcases hm : m level label with ⟨a | panic | _, middle, journal⟩
  · rw [hm] at h
    exact ⟨a, middle, rfl, h⟩
  · rw [hm] at h
    cases h
  · rw [hm] at h
    cases h

namespace Follows

variable {view : α → β} {Good : α → Prop}

protected theorem pure (a : α) (h : Good a) : Follows view Good (pure (view a)) (pure a) where
  run_eq := rfl
  good := by
    intro level label b hb
    cases hb
    exact h

theorem lift {n : Engine α} (h : ∀ level label a, (n level label).ending = .returned a → Good a) :
    Follows id Good (StoredRun.lift n) n :=
  ⟨rfl, h⟩

/-- Simulation composes along `>>=`; the sequels are compared at what the first runs return. -/
protected theorem bind {α' β' : Type} {view' : α' → β'} {Good' : α' → Prop} {m : StoredRun β}
    {n : Engine α} {f : β → StoredRun β'} {k : α → Engine α'} (hm : Follows view Good m n)
    (hf : ∀ a, Good a → Follows view' Good' (f (view a)) (k a)) :
    Follows view' Good' (m >>= f) (n >>= k) where
  run_eq := by
    show m.run >>= ExceptT.bindCont f = _
    rw [hm.run_eq, bind_map_left, map_bind]
    -- traps are out of the question by `hm`, so the continuation is always that of a value
    refine Engine.bind_congr_of_returned fun level label a ha => ?_
    exact (hf a (hm.good level label a ha)).run_eq
  good := by
    intro level label b hb
    rcases Engine.exists_of_bind_returned hb with ⟨a, middle, ha, hb⟩
    exact (hf a (hm.good level label a ha)).good level middle b hb

/-- A run that returns nothing has nothing to store. -/
theorem of_panic (panic : Panic) :
    Follows view Good (StoredRun.lift (Engine.panic panic)) (Engine.panic panic) :=
  ⟨rfl, fun _ _ _ h => nomatch h⟩

theorem of_exhausted : Follows view Good (StoredRun.lift Engine.exhausted) Engine.exhausted :=
  ⟨rfl, fun _ _ _ h => nomatch h⟩

/-- A call of a user's function is the same call; `Good` is what the function promises. -/
theorem call_of {callback : Callback α} (h : ∀ a, callback.result = .ok a → Good a) :
    Follows id Good (StoredRun.lift (Engine.call callback)) (Engine.call callback) := by
  refine lift fun level label a ha => ?_
  rcases callback with ⟨events, fault | b⟩
  · cases ha
  · cases ha
    exact h a rfl

theorem call (callback : Callback α) :
    Follows id (fun _ => True) (StoredRun.lift (Engine.call callback)) (Engine.call callback) :=
  call_of fun _ _ => trivial

theorem build (factory : Callback Unit) :
    Follows id (fun _ => True) (StoredRun.lift (Engine.build factory)) (Engine.build factory) :=
  lift fun _ _ _ _ => trivial

/-- A record whose slices can be taken is written as it is, at the levels that keep it. -/
theorem write {severity : Trace.Severity} {record : String → Except Trap Trace.Record}
    {shown : String → Trace.Record} {n : Engine Unit}
    (hn : ∀ level label, n level label = Engine.write (shown label) level label)
    (hshown : ∀ label, record label = .ok (shown label))
    (hseverity : ∀ label, (shown label).severity = severity) :
    Follows id (fun _ => True) (StoredRun.write severity record) n where
  run_eq := by
    funext level label
    rw [Engine.map_apply, hn level label, Engine.write, hseverity label]
    show (if level.keeps severity then _ else _ : Step (Except Trap Unit)) = _
    rw [hshown label]
    cases level.keeps severity <;> rfl
  good _ _ _ _ := trivial

/-- The slice in a step record is the unread text of the cursor. -/
theorem trace (c : Cursor) (op : Trace.Operation) (note : Trace.Note) :
    Follows id (fun _ => True) (StoredRun.trace c.position op note) (Engine.trace c op note) := by
  refine write (fun _ _ => rfl) (fun label => ?_) fun _ => rfl
  rw [c.position_remaining, Cursor.remaining]
  show Except.ok _ = _
  rw [String.toList_ofList]

/-- The label is put back around what is returned, be it a value or a trap. -/
theorem withLabel (label : String) {m : StoredRun β} {n : Engine α} (h : Follows view Good m n) :
    Follows view Good (StoredRun.withLabel label m) (Engine.withLabel label n) where
  run_eq := by
    show Engine.withLabel label m.run = _
    rw [h.run_eq]
    funext level outer
    simp only [Engine.withLabel_apply, Engine.map_apply]
  good := by
    intro level outer a ha
    rw [Engine.withLabel_apply] at ha
    exact h.good level label a ha

end Follows

theorem StoredRun.check_ok_bind (a : α) (f : α → StoredRun β) : check (.ok a) >>= f = f a :=
  pure_bind a f

/-- Cutting out both slices at a stored cursor gives the cursor back. -/
theorem Cursor.position_cursor (c : Cursor) : c.position.cursor = .ok c := by
  have hbetween : Cursor.between c.consumed c.remaining = c :=
    position_injective (position_between c.cuts_position)
  unfold Position.cursor
  rw [c.position_consumed, c.position_remaining]
  show Except.ok (Cursor.between c.consumed c.remaining) = _
  rw [hbetween]

/-- `position_cursor` for outcomes. -/
theorem StoredRun.restore_stored (outcome : Outcome α) : restore outcome.stored = pure outcome := by
  cases outcome with
  | failure => rfl
  | success c v =>
    show check c.position.cursor >>= _ = _
    rw [c.position_cursor, check_ok_bind]

@[simp] theorem Outcome.stored_map (f : α → β) (outcome : Outcome α) :
    (outcome.map f).stored = outcome.stored.map (Prod.map id f) := by
  cases outcome <;> rfl

theorem Outcome.Fits.map {largest : Nat} {outcome : Outcome α} (h : outcome.Fits largest)
    (f : α → β) : (outcome.map f).Fits largest := by
  cases outcome with
  | failure => trivial
  | success c v => exact h

/-- A note shows the value and not the place of a match. -/
theorem StoredAction.noteOf_stored (shown : α → Trace.Shown) (outcome : Outcome α) :
    noteOf shown outcome.stored = Action.noteOf shown outcome := by
  cases outcome <;> rfl

/-! ## Actions follow actions -/

section

variable {largest : Nat}

theorem Follows.failure :
    Follows Outcome.stored (Outcome.Fits largest) (pure none) (pure (.failure : Outcome α)) :=
  .pure (Outcome.failure : Outcome α) trivial

theorem Follows.success {c : Cursor} (hc : c.Fits largest) (v : α) :
    Follows Outcome.stored (Outcome.Fits largest) (pure (some (c.position, v)))
      (pure (.success c v)) :=
  .pure (Outcome.success c v) hc

end

/-- At each cursor whose text fits, `p'` follows `p`, and a match of `p` hands on such a cursor. -/
def Action.StoredAs (largest : Nat) (p : Action α) (p' : StoredAction α) : Prop :=
  ∀ c, c.Fits largest → Follows Outcome.stored (Outcome.Fits largest) (p' c.position) (p c)

namespace Action

variable {largest : Nat}

theorem storedAs_succeed (value : α) : (succeed value).StoredAs largest (.succeed value) :=
  fun _ hc => .success hc value

/-- The one action that reads. Away from the end there is a character to decode, and the sum of the
offset and its size is the offset of the next cursor, so all three checks pass. -/
theorem storedAs_readIf (op : Trace.Operation) (accepts : Char → Callback Bool) :
    (readIf op accepts).StoredAs largest (.readIf largest op accepts) := by
  intro c hc
  refine (Follows.trace c op .opened).bind fun _ _ => ?_
  -- after this, the stored action asks the same questions as the action on cursors
  rw [c.position_atEnd, c.position_read hc]
  rcases c with ⟨before, _ | ⟨ch, rest⟩⟩
  · exact (Follows.trace _ op .noMatch).bind fun _ _ => .failure
  · refine (Follows.call (accepts ch)).bind fun accepted _ => ?_
    cases accepted with
    | false => exact (Follows.trace _ op .noMatch).bind fun _ _ => .failure
    | true =>
      exact (Follows.trace _ op (.value (.char ch))).bind fun _ _ =>
        .success hc.next ch

/-- The end is a comparison of two numbers, by `position_atEnd`. -/
theorem storedAs_endOfInput : endOfInput.StoredAs largest .endOfInput := by
  intro c hc
  unfold endOfInput StoredAction.endOfInput
  rw [c.position_atEnd]
  cases c.atEnd with
  | true =>
    exact (Follows.trace c .endOfInput (.value .unit)).bind fun _ _ =>
      .success hc ()
  | false =>
    exact (Follows.trace c .endOfInput .noMatch).bind fun _ _ => .failure

/-- Run lemma for sequences. By induction on the list, for every count of the parts before. -/
theorem storedAs_seqFrom {ι : Type} {p : ι → Action α} {p' : ι → StoredAction α}
    (h : ∀ i, (p i).StoredAs largest (p' i)) (items : List ι) (done : Nat) :
    (seqFrom done (items.map p)).StoredAs largest (.seqFrom done (items.map p')) := by
  induction items generalizing done with
  | nil =>
    intro c hc
    exact (Follows.trace c (.seq done) .ok).bind fun _ _ => .success hc []
  | cons i items ih =>
    intro c hc
    refine (h i c hc).bind fun outcome houtcome => ?_
    cases outcome with
    | failure => exact (Follows.trace c (.seq done) .noMatch).bind fun _ _ => .failure
    | success next v =>
      refine (ih (done + 1) next houtcome).bind fun later hlater => ?_
      rw [← Outcome.stored_map]
      exact .pure _ (hlater.map _)

/-- `storedAs_seqFrom` for parts that are given by their number. -/
theorem storedAs_seq {n : Nat} {p : Fin n → Action α} {p' : Fin n → StoredAction α}
    (h : ∀ i, (p i).StoredAs largest (p' i)) :
    (seq (List.ofFn p)).StoredAs largest (.seq (List.ofFn p')) := by
  have hp : List.ofFn p = (List.ofFn id).map p := List.map_ofFn.symm
  have hp' : List.ofFn p' = (List.ofFn id).map p' := List.map_ofFn.symm
  rw [hp, hp']
  exact storedAs_seqFrom h _ 0

/-- A text is the sequence of its characters, with a record around it. -/
theorem storedAs_str (text : String) : (str text).StoredAs largest (.str largest text) := by
  intro c hc
  have hchars : ∀ ch, (char ch).StoredAs largest (.char largest ch) :=
    fun _ => storedAs_readIf _ _
  refine (storedAs_seqFrom hchars text.toList 0 c hc).bind fun chars hfits => ?_
  rw [← Outcome.stored_map]
  dsimp only
  rw [StoredAction.noteOf_stored]
  exact (Follows.trace c (.str text) _).bind fun _ _ => .pure _ (hfits.map _)

/-- The second attempt starts at the position of the first. -/
theorem storedAs_or {left right : Action α} {left' right' : StoredAction α}
    (hl : left.StoredAs largest left') (hr : right.StoredAs largest right') :
    (or left right).StoredAs largest (.or left' right') := by
  intro c hc
  refine (hl c hc).bind fun outcome houtcome => ?_
  cases outcome with
  | failure => exact (Follows.trace c .choice .opened).bind fun _ _ => hr c hc
  | success next v => exact .success houtcome v

/-- The function sees the value only. -/
theorem storedAs_map {p : Action α} {p' : StoredAction α} (hp : p.StoredAs largest p')
    (f : α → Callback β) : (map p f).StoredAs largest (.map p' f) := by
  intro c hc
  refine (hp c hc).bind fun outcome houtcome => ?_
  cases outcome with
  | failure => exact .failure
  | success next v => exact (Follows.call (f v)).bind fun w _ => .success houtcome w

/-- `option` is a choice, and its check of the outcome is the same. -/
theorem storedAs_option {p : Action α} {p' : StoredAction α} (hp : p.StoredAs largest p') :
    (option p).StoredAs largest (.option p') := by
  intro c hc
  refine (storedAs_or (storedAs_map hp _) (storedAs_succeed none) c hc).bind fun outcome h => ?_
  cases outcome with
  | failure => exact .of_panic _
  | success next found => exact .success h found

/-- Run lemma for loops. The loop hands on the last cursor in any case, so it fits as well. By
induction on the rounds. -/
theorem follows_many {p : Action α} {p' : StoredAction α} (hp : p.StoredAs largest p')
    (fuel : Nat) (c : Cursor) (hc : c.Fits largest) :
    Follows (Prod.map Cursor.position id) (fun found => found.1.Fits largest)
      (StoredAction.many p' fuel c.position) (many p fuel c) := by
  induction fuel generalizing c with
  | zero => exact .of_exhausted
  | succ fuel ih =>
    refine (hp c hc).bind fun outcome houtcome => ?_
    cases outcome with
    | failure => exact .pure (c, []) hc
    | success next v =>
      exact (ih next houtcome).bind fun found hfound => .pure (found.1, v :: found.2) hfound

/-- `follows_many` with a record before and after the loop. -/
theorem storedAs_star {p : Action α} {p' : StoredAction α} (hp : p.StoredAs largest p')
    (fuel : Nat) : (star fuel p).StoredAs largest (.star fuel p') := by
  intro c hc
  refine (Follows.trace c (.star none) .opened).bind fun _ _ => ?_
  refine (follows_many hp fuel c hc).bind fun found hfound => ?_
  exact (Follows.trace found.1 _ .ok).bind fun _ _ => .success hfound found.2

/-- The first round is outside of the loop. -/
theorem storedAs_plus {p : Action α} {p' : StoredAction α} (hp : p.StoredAs largest p')
    (fuel : Nat) : (plus fuel p).StoredAs largest (.plus fuel p') := by
  intro c hc
  refine (Follows.trace c (.plus none) .opened).bind fun _ _ => ?_
  refine (hp c hc).bind fun outcome houtcome => ?_
  cases outcome with
  | failure => exact (Follows.trace c (.plus none) .noMatch).bind fun _ _ => .failure
  | success next v =>
    refine (follows_many hp fuel next houtcome).bind fun found hfound => ?_
    exact (Follows.trace found.1 _ .ok).bind fun _ _ => .success hfound (v :: found.2)

/-- The next parser starts where the first one ended, which fits. -/
theorem storedAs_chain {p : Action α} {p' : StoredAction α} {next : α → Action β}
    {next' : α → StoredAction β} (hp : p.StoredAs largest p') (effect : α → Callback Unit)
    (hnext : ∀ v, (next v).StoredAs largest (next' v)) :
    (chain p effect next).StoredAs largest (.chain p' effect next') := by
  intro c hc
  refine (hp c hc).bind fun outcome houtcome => ?_
  cases outcome with
  | failure => exact .failure
  | success after v => exact (Follows.call (effect v)).bind fun _ _ => hnext v after houtcome

/-- What the function is shown are the cursors that were stored, so it chooses as before. -/
theorem storedAs_inspect {p : Action α} {p' : StoredAction α}
    {choose : Cursor → Outcome α → Callback (Cursor × γ)} {next : γ → Action β}
    {next' : γ → StoredAction β} (hp : p.StoredAs largest p')
    (hchoose : (Condition.fits largest).choice choose)
    (hnext : ∀ v, (next v).StoredAs largest (next' v)) :
    (inspect p choose next).StoredAs largest (.inspect p' choose next') := by
  intro c hc
  refine (hp c hc).bind fun outcome houtcome => ?_
  rw [c.position_cursor, StoredRun.check_ok_bind, StoredRun.restore_stored, pure_bind]
  exact (Follows.call_of (hchoose c outcome hc houtcome)).bind fun chosen hchosen =>
    hnext chosen.2 chosen.1 hchosen

/-- A user's parser is shown the cursor that was stored. -/
theorem storedAs_closure {f : Cursor → Callback (Outcome α)}
    (hf : (Condition.fits largest).closure f) :
    StoredAs largest (fun c => Engine.call (f c)) (.closure f) := by
  intro c hc
  show Follows _ _ (StoredRun.check c.position.cursor >>= _) (Engine.call (f c))
  rw [c.position_cursor, StoredRun.check_ok_bind]
  have hcall : Follows Outcome.stored (Outcome.Fits largest)
      (StoredRun.lift (Engine.call (f c)) >>= fun outcome => pure outcome.stored)
      (Engine.call (f c) >>= pure) :=
    (Follows.call_of (hf c hc)).bind fun outcome houtcome => .pure outcome houtcome
  rwa [bind_pure] at hcall

/-- `Follows.withLabel` around the record and the parser. -/
theorem storedAs_named {p : Action α} {p' : StoredAction α} (hp : p.StoredAs largest p')
    (label : String) : (named label p).StoredAs largest (.named label p') := by
  intro c hc
  exact .withLabel label ((Follows.trace c (.named label) .opened).bind fun _ _ => hp c hc)

theorem storedAs_deferred {p : Action α} {p' : StoredAction α} (hp : p.StoredAs largest p')
    (factory : Callback Unit) : (deferred factory p).StoredAs largest (.deferred factory p') :=
  fun c hc => (Follows.build factory).bind fun _ _ => hp c hc

end Action

/-! ## No run traps -/

/-- Over rules whose stored actions follow their actions, so does every parser. By structural
induction. -/
theorem Parser.storedAs_eval {largest fuel : Nat} {rules : {α : Type} → R α → Action α}
    {rules' : {α : Type} → R α → StoredAction α}
    (hrules : ∀ {α : Type} (r : R α), (rules r).StoredAs largest (rules' r)) {p : Parser R α}
    (hp : p.Meets (.fits largest)) :
    (p.eval fuel rules).StoredAs largest (p.evalStored largest fuel rules') := by
  induction p with
  | ok => exact Action.storedAs_succeed ()
  | succeed value => exact Action.storedAs_succeed value
  | endOfInput => exact Action.storedAs_endOfInput
  | like | char | oneOf => exact Action.storedAs_readIf _ _
  | str text => exact Action.storedAs_str text
  | succeedWith make =>
    exact fun c hc => (Follows.call make).bind fun value _ => .success hc value
  | seqOf n items ih => exact Action.storedAs_seq fun i => ih i (hp i)
  | or left right ihl ihr => exact Action.storedAs_or (ihl hp.1) (ihr hp.2)
  | star p ih => exact Action.storedAs_star (ih hp) fuel
  | plus p ih => exact Action.storedAs_plus (ih hp) fuel
  | option p ih => exact Action.storedAs_option (ih hp)
  | chain p effect next ihp ihn =>
    exact Action.storedAs_chain (ihp hp.1) effect fun v => ihn v (hp.2 v)
  | map p f ih => exact Action.storedAs_map (ih hp) f
  | named label p ih => exact Action.storedAs_named (ih hp) label
  | boxed p ih => exact ih hp
  | deferred factory p ih => exact Action.storedAs_deferred (ih hp) factory
  | rule r => exact hrules r
  | closure f => exact Action.storedAs_closure hp
  | inspect p choose next ihp ihn =>
    exact Action.storedAs_inspect (ihp hp.1) hp.2.2 fun v => ihn v (hp.2.1 v)

namespace Grammar

variable {g : Grammar R} {largest : Nat}

/-- The rules themselves. By induction on fuel. -/
theorem storedAs_call (hg : g.Meets (.fits largest)) (fuel : Nat) (r : R α) :
    (g.call fuel r).StoredAs largest (g.callStored largest fuel r) := by
  induction fuel generalizing α with
  | zero => exact fun _ _ => .of_exhausted
  | succ fuel ih => exact Parser.storedAs_eval (fun r => ih r) (hg r)

/-- A run over positions follows the run over cursors. -/
theorem storedAs_run (hg : g.Meets (.fits largest)) {p : Parser R α} (hp : p.Meets (.fits largest))
    (fuel : Nat) : (g.run fuel p).StoredAs largest (g.runStored largest fuel p) :=
  Parser.storedAs_eval (fun r => storedAs_call hg fuel r) hp

/-- A run over positions is `Grammar.run` with its cursors stored: it ends in the same way, leaves
the same label and journal, and so returns no trap. -/
theorem runStored_position (hg : g.Meets (.fits largest)) {p : Parser R α}
    (hp : p.Meets (.fits largest)) {c : Cursor} (hc : c.input.utf8ByteSize ≤ largest) (fuel : Nat) :
    (g.runStored largest fuel p c.position).run =
      (fun outcome => .ok outcome.stored) <$> g.run fuel p c :=
  (storedAs_run hg hp fuel c hc).run_eq

-- the checks are real: an offset inside of a character, and a word that is too small, are trapped
example : ((Grammar.none.runStored 3 0 (.char '1') ⟨"é1", 1⟩).run .off "").ending =
    .returned (.error .badCut) := by rfl

example : ((Grammar.none.runStored 2 0 (.char '1') ⟨"é1", 2⟩).run .off "").ending =
    .returned (.error .overflow) := by rfl

/-- The closing record, whose slice is the unread text. -/
theorem follows_verdict (outcome : Outcome α) :
    Follows id (fun _ => True) (verdictStored outcome.stored) (Engine.write (verdict outcome)) := by
  cases outcome with
  | failure => exact .write (fun _ _ => rfl) (fun _ => rfl) fun _ => rfl
  | success c v =>
    refine .write (fun _ _ => rfl) (fun _ => ?_) fun _ => rfl
    rw [c.position_remaining, Cursor.remaining]
    show Except.ok (Trace.Record.matched _) = _
    rw [Text.utf8ByteSize_ofList]
    rfl

/-- A whole parse, with its records before and after the run. -/
theorem follows_parse (hg : g.Meets (.fits largest)) {p : Parser R α}
    (hp : p.Meets (.fits largest)) {text : String} (htext : text.utf8ByteSize ≤ largest) :
    Follows Outcome.stored (Outcome.Fits largest) (g.parseStored largest p text)
      (g.parse p text) := by
  have hc : (Cursor.ofText text).Fits largest := by
    unfold Cursor.Fits
    rw [Cursor.input_ofText]
    exact htext
  have hstart := Follows.trace (.ofText text) .start .ok
  have hrun := storedAs_run hg hp (g.fuelFor (.ofText text)) (.ofText text) hc
  rw [Cursor.position_start] at hstart hrun
  unfold parse Engine.start
  simp only [bind_assoc, pure_bind]
  refine hstart.bind fun _ _ => ?_
  refine .bind (.write (fun _ _ => rfl) (fun _ => ?_) fun _ => rfl) fun _ _ => ?_
  · rw [← Text.byteSize_toList]
    rfl
  · refine hrun.bind fun outcome houtcome => ?_
    exact (follows_verdict outcome).bind fun _ _ => .pure outcome houtcome

/-- The same for whole parses, with the records around the run. -/
theorem parseStored_eq (hg : g.Meets (.fits largest)) {p : Parser R α}
    (hp : p.Meets (.fits largest)) {text : String} (htext : text.utf8ByteSize ≤ largest) :
    (g.parseStored largest p text).run =
      (fun outcome => .ok outcome.stored) <$> g.parse p text :=
  (follows_parse hg hp htext).run_eq

end Grammar

/-- The functions behind descriptions keep to the text that they are given, so nothing is asked of
them. -/
theorem Description.parseStored_eq (rules : List (String × Description)) (d : Description)
    {largest : Nat} {text : String} (htext : text.utf8ByteSize ≤ largest) :
    ((grammar rules).parseStored largest d.toParser text).run =
      (fun outcome => .ok outcome.stored) <$> (grammar rules).parse d.toParser text :=
  Grammar.parseStored_eq
    (meets_grammar (Condition.basic_fits largest) rules (.inl (Condition.placed_fits largest)))
    (meets_toParser (Condition.basic_fits largest) d (.inl (Condition.placed_fits largest))) htext

theorem Json.parseStored_eq {largest : Nat} {text : String} (htext : text.utf8ByteSize ≤ largest) :
    (grammar.parseStored largest document text).run =
      (fun outcome => .ok outcome.stored) <$> grammar.parse document text :=
  Grammar.parseStored_eq (meets_grammar (Condition.basic_fits largest)) meets_document htext

end ParserCombinators
