import Mathlib.Data.List.Forall2
import ParserCombinators.Proofs.Endings

/-!
# Scoping — labels without a cell

The label in force is kept in a cell. A named parser writes its own label there and puts the outer
one back when it is over, however it ends. This module gives parsers a second meaning, in which
there is no such cell: the named parsers that are running are handed down as an argument, and a
record is written under the label of the innermost of them. The two meanings agree, records, events
and endings alike.

- `Account`: what a run comes to, without a label; a monad
- `Scope`: the named parsers that are running, and the label outside of all of them
- `Scoped.eval`, `Grammar.account`: the second meaning of parsers and grammars
- `Engine.ToldBy`: a run that does what an account says, and leaves the label as it found it
- `Grammar.labels_are_scoped`: every run of every parser does
-/

namespace ParserCombinators

variable {R : Type → Type} {α β : Type}

/-! ## Accounts and scopes -/

/-- How a run ends and what it leaves behind. No label is part of it. -/
structure Account (α : Type) where
  ending : Ending α
  journal : Journal

namespace Account

protected def bind (x : Account α) (f : α → Account β) : Account β :=
  match x with
  | ⟨.returned a, journal⟩ => ⟨(f a).ending, journal ++ (f a).journal⟩
  | ⟨.panicked panic, journal⟩ => ⟨.panicked panic, journal⟩
  | ⟨.exhausted, journal⟩ => ⟨.exhausted, journal⟩

instance : Monad Account where
  pure a := ⟨.returned a, []⟩
  bind := Account.bind

def exhausted : Account α :=
  ⟨.exhausted, []⟩

def build (factory : Callback Unit) : Account Unit :=
  ⟨Ending.ofCallback factory, factory.events.map .built⟩

def call (callback : Callback α) : Account α :=
  ⟨Ending.ofCallback callback, callback.events.map .event⟩

end Account

/-- Where a run stands among named parsers. -/
structure Scope where
  /-- The label outside of all of them. -/
  outer : String
  /-- The labels of those that are running, the innermost first. -/
  running : List String

namespace Scope

/-- The label of the innermost named parser that is running, or else the outer label. -/
def label (s : Scope) : String :=
  s.running.headD s.outer

def enter (s : Scope) (label : String) : Scope :=
  { s with running := label :: s.running }

@[simp] theorem label_enter (s : Scope) (label : String) : (s.enter label).label = label := rfl

end Scope

/-! ## The second meaning -/

/-- What a parser does in a scope, at a cursor. -/
abbrev Scoped (α : Type) : Type := Scope → Cursor → Account (Outcome α)

namespace Scoped

section

variable (level : Trace.Level)

/-- A step record, under the label of the scope. -/
def record (s : Scope) (c : Cursor) (op : Trace.Operation) (note : Trace.Note) : Account Unit :=
  ⟨.returned (), if level.keeps .trace then [.record (.step c.rest s.label op note)] else []⟩

def readIf (op : Trace.Operation) (accepts : Char → Callback Bool) : Scoped Char := fun s c => do
  record level s c op .opened
  match c.rest with
  | [] =>
    record level s c op .noMatch
    pure .failure
  | ch :: rest =>
    match ← Account.call (accepts ch) with
    | false =>
      record level s c op .noMatch
      pure .failure
    | true =>
      record level s c op (.value (.char ch))
      pure (.success ⟨ch :: c.before, rest⟩ ch)

/-- The rest of a sequence of which `done` parsers have matched. -/
def seqFrom (done : Nat) : List (Scoped α) → Scoped (List α)
  | [], s, c => do
    record level s c (.seq done) .ok
    pure (.success c [])
  | p :: ps, s, c => do
    match ← p s c with
    | .failure =>
      record level s c (.seq done) .noMatch
      pure .failure
    | .success next v =>
      let outcome ← seqFrom (done + 1) ps s next
      pure (outcome.map (v :: ·))

def str (text : String) : Scoped String := fun s c => do
  match ← seqFrom level 0 (text.toList.map fun ch => readIf level (.char ch) fun x => pure (x == ch))
      s c with
  | .failure =>
    record level s c (.str text) .noMatch
    pure .failure
  | .success next chars =>
    record level s c (.str text) (.value (.text (String.ofList chars)))
    pure (.success next (String.ofList chars))

end

/-- Runs `p` until it fails, at most `fuel` times; the last cursor and all values. -/
def many (p : Scoped α) : Nat → Scope → Cursor → Account (Cursor × List α)
  | 0, _, _ => Account.exhausted
  | fuel + 1, s, c => do
    match ← p s c with
    | .failure => pure (c, [])
    | .success next v =>
      let (last, vs) ← many p fuel s next
      pure (last, v :: vs)

/-- What a parser does, given what the rules do. All parts of a parser run in the scope of the
whole, but for what is inside of a named parser; its label is in force for its own record already.
-/
def eval (level : Trace.Level) (fuel : Nat) (rules : {α : Type} → R α → Scoped α) :
    {α : Type} → Parser R α → Scoped α
  | _, .ok, _, c => pure (.success c ())
  | _, .endOfInput, s, c => do
    match c.rest with
    | [] =>
      record level s c .endOfInput (.value .unit)
      pure (.success c ())
    | _ :: _ =>
      record level s c .endOfInput .noMatch
      pure .failure
  | _, .like accepts, s, c => readIf level .like accepts s c
  | _, .char ch, s, c => readIf level (.char ch) (fun x => pure (x == ch)) s c
  | _, .oneOf set, s, c => readIf level (.oneOf set) (fun x => pure (set.toList.contains x)) s c
  | _, .str text, s, c => str level text s c
  | _, .succeed value, _, c => pure (.success c value)
  | _, .succeedWith make, _, c => do
    let value ← Account.call make
    pure (.success c value)
  | _, .seqOf n items, s, c =>
    seqFrom level 0 (List.ofFn fun i : Fin n => eval level fuel rules (items i)) s c
  | _, .or left right, s, c => do
    match ← eval level fuel rules left s c with
    | .failure =>
      record level s c .choice .opened
      eval level fuel rules right s c
    | .success next v => pure (.success next v)
  | _, .star p, s, c => do
    record level s c (.star none) .opened
    let (last, vs) ← many (eval level fuel rules p) fuel s c
    record level s last (.star (some vs.length)) .ok
    pure (.success last vs)
  | _, .plus p, s, c => do
    record level s c (.plus none) .opened
    match ← eval level fuel rules p s c with
    | .failure =>
      record level s c (.plus none) .noMatch
      pure .failure
    | .success next v =>
      let (last, vs) ← many (eval level fuel rules p) fuel s next
      record level s last (.plus (some (vs.length + 1))) .ok
      pure (.success last (v :: vs))
  | _, .option p, s, c => do
    match ← eval level fuel rules p s c with
    | .failure =>
      record level s c .choice .opened
      pure (.success c none)
    | .success next v => pure (.success next (some v))
  | _, .chain p effect next, s, c => do
    match ← eval level fuel rules p s c with
    | .failure => pure .failure
    | .success after v =>
      Account.call (effect v)
      eval level fuel rules (next v) s after
  | _, .map p f, s, c => do
    match ← eval level fuel rules p s c with
    | .failure => pure .failure
    | .success next v =>
      let w ← Account.call (f v)
      pure (.success next w)
  | _, .named label p, s, c => do
    record level (s.enter label) c (.named label) .opened
    eval level fuel rules p (s.enter label) c
  | _, .boxed p, s, c => eval level fuel rules p s c
  | _, .deferred factory p, s, c => do
    Account.build factory
    eval level fuel rules p s c
  | _, .rule r, s, c => rules r s c
  | _, .closure f, _, c => Account.call (f c)
  | _, .inspect p choose next, s, c => do
    let outcome ← eval level fuel rules p s c
    let (resume, choice) ← Account.call (choose c outcome)
    eval level fuel rules (next choice) s resume

end Scoped

namespace Grammar

/-- What a rule does in a scope; each call inside it has one unit of fuel less. -/
def accountRule (g : Grammar R) (level : Trace.Level) : Nat → {α : Type} → R α → Scoped α
  | 0, _, _ => fun _ _ => Account.exhausted
  | fuel + 1, _, r => Scoped.eval level fuel (g.accountRule level fuel) (g.body r)

def account (g : Grammar R) (level : Trace.Level) (fuel : Nat) (p : Parser R α) : Scoped α :=
  Scoped.eval level fuel (g.accountRule level fuel) p

end Grammar

/-! ## Runs that do what an account says -/

namespace Engine

/-- In every scope, and under its label, the run ends and leaves behind what the account says, and
the label is afterwards as it was. -/
def ToldBy (level : Trace.Level) (m : Engine α) (account : Scope → Account α) : Prop :=
  ∀ s, m level s.label = ⟨(account s).ending, s.label, (account s).journal⟩

namespace ToldBy

variable {level : Trace.Level}

protected theorem pure (a : α) : (pure a : Engine α).ToldBy level fun _ => pure a :=
  fun _ => rfl

protected theorem exhausted : (exhausted : Engine α).ToldBy level fun _ => Account.exhausted :=
  fun _ => rfl

protected theorem trace (c : Cursor) (op : Trace.Operation) (note : Trace.Note) :
    (trace c op note).ToldBy level fun s => Scoped.record level s c op note :=
  fun _ => rfl

/-- A call is told by its ending and its events; the label does not matter to it. -/
protected theorem callAs (entry : String → Trace.Entry) (callback : Callback α) :
    (callAs entry callback).ToldBy level fun _ =>
      ⟨Ending.ofCallback callback, callback.events.map entry⟩ := by
  intro s
  rcases callback with ⟨events, fault | a⟩
  · rfl
  · rfl

protected theorem build (factory : Callback Unit) :
    (build factory).ToldBy level fun _ => .build factory :=
  .callAs _ factory

protected theorem call (callback : Callback α) :
    (call callback).ToldBy level fun _ => .call callback :=
  .callAs _ callback

/-- Composition along `>>=`: the account of the sequel is taken in the same scope. -/
protected theorem bind {m : Engine α} {account : Scope → Account α} {f : α → Engine β}
    {sequel : α → Scope → Account β} (hm : m.ToldBy level account)
    (hf : ∀ a, (f a).ToldBy level (sequel a)) :
    (m >>= f).ToldBy level fun s => account s >>= fun a => sequel a s := by
  intro s
  show Engine.bind m f level s.label =
    ⟨((account s).bind fun a => sequel a s).ending, s.label,
      ((account s).bind fun a => sequel a s).journal⟩
  unfold Engine.bind
  rw [hm s]
  -- the first half puts the label back, so that the second begins in the same scope
  rcases account s with ⟨a | panic | _, journal⟩
  · simp only [hf a s]
    rfl
  · rfl
  · rfl

/-- The account of the inside is taken in the inner scope; the label is put back outside of it. -/
protected theorem withLabel (label : String) {m : Engine α} {account : Scope → Account α}
    (hm : m.ToldBy level account) :
    (withLabel label m).ToldBy level fun s => account (s.enter label) := by
  intro s
  have hinner := hm (s.enter label)
  rw [Scope.label_enter] at hinner
  rw [withLabel_apply, hinner]

end ToldBy

end Engine

open Engine

def Action.ToldBy (level : Trace.Level) (p : Action α) (account : Scoped α) : Prop :=
  ∀ c, (p c).ToldBy level fun s => account s c

namespace Action

variable {level : Trace.Level}

/-- `readIf` writes its records under the label of the scope. -/
theorem toldBy_readIf (op : Trace.Operation) (accepts : Char → Callback Bool) :
    (readIf op accepts).ToldBy level (Scoped.readIf level op accepts) := by
  rintro ⟨before, _ | ⟨ch, rest⟩⟩
  · exact .bind (.trace _ _ _) fun _ => .bind (.trace _ _ _) fun _ => .pure _
  · refine .bind (.trace _ _ _) fun _ => .bind (.call _) fun accepted => ?_
    cases accepted with
    | false => exact .bind (.trace _ _ _) fun _ => .pure _
    | true => exact .bind (.trace _ _ _) fun _ => .pure _

/-- Run lemma for sequences: all parts run in one scope. By induction on the parts. -/
theorem toldBy_seqFrom (done : Nat) {ps : List (Action α)} {accounts : List (Scoped α)}
    (h : List.Forall₂ (ToldBy level) ps accounts) :
    (seqFrom done ps).ToldBy level (Scoped.seqFrom level done accounts) := by
  induction h generalizing done with
  | nil => exact fun c => .bind (.trace _ _ _) fun _ => .pure _
  | cons hfirst _ ih =>
    intro c
    refine .bind (hfirst c) fun outcome => ?_
    cases outcome with
    | failure => exact .bind (.trace _ _ _) fun _ => .pure _
    | success next v => exact .bind (ih (done + 1) next) fun _ => .pure _

/-- `str` is a sequence of characters. -/
theorem toldBy_str (text : String) : (str text).ToldBy level (Scoped.str level text) := by
  intro c
  have hchars : ∀ chars : List Char, List.Forall₂ (ToldBy level) (chars.map char)
      (chars.map fun ch => Scoped.readIf level (.char ch) fun x => pure (x == ch)) := by
    intro chars
    induction chars with
    | nil => exact .nil
    | cons ch chars ih => exact .cons (toldBy_readIf _ _) ih
  refine .bind (toldBy_seqFrom 0 (hchars text.toList) c) fun outcome => ?_
  cases outcome with
  | failure => exact .bind (.trace _ _ _) fun _ => .pure _
  | success next chars => exact .bind (.trace _ _ _) fun _ => .pure _

/-- Run lemma for loops: all rounds run in one scope. By induction on the rounds. -/
theorem toldBy_many {p : Action α} {account : Scoped α} (hp : p.ToldBy level account) (fuel : Nat)
    (c : Cursor) : (many p fuel c).ToldBy level fun s => Scoped.many account fuel s c := by
  induction fuel generalizing c with
  | zero => exact .exhausted
  | succ fuel ih =>
    refine .bind (hp c) fun outcome => ?_
    cases outcome with
    | failure => exact .pure _
    | success next v => exact .bind (ih next) fun _ => .pure _

end Action

/-! ## Parsers and grammars -/

/-- Over rules that are told by their accounts, so is a parser. By structural induction; only
`named` enters a scope. -/
theorem Parser.toldBy_eval {level : Trace.Level} {fuel : Nat}
    {rules : {α : Type} → R α → Action α} {accounts : {α : Type} → R α → Scoped α}
    (hrules : ∀ {α : Type} (r : R α), (rules r).ToldBy level (accounts r)) (p : Parser R α) :
    (p.eval fuel rules).ToldBy level (Scoped.eval level fuel accounts p) := by
  induction p with
  | ok | succeed => exact fun c => .pure _
  | endOfInput =>
    rintro ⟨before, _ | ⟨ch, rest⟩⟩
    · exact .bind (.trace _ _ _) fun _ => .pure _
    · exact .bind (.trace _ _ _) fun _ => .pure _
  | like | char | oneOf => exact Action.toldBy_readIf _ _
  | str text => exact Action.toldBy_str text
  | succeedWith make => exact fun c => .bind (.call _) fun _ => .pure _
  | seqOf n items ih =>
    refine Action.toldBy_seqFrom 0 ?_
    rw [List.forall₂_iff_get]
    refine ⟨by simp, fun i _ _ => ?_⟩
    simpa using ih _
  | or left right ihl ihr =>
    intro c
    refine .bind (ihl c) fun outcome => ?_
    cases outcome with
    | failure => exact .bind (.trace _ _ _) fun _ => ihr c
    | success next v => exact .pure _
  | star p ih =>
    intro c
    refine .bind (.trace _ _ _) fun _ => .bind (Action.toldBy_many ih fuel c) fun found => ?_
    exact .bind (.trace _ _ _) fun _ => .pure _
  | plus p ih =>
    intro c
    refine .bind (.trace _ _ _) fun _ => .bind (ih c) fun outcome => ?_
    cases outcome with
    | failure => exact .bind (.trace _ _ _) fun _ => .pure _
    | success next v =>
      refine .bind (Action.toldBy_many ih fuel next) fun found => ?_
      exact .bind (.trace _ _ _) fun _ => .pure _
  | option p ih =>
    intro c
    show (Action.option (p.eval fuel rules) c).ToldBy level _
    rw [Action.option_eq]
    refine .bind (ih c) fun outcome => ?_
    cases outcome with
    | failure => exact .bind (.trace _ _ _) fun _ => .pure _
    | success next v => exact .pure _
  | chain p effect next ihp ihn =>
    intro c
    simp only [Parser.eval, Scoped.eval]
    refine .bind (ihp c) fun outcome => ?_
    cases outcome with
    | failure => exact .pure _
    | success after v => exact .bind (.call _) fun _ => ihn v after
  | map p f ih =>
    intro c
    refine .bind (ih c) fun outcome => ?_
    cases outcome with
    | failure => exact .pure _
    | success next v => exact .bind (.call _) fun _ => .pure _
  | named label p ih =>
    intro c
    -- the record of a named parser already stands inside its scope
    have hinside : (Engine.trace c (.named label) .opened >>= fun _ => p.eval fuel rules c).ToldBy
        level fun s => Scoped.record level s c (.named label) .opened >>= fun _ =>
          Scoped.eval level fuel accounts p s c :=
      .bind (.trace _ _ _) fun _ => ih c
    exact hinside.withLabel label
  | boxed p ih => exact ih
  | deferred factory p ih => exact fun c => .bind (.build factory) fun _ => ih c
  | rule r => exact hrules r
  | closure f => exact fun c => .call _
  | inspect p choose next ihp ihn =>
    exact fun c => .bind (ihp c) fun _ => .bind (.call _) fun chosen => ihn chosen.2 chosen.1

namespace Grammar

variable (g : Grammar R)

/-- Rules are told by their accounts. By induction on fuel. -/
theorem toldBy_call (level : Trace.Level) (fuel : Nat) (r : R α) :
    (g.call fuel r).ToldBy level (g.accountRule level fuel r) := by
  induction fuel generalizing α with
  | zero => exact fun c => .exhausted
  | succ fuel ih => exact Parser.toldBy_eval (fun r => ih r) (g.body r)

/-- Every run is told by its account. -/
theorem toldBy_run (level : Trace.Level) (fuel : Nat) (p : Parser R α) :
    (g.run fuel p).ToldBy level (g.account level fuel p) :=
  Parser.toldBy_eval (fun r => g.toldBy_call level fuel r) p

/-- Whatever label is in force when a parser begins, it is in force again when the parser is over,
by a match, a failure or a panic. The ending, and all that was written on the way, is what the
account says in which labels are handed down: each record stands under the label of the innermost
named parser that was running, and outside of all of them under the label of the beginning. -/
theorem labels_are_scoped (fuel : Nat) (p : Parser R α) (c : Cursor) (level : Trace.Level)
    (label : String) :
    (g.run fuel p c level label).label = label ∧
    (g.run fuel p c level label).ending = (g.account level fuel p ⟨label, []⟩ c).ending ∧
    (g.run fuel p c level label).journal = (g.account level fuel p ⟨label, []⟩ c).journal := by
  have hrun := g.toldBy_run level fuel p c ⟨label, []⟩
  change g.run fuel p c level label = _ at hrun
  rw [hrun]
  exact ⟨rfl, rfl, rfl⟩

end Grammar

end ParserCombinators
