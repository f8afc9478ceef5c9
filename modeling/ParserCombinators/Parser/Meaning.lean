import ParserCombinators.Parser.Basic

/-!
# What parsers mean, and grammars

A parser means an action, once its rules mean actions. A grammar gives each rule a body; since rules
may refer to one another, their meaning is approached by fuel, which bounds the depth of rule calls
and the length of repetitions.

- `Parser.eval`: the action of a parser, over the actions of its rules
- `Parser.eval_seq`: sequences, by the list of their actions
- `Grammar`: a body for each rule
- `Grammar.call`, `Grammar.run`: rules and parsers at a given fuel
- `Grammar.fuelFor`: fuel enough for every grammar that does not loop
- `Grammar.runAt`, `Grammar.parse`: a run from a cursor, and a whole parse of a text with its
  records
-/

namespace ParserCombinators

namespace Parser

variable {R : Type → Type}

/-- The action of a parser, given the actions of the rules. -/
def eval (fuel : Nat) (rules : {α : Type} → R α → Action α) : {α : Type} → Parser R α → Action α
  | _, .ok => Action.succeed ()
  | _, .endOfInput => Action.endOfInput
  | _, .like accepts => Action.readIf .like accepts
  | _, .char c => Action.char c
  | _, .oneOf set => Action.readIf (.oneOf set) fun c => pure (set.toList.contains c)
  | _, .str text => Action.str text
  | _, .succeed value => Action.succeed value
  | _, .succeedWith make => fun c => do
    let value ← Engine.call make
    pure (.success c value)
  | _, .seqOf n items => Action.seq (List.ofFn fun i : Fin n => (items i).eval fuel rules)
  | _, .or left right => Action.or (left.eval fuel rules) (right.eval fuel rules)
  | _, .star p => Action.star fuel (p.eval fuel rules)
  | _, .plus p => Action.plus fuel (p.eval fuel rules)
  | _, .option p => Action.option (p.eval fuel rules)
  | _, .chain p effect next =>
    Action.chain (p.eval fuel rules) effect fun v => (next v).eval fuel rules
  | _, .map p f => Action.map (p.eval fuel rules) f
  | _, .named label p => Action.named label (p.eval fuel rules)
  | _, .boxed p => p.eval fuel rules
  | _, .deferred factory p => Action.deferred factory (p.eval fuel rules)
  | _, .rule r => rules r
  | _, .closure f => fun c => Engine.call (f c)
  | _, .inspect p choose next =>
    Action.inspect (p.eval fuel rules) choose fun v => (next v).eval fuel rules

/-- The parsers of a list run as the sequence of their actions. -/
theorem eval_seq {α : Type} (fuel : Nat) (rules : {α : Type} → R α → Action α)
    (ps : List (Parser R α)) :
    (seq ps).eval fuel rules = Action.seq (ps.map fun p => p.eval fuel rules) := by
  have items : (List.ofFn fun i : Fin ps.length => (ps.get i).eval fuel rules) =
      ps.map fun p => p.eval fuel rules := by
    apply List.ext_getElem <;> simp
  simp only [seq, eval, items]

end Parser

/-- A body for each of finitely many rules. -/
structure Grammar (R : Type → Type) where
  /-- How many rules there are. -/
  size : Nat
  body : {α : Type} → R α → Parser R α

def NoRule (_ : Type) : Type := Empty

namespace Grammar

def none : Grammar NoRule where
  size := 0
  body r := nomatch (r : Empty)

variable {R : Type → Type} {α : Type}

def call (g : Grammar R) : Nat → {α : Type} → R α → Action α
  | 0, _, _ => fun _ => Engine.exhausted
  | fuel + 1, _, r => (g.body r).eval fuel (g.call fuel)

def run (g : Grammar R) (fuel : Nat) (p : Parser R α) : Action α :=
  p.eval fuel (g.call fuel)

/-- Fuel for a run from `c`. A rule that is called at the same place twice, once inside the other,
calls itself forever; so at most `g.size` calls are open for each place of the unread text, and a
repetition whose every match reads something is over after as many matches as there are
characters. -/
def fuelFor (g : Grammar R) (c : Cursor) : Nat :=
  (g.size + 1) * (c.rest.length + 2)

/-- Runs a parser from a cursor, without records of its own. -/
def runAt (g : Grammar R) (p : Parser R α) : Action α := fun c =>
  g.run (g.fuelFor c) p c

def verdict : Outcome α → Trace.Record
  | .failure => .failed
  | .success c _ => .matched (Text.byteSize c.rest)

/-- Parses a text from its start and records how it began and ended. -/
def parse (g : Grammar R) (p : Parser R α) (text : String) : Engine (Outcome α) := do
  let c ← Engine.start text
  Engine.write (.started (Text.byteSize c.rest))
  let outcome ← g.runAt p c
  Engine.write (verdict outcome)
  pure outcome

end Grammar

end ParserCombinators
