import ParserCombinators.Parser.Meaning

/-!
# Fuel — a finished run needs no more of it

Fuel only decides whether a run comes to its end. Once a run has ended by returning or by a panic,
every run with more fuel is the same run: the same ending, the same label, the same journal.

- `Engine.Approximates`: equal to the other run unless out of fuel
- `Action.approximates_many`, `Action.approximates_seqFrom`: the loops
- `Parser.approximates_eval`: parsers, given that their rules do
- `Grammar.approximates_call`, `Grammar.run_eq_of_le`: rules and whole grammars
-/

namespace ParserCombinators

namespace Engine

variable {α β : Type}

/-- The run `m` is out of fuel or is the run `m'`, whatever the level and the label. -/
structure Approximates (m m' : Engine α) : Prop where
  eq_of_ne : ∀ level label, (m level label).ending ≠ .exhausted →
    m' level label = m level label

namespace Approximates

protected theorem refl (m : Engine α) : Approximates m m :=
  ⟨fun _ _ _ => rfl⟩

/-- Out of fuel is the least run: nothing is asked of the other one. -/
theorem of_exhausted (m : Engine α) : Approximates Engine.exhausted m :=
  ⟨fun _ _ h => absurd rfl h⟩

/-- Approximation composes along `>>=`: if `m` ended, `m'` returns the same value, and the sequels
are compared at that value only. -/
protected theorem bind {m m' : Engine α} {f f' : α → Engine β} (hm : Approximates m m')
    (hf : ∀ a, Approximates (f a) (f' a)) : Approximates (m >>= f) (m' >>= f') := by
  constructor
  intro level label h
  change (Engine.bind m f level label).ending ≠ .exhausted at h
  show Engine.bind m' f' level label = Engine.bind m f level label
  unfold Engine.bind at h ⊢
  have hfirst := hm.eq_of_ne level label
  rcases hs : m level label with ⟨a | p | _, middle, journal⟩
  · rw [hfirst (by simp [hs]), hs]
    simp only [hs] at h ⊢
    rw [(hf a).eq_of_ne level middle h]
  · rw [hfirst (by simp [hs]), hs]
  · simp [hs] at h

/-- The label is put back after every ending, so `withLabel` keeps the relation. -/
theorem withLabel (label : String) {m m' : Engine α} (h : Approximates m m') :
    Approximates (Engine.withLabel label m) (Engine.withLabel label m') := by
  unfold Engine.withLabel
  refine .bind (.refl _) fun outer => .bind (.refl _) fun _ => ⟨fun level inner hne => ?_⟩
  unfold Engine.ensuring at hne ⊢
  rw [h.eq_of_ne level inner (by simpa using hne)]

end Approximates

end Engine

open Engine

/-! ## Loops -/

namespace Action

variable {α : Type}

/-- A repetition that ended goes the same way with more fuel. Induction on the smaller fuel, for
every larger one. -/
theorem approximates_many {p p' : Action α} (h : ∀ c, Approximates (p c) (p' c)) {n n' : Nat}
    (hn : n ≤ n') (c : Cursor) : Approximates (many p n c) (many p' n' c) := by
  induction n generalizing n' c with
  | zero => exact .of_exhausted _
  | succ n ih =>
    cases n' with
    | zero => omega
    | succ n' =>
      refine .bind (h c) fun outcome => ?_
      cases outcome with
      | failure => exact .refl _
      | success next v => exact .bind (ih (by omega) next) fun _ => .refl _

/-- Induction on the number of parsers, for every count of those that matched before. -/
theorem approximates_seqFrom {n : Nat} (done : Nat) {p p' : Fin n → Action α}
    (h : ∀ i c, Approximates (p i c) (p' i c)) (c : Cursor) :
    Approximates (seqFrom done (List.ofFn p) c) (seqFrom done (List.ofFn p') c) := by
  induction n generalizing done c with
  | zero =>
    simp only [List.ofFn_zero]
    exact .refl _
  | succ n ih =>
    simp only [List.ofFn_succ]
    refine .bind (h 0 c) fun outcome => ?_
    cases outcome with
    | failure => exact .refl _
    | success next v => exact .bind (ih _ (fun i => h i.succ) next) fun _ => .refl _

end Action

/-! ## Parsers and grammars -/

variable {R : Type → Type} {α : Type}

/-- A parser's run approximates its run with more fuel, over rules that do. Induction on the
parser. -/
theorem Parser.approximates_eval {n n' : Nat} (hn : n ≤ n')
    {rules rules' : {α : Type} → R α → Action α}
    (hrules : ∀ {α : Type} (r : R α) (c : Cursor), Approximates (rules r c) (rules' r c))
    (p : Parser R α) : ∀ c, Approximates (p.eval n rules c) (p.eval n' rules' c) := by
  induction p with
  | ok | endOfInput | like | char | oneOf | str | succeed | succeedWith | closure =>
    exact fun c => .refl _
  | seqOf k items ih => exact fun c => Action.approximates_seqFrom 0 ih c
  | or left right ihl ihr =>
    intro c
    refine .bind (ihl c) fun outcome => ?_
    cases outcome with
    | failure => exact .bind (.refl _) fun _ => ihr c
    | success => exact .refl _
  | star p ih =>
    intro c
    exact .bind (.refl _) fun _ => .bind (Action.approximates_many ih hn c) fun _ => .refl _
  | plus p ih =>
    intro c
    refine .bind (.refl _) fun _ => .bind (ih c) fun outcome => ?_
    cases outcome with
    | failure => exact .refl _
    | success next v => exact .bind (Action.approximates_many ih hn next) fun _ => .refl _
  | option p ih =>
    intro c
    exact .bind (.bind (.bind (ih c) fun _ => .refl _) fun _ => .refl _) fun _ => .refl _
  | chain p effect next ihp ihn =>
    intro c
    refine .bind (ihp c) fun outcome => ?_
    cases outcome with
    | failure => exact .refl _
    | success after v => exact .bind (.refl _) fun _ => ihn v after
  | map p f ih => exact fun c => .bind (ih c) fun _ => .refl _
  | named label p ih => exact fun c => .withLabel _ (.bind (.refl _) fun _ => ih c)
  | boxed p ih => exact ih
  | deferred factory p ih => exact fun c => .bind (.refl _) fun _ => ih c
  | rule r => exact hrules r
  | inspect p choose next ihp ihn =>
    intro c
    exact .bind (ihp c) fun outcome => .bind (.refl _) fun chosen => ihn chosen.2 chosen.1

namespace Grammar

/-- Induction on fuel; the body of a rule is run with one unit less on both sides. -/
theorem approximates_call (g : Grammar R) {n n' : Nat} (hn : n ≤ n') (r : R α) (c : Cursor) :
    Approximates (g.call n r c) (g.call n' r c) := by
  induction n generalizing n' α c with
  | zero => exact .of_exhausted _
  | succ n ih =>
    cases n' with
    | zero => omega
    | succ n' => exact Parser.approximates_eval (by omega) (fun r c => ih (by omega) r c) _ c

/-- A run that ended is the run with more fuel. -/
theorem run_eq_of_le (g : Grammar R) {n n' : Nat} (hn : n ≤ n') (p : Parser R α) (c : Cursor)
    (level : Trace.Level) (label : String)
    (h : (g.run n p c level label).ending ≠ .exhausted) :
    g.run n' p c level label = g.run n p c level label :=
  (Parser.approximates_eval hn (fun r c => g.approximates_call hn r c) p c).eq_of_ne level label h

end Grammar

end ParserCombinators
