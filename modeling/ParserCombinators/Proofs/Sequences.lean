import ParserCombinators.Parser.Derived
import ParserCombinators.Proofs.Endings

/-!
# Sequences — one parser after the other

A sequence runs its parsers in order, each from where the one before it stopped, and collects their
values in a loop. The same can be written without a loop: each parser is chained to the one before
it, and the innermost answers with all values. The two differ in nothing but the records of the
sequence. How far a sequence comes is said by its parsers alone: it matches if all of them do, and
otherwise stops at the first that does not, whatever comes behind it.

- `Parser.nested`: the parsers chained to one another
- `Engine.Unison`: two runs that differ in their records at most
- `Grammar.Passes`: the parsers of a list match one after the other
- `Grammar.Passes.run_append`: a sequence, behind those of its parsers that match
- `Grammar.Passes.complete_or_stopped`: all of a list matches, or there is a first that does not
- `Grammar.sequence_threads_cursors`: how sequences end, and what they leave behind
-/

namespace ParserCombinators

variable {R : Type → Type} {α β : Type}

/-! ## Parsers chained to one another -/

namespace Parser

/-- The parsers chained to one another; the innermost answers with all values, behind those that
were found before. -/
def nestedFrom (found : List α) : List (Parser R α) → Parser R (List α)
  | [] => .succeed found
  | p :: ps => p >>= fun v => nestedFrom (found ++ [v]) ps

def nested (ps : List (Parser R α)) : Parser R (List α) :=
  nestedFrom [] ps

end Parser

/-! ## Runs that differ in their records at most -/

namespace Engine

/-- The two runs end in the same way, under the same label, with the same events. -/
structure Unison (m m' : Engine α) : Prop where
  ending_eq : ∀ level label, (m level label).ending = (m' level label).ending
  label_eq : ∀ level label, (m level label).label = (m' level label).label
  events_eq : ∀ level label, (m level label).journal.events = (m' level label).journal.events

namespace Unison

protected theorem refl (m : Engine α) : m.Unison m :=
  ⟨fun _ _ => rfl, fun _ _ => rfl, fun _ _ => rfl⟩

protected theorem symm {m m' : Engine α} (h : m.Unison m') : m'.Unison m :=
  ⟨fun level label => (h.ending_eq level label).symm,
    fun level label => (h.label_eq level label).symm,
    fun level label => (h.events_eq level label).symm⟩

/-- `Unison` is an equivalence, as it is an equality of what records do not touch. -/
protected theorem trans {m m' m'' : Engine α} (h : m.Unison m') (h' : m'.Unison m'') :
    m.Unison m'' :=
  ⟨fun level label => (h.ending_eq level label).trans (h'.ending_eq level label),
    fun level label => (h.label_eq level label).trans (h'.label_eq level label),
    fun level label => (h.events_eq level label).trans (h'.events_eq level label)⟩

/-- Composition along `>>=`: the label of the first part, which both runs leave alike, is what the
sequels begin with. -/
protected theorem bind {m m' : Engine α} {f f' : α → Engine β} (hm : m.Unison m')
    (hf : ∀ a, (f a).Unison (f' a)) : (m >>= f).Unison (m' >>= f') := by
  have hboth : ∀ level label,
      (Engine.bind m f level label).ending = (Engine.bind m' f' level label).ending ∧
      (Engine.bind m f level label).label = (Engine.bind m' f' level label).label ∧
      (Engine.bind m f level label).journal.events =
        (Engine.bind m' f' level label).journal.events := by
    intro level label
    have hending := hm.ending_eq level label
    have hlabel := hm.label_eq level label
    have hevents := hm.events_eq level label
    unfold Engine.bind
    generalize m level label = step at hending hlabel hevents ⊢
    generalize m' level label = step' at hending hlabel hevents ⊢
    rcases step with ⟨e, middle, journal⟩
    rcases step' with ⟨e', middle', journal'⟩
    cases hending
    cases hlabel
    cases e with
    | returned a =>
      have hlater := (hf a).events_eq level middle
      refine ⟨(hf a).ending_eq level middle, (hf a).label_eq level middle, ?_⟩
      -- of the two journals only the events are compared, so records may differ
      show Journal.events (journal ++ (f a level middle).journal) =
        Journal.events (journal' ++ (f' a level middle).journal)
      rw [Journal.events_append, Journal.events_append, hevents, hlater]
    | panicked | exhausted => exact ⟨rfl, rfl, hevents⟩
  exact ⟨fun level label => (hboth level label).1, fun level label => (hboth level label).2.1,
    fun level label => (hboth level label).2.2⟩

/-- A record is passed over. -/
theorem trace_bind (c : Cursor) (op : Trace.Operation) (note : Trace.Note) (m : Engine α) :
    (trace c op note >>= fun _ => m).Unison m := by
  refine ⟨fun _ _ => rfl, fun _ _ => rfl, fun level label => ?_⟩
  have hrecord : (trace c op note level label).journal.events = [] := by
    show Journal.events (if level.keeps .trace then [.record _] else []) = []
    cases level.keeps .trace with
    | false => rfl
    | true => rfl
  show Journal.events ((trace c op note level label).journal ++ (m level label).journal) = _
  rw [Journal.events_append, hrecord, List.nil_append]

end Unison

/-- Behind a run that returned and left the label alone, a sequel is what it is on its own. -/
theorem bind_of_returned {m : Engine α} {level : Trace.Level} {label : String} {a : α}
    (hending : (m level label).ending = .returned a) (hlabel : (m level label).label = label)
    (f : α → Engine β) :
    (m >>= f) level label =
      ⟨(f a level label).ending, (f a level label).label,
        (m level label).journal ++ (f a level label).journal⟩ := by
  show Engine.bind m f level label = _
  unfold Engine.bind
  generalize m level label = step at hending hlabel ⊢
  rcases step with ⟨e, middle, journal⟩
  cases hending
  cases hlabel
  rfl

end Engine

open Engine

/-! ## A sequence and its parsers chained to one another -/

namespace Grammar

variable (g : Grammar R) (fuel : Nat)

theorem run_seq (ps : List (Parser R α)) :
    g.run fuel (.seq ps) = Action.seqFrom 0 (ps.map (g.run fuel)) :=
  Parser.eval_seq fuel (g.call fuel) ps

/-- `>>=` of parsers, as runs; the chain has no effects of its own. -/
theorem run_bind (p : Parser R α) (next : α → Parser R β) (c : Cursor) :
    g.run fuel (p >>= next) c = g.run fuel p c >>= fun
      | .failure => pure .failure
      | .success after v => g.run fuel (next v) after := by
  show (g.run fuel p c >>= _) = _
  refine bind_congr fun outcome => ?_
  cases outcome <;> rfl

/-- `<$>` on parsers is `Outcome.map` on what is returned. -/
theorem run_mapValue (f : α → β) (p : Parser R α) (c : Cursor) :
    g.run fuel (f <$> p) c = Outcome.map f <$> g.run fuel p c := by
  show (g.run fuel p c >>= _) = (g.run fuel p c >>= _)
  refine bind_congr fun outcome => ?_
  cases outcome <;> rfl

/-- Run lemma: the loop over the parsers that are left is in unison with the chain of them. By
induction on the parsers. -/
theorem unison_seqFrom (done : Nat) (found : List α) (ps : List (Parser R α)) (c : Cursor) :
    (Outcome.map (found ++ ·) <$> Action.seqFrom done (ps.map (g.run fuel)) c).Unison
      (g.run fuel (.nestedFrom found ps) c) := by
  -- the chain holds what was found so far, where the loop puts it in front afterwards
  induction ps generalizing done found c with
  | nil =>
    have hrun : g.run fuel (.nestedFrom found []) c =
        pure ((Outcome.success c []).map (found ++ ·)) := by
      rw [Outcome.map_success, List.append_nil]
      rfl
    rw [hrun, List.map_nil, Action.seqFrom, map_bind, map_pure]
    exact .trace_bind _ _ _ _
  | cons p ps ih =>
    rw [Parser.nestedFrom, run_bind, List.map_cons, Action.seqFrom, map_bind]
    refine .bind (.refl _) fun outcome => ?_
    cases outcome with
    | failure =>
      simp only [map_bind, map_pure]
      exact .trace_bind _ _ _ _
    | success next v =>
      have hput : ∀ later : Outcome (List α),
          (later.map (v :: ·)).map (found ++ ·) = later.map ((found ++ [v]) ++ ·) := by
        intro later
        cases later <;> simp
      simp only [map_bind, map_pure, hput]
      exact ih (done + 1) (found ++ [v]) next

/-- `unison_seqFrom` for a sequence behind values that were found before. -/
theorem unison_seq_nestedFrom (found : List α) (ps : List (Parser R α)) (c : Cursor) :
    (g.run fuel ((found ++ ·) <$> Parser.seq ps) c).Unison (g.run fuel (.nestedFrom found ps) c) := by
  rw [run_mapValue, run_seq]
  exact g.unison_seqFrom fuel 0 found ps c

/-- A sequence is in unison with its parsers chained to one another. -/
theorem unison_seq_nested (ps : List (Parser R α)) (c : Cursor) :
    (g.run fuel (.seq ps) c).Unison (g.run fuel (.nested ps) c) := by
  have hnothing : (Outcome.map (([] : List α) ++ ·) : Outcome (List α) → _) = id := by
    funext outcome
    cases outcome <;> rfl
  have hseq := g.unison_seqFrom fuel 0 [] ps c
  rwa [hnothing, id_map, ← run_seq] at hseq

/-- A chain of two lists is the chain of the first, and that of the second behind it; the runs are
equal, as both are chains. -/
theorem run_nestedFrom_append (found : List α) (ps qs : List (Parser R α)) (c : Cursor) :
    g.run fuel (.nestedFrom found (ps ++ qs)) c =
      g.run fuel (Parser.nestedFrom found ps >>= fun vs => .nestedFrom vs qs) c := by
  induction ps generalizing found c with
  | nil => rw [run_bind]; rfl
  | cons p ps ih =>
    rw [List.cons_append, Parser.nestedFrom, Parser.nestedFrom, run_bind, run_bind, run_bind,
      bind_assoc]
    refine bind_congr fun outcome => ?_
    cases outcome with
    | failure => rfl
    | success next v => exact (ih (found ++ [v]) next).trans (g.run_bind fuel _ _ next)

/-- `Unison.bind` for parsers. -/
theorem unison_bind {p p' : Parser R α} {next next' : α → Parser R β}
    (hp : ∀ c, (g.run fuel p c).Unison (g.run fuel p' c))
    (hnext : ∀ v c, (g.run fuel (next v) c).Unison (g.run fuel (next' v) c)) (c : Cursor) :
    (g.run fuel (p >>= next) c).Unison (g.run fuel (p' >>= next') c) := by
  rw [run_bind, run_bind]
  refine .bind (hp c) fun outcome => ?_
  cases outcome with
  | failure => exact .refl _
  | success after v => exact hnext v after

/-- A sequence of two lists is that of the first, and then that of the second from where the first
ended, with the values of both. -/
theorem unison_seq_append (ps qs : List (Parser R α)) (c : Cursor) :
    (g.run fuel (.seq (ps ++ qs)) c).Unison
      (g.run fuel (Parser.seq ps >>= fun vs => (vs ++ ·) <$> Parser.seq qs) c) := by
  have hparts : (g.run fuel (Parser.seq ps >>= fun vs => (vs ++ ·) <$> Parser.seq qs) c).Unison
      (g.run fuel (Parser.nested ps >>= fun vs => .nestedFrom vs qs) c) :=
    g.unison_bind fuel (g.unison_seq_nested fuel ps)
      (fun vs => g.unison_seq_nestedFrom fuel vs qs) c
  refine .trans (g.unison_seq_nested fuel (ps ++ qs) c) ?_
  -- both sides are now chains, which are the same chain
  rw [Parser.nested, run_nestedFrom_append]
  exact hparts.symm

end Grammar

/-! ## How far a sequence comes -/

/-- Step lemma: a part that does not match is the end of a sequence, and is recorded if it
returned. -/
theorem Action.seqFrom_of_stop {p : Action α} {c : Cursor} {level : Trace.Level} {label : String}
    (hlabel : (p c level label).label = label)
    (hstop : ∀ next v, (p c level label).ending ≠ .returned (.success next v)) (done : Nat)
    (ps : List (Action α)) :
    seqFrom done (p :: ps) c level label =
      ⟨(p c level label).ending.andThen fun _ _ => .exhausted, label,
        (p c level label).journal ++ (p c level label).ending.sequel fun _ =>
          (trace c (.seq done) .noMatch level label).journal⟩ := by
  rw [seqFrom]
  show Engine.bind (p c) _ level label = _
  unfold Engine.bind
  generalize p c level label = step at hlabel hstop ⊢
  rcases step with ⟨e, middle, journal⟩
  cases hlabel
  rcases e with (_ | ⟨next, v⟩) | panic | _
  · show (⟨_, _, journal ++ (_ ++ [])⟩ : Step (Outcome (List α))) = _
    rw [List.append_nil]
    rfl
  · exact absurd rfl (hstop next v)
  · exact congrArg (Step.mk _ _) (List.append_nil journal).symm
  · exact congrArg (Step.mk _ _) (List.append_nil journal).symm

namespace Grammar

/-- The parsers of the list match one after the other, each from where the one before it stopped:
from the first cursor to the last, with the values in order, leaving the journals of their runs. -/
inductive Passes (g : Grammar R) (fuel : Nat) (level : Trace.Level) (label : String) :
    List (Parser R α) → Cursor → List α → Cursor → Journal → Prop where
  | nil (c : Cursor) : Passes g fuel level label [] c [] c []
  | cons {p : Parser R α} {ps : List (Parser R α)} {c next last : Cursor} {v : α} {vs : List α}
      {journal : Journal}
      (hrun : (g.run fuel p c level label).ending = .returned (.success next v))
      (hrest : Passes g fuel level label ps next vs last journal) :
      Passes g fuel level label (p :: ps) c (v :: vs) last
        ((g.run fuel p c level label).journal ++ journal)

namespace Passes

variable {g : Grammar R} {fuel : Nat} {level : Trace.Level} {label : String}
  {ps : List (Parser R α)} {c last : Cursor} {vs : List α} {journal : Journal}

/-- Run lemma: behind parts that match, a sequence goes on with the others. It counts those before,
puts their values in front and has their journals behind it. By induction on `Passes`. -/
theorem run_append (h : g.Passes fuel level label ps c vs last journal) (done : Nat)
    (more : List (Action α)) :
    Action.seqFrom done (ps.map (g.run fuel) ++ more) c level label =
      let later := Action.seqFrom (done + ps.length) more last level label
      ⟨Outcome.map (vs ++ ·) <$> later.ending, later.label, journal ++ later.journal⟩ := by
  induction h generalizing done with
  | nil c =>
    show _ = (⟨_, _, [] ++ _⟩ : Step (Outcome (List α)))
    simp only [List.map_nil, List.nil_append, List.length_nil, Nat.add_zero]
    rcases Action.seqFrom done more c level label with ⟨(_ | _) | _ | _, _, _⟩ <;> rfl
  | @cons p ps c next last v vs journal hrun _ ih =>
    have hlabel := g.label_run fuel p c level label
    have hcount : done + 1 + ps.length = done + (p :: ps).length := by
      rw [List.length_cons]
      omega
    rw [List.map_cons, List.cons_append, Action.seqFrom, bind_of_returned hrun hlabel]
    simp only [bind_pure_comp, map_apply, ih (done + 1), hcount]
    rcases Action.seqFrom (done + (p :: ps).length) more last level label with
      ⟨(_ | _) | _ | _, _, _⟩ <;> simp <;> rfl

/-- `run_append` for a sequence of parsers that all match. -/
theorem run_seq (h : g.Passes fuel level label ps c vs last journal) :
    g.run fuel (.seq ps) c level label =
      ⟨.returned (.success last vs), label,
        journal ++ (trace last (.seq ps.length) .ok level label).journal⟩ := by
  have hrun := h.run_append 0 []
  rw [List.append_nil, ← g.run_seq, Nat.zero_add] at hrun
  rw [hrun]
  show (⟨.returned (.success last (vs ++ [])), label, journal ++ (_ ++ [])⟩ :
    Step (Outcome (List α))) = _
  rw [List.append_nil, List.append_nil]
  rfl

/-- `run_append` up to a parser that does not match, and `seqFrom_of_stop` there. -/
theorem run_seq_of_stop (h : g.Passes fuel level label ps c vs last journal) {p : Parser R α}
    (hstop : ∀ next v, (g.run fuel p last level label).ending ≠ .returned (.success next v))
    (qs : List (Parser R α)) :
    g.run fuel (.seq (ps ++ p :: qs)) c level label =
      ⟨(g.run fuel p last level label).ending.andThen fun _ _ => .exhausted, label,
        journal ++ (g.run fuel p last level label).journal ++
          (g.run fuel p last level label).ending.sequel fun _ =>
            (trace last (.seq ps.length) .noMatch level label).journal⟩ := by
  have hrun := h.run_append 0 ((p :: qs).map (g.run fuel))
  rw [← List.map_append, ← g.run_seq, Nat.zero_add] at hrun
  rw [hrun, List.map_cons, Action.seqFrom_of_stop (g.label_run fuel p last level label) hstop,
    List.append_assoc]
  rcases hending : (g.run fuel p last level label).ending with (_ | ⟨next, v⟩) | panic | _
  · rfl
  · exact absurd hending (hstop next v)
  · rfl
  · rfl

/-- All parsers of a list match one after the other, or there is a first that does not. By induction
on the list. -/
theorem complete_or_stopped (g : Grammar R) (fuel : Nat) (level : Trace.Level) (label : String)
    (ps : List (Parser R α)) (c : Cursor) :
    (∃ vs last journal, g.Passes fuel level label ps c vs last journal) ∨
      ∃ earlier p later vs last journal, ps = earlier ++ p :: later ∧
        g.Passes fuel level label earlier c vs last journal ∧
        ∀ next v, (g.run fuel p last level label).ending ≠ .returned (.success next v) := by
  induction ps generalizing c with
  | nil => exact .inl ⟨[], c, [], .nil c⟩
  | cons p ps ih =>
    by_cases hfirst : ∃ next v, (g.run fuel p c level label).ending = .returned (.success next v)
    · rcases hfirst with ⟨next, v, hrun⟩
      rcases ih next with ⟨vs, last, journal, hrest⟩ |
        ⟨earlier, q, later, vs, last, journal, rfl, hrest, hstop⟩
      · exact .inl ⟨_, _, _, .cons hrun hrest⟩
      · exact .inr ⟨p :: earlier, q, later, _, _, _, rfl, .cons hrun hrest, hstop⟩
    · have hstop : ∀ next v, (g.run fuel p c level label).ending ≠ .returned (.success next v) :=
        fun next v hrun => hfirst ⟨next, v, hrun⟩
      exact .inr ⟨[], p, ps, [], c, [], rfl, .nil c, hstop⟩

end Passes

variable (g : Grammar R) (fuel : Nat) (level : Trace.Level) (label : String)

/-- A sequence matches if its parsers do, one after the other. -/
theorem ending_seq_eq_success {ps : List (Parser R α)} {c last : Cursor} {vs : List α} :
    (g.run fuel (.seq ps) c level label).ending = .returned (.success last vs) ↔
      ∃ journal, g.Passes fuel level label ps c vs last journal := by
  constructor
  · intro hending
    rcases Passes.complete_or_stopped g fuel level label ps c with ⟨vs', last', journal, h⟩ |
      ⟨earlier, p, later, vs', last', journal, rfl, h, hstop⟩
    · rw [h.run_seq] at hending
      cases hending
      exact ⟨journal, h⟩
    · -- a part that does not match would leave the sequence without a match
      rw [h.run_seq_of_stop hstop] at hending
      rcases Ending.andThen_eq_success.1 hending with ⟨next, v, hrun, -⟩
      exact absurd hrun (hstop next v)
  · rintro ⟨journal, h⟩
    rw [h.run_seq]

/-- A sequence fails if one of its parsers does, behind parsers that match. -/
theorem ending_seq_eq_failure {rs : List (Parser R α)} {c : Cursor} :
    (g.run fuel (.seq rs) c level label).ending = .returned .failure ↔
      ∃ ps p qs vs last journal, rs = ps ++ p :: qs ∧
        g.Passes fuel level label ps c vs last journal ∧
        (g.run fuel p last level label).ending = .returned .failure := by
  constructor
  · intro hending
    rcases Passes.complete_or_stopped g fuel level label rs c with ⟨vs, last, journal, h⟩ |
      ⟨ps, p, qs, vs, last, journal, rfl, h, hstop⟩
    · rw [h.run_seq] at hending
      cases hending
    · refine ⟨ps, p, qs, vs, last, journal, rfl, h, ?_⟩
      rw [h.run_seq_of_stop hstop] at hending
      rcases hrun : (g.run fuel p last level label).ending with (_ | ⟨next, v⟩) | panic | _
      · rfl
      · exact absurd hrun (hstop next v)
      · simp [hrun] at hending
      · simp [hrun] at hending
  · rintro ⟨ps, p, qs, vs, last, journal, rfl, h, hrun⟩
    rw [h.run_seq_of_stop (by simp [hrun]), hrun]
    rfl

/-- A sequence is in unison with its parsers chained to one another, and with the sequences of two
parts of it, one behind the other. It matches exactly if its parsers match one after the other, and
then with their values and where the last of them ended. It fails exactly if one of them fails
behind others that match: what comes behind that one is not run, and the journal is made of the runs
before and of that one, and of a record that shows how many matched, and the text at which the next
one failed. -/
theorem sequence_threads_cursors :
    (∀ (ps : List (Parser R α)) (c : Cursor),
      (g.run fuel (.seq ps) c).Unison (g.run fuel (.nested ps) c)) ∧
    (∀ (ps : List (Parser R α)) (c last : Cursor) (vs : List α),
      (g.run fuel (.seq ps) c level label).ending = .returned (.success last vs) ↔
        ∃ journal, g.Passes fuel level label ps c vs last journal) ∧
    (∀ (rs : List (Parser R α)) (c : Cursor),
      (g.run fuel (.seq rs) c level label).ending = .returned .failure ↔
        ∃ ps p qs vs last journal, rs = ps ++ p :: qs ∧
          g.Passes fuel level label ps c vs last journal ∧
          (g.run fuel p last level label).ending = .returned .failure) ∧
    (∀ (ps : List (Parser R α)) (c : Cursor) (vs : List α) (last : Cursor) (journal : Journal),
      g.Passes fuel level label ps c vs last journal → ∀ p : Parser R α,
        (g.run fuel p last level label).ending = .returned .failure → ∀ qs : List (Parser R α),
          g.run fuel (.seq (ps ++ p :: qs)) c level label =
            ⟨.returned .failure, label, journal ++ (g.run fuel p last level label).journal ++
              if level.keeps .trace then
                [.record (.step last.rest label (.seq ps.length) .noMatch)] else []⟩) ∧
    ∀ (ps qs : List (Parser R α)) (c : Cursor),
      (g.run fuel (.seq (ps ++ qs)) c).Unison
        (g.run fuel (Parser.seq ps >>= fun vs => (vs ++ ·) <$> Parser.seq qs) c) := by
  refine ⟨g.unison_seq_nested fuel, fun ps c last vs => g.ending_seq_eq_success fuel level label,
    fun rs c => g.ending_seq_eq_failure fuel level label, ?_, g.unison_seq_append fuel⟩
  intro ps c vs last journal h p hrun qs
  rw [h.run_seq_of_stop (by simp [hrun]), hrun]
  rfl

/-- Two parsers match, the third announces where it starts and fails, and the fourth would stop the
whole run: it is not reached, and the record shows that two had matched. -/
theorem sequence_threads_cursors_third_fails :
    let third : Parser NoRule Char := .probe "p" (.char 'b')
    let loud : Parser NoRule Char := .closure fun _ => Callback.raise (.raised "not reached")
    Grammar.none.Passes 0 .trace "" [.any, .any] ⟨[], ['é', 'a', 'x']⟩ ['é', 'a']
      ⟨['a', 'é'], ['x']⟩ [] ∧
    (Grammar.none.run 0 third ⟨['a', 'é'], ['x']⟩ .trace "").ending = .returned .failure ∧
    Grammar.none.run 0 (.seq [.any, .any, third, loud]) ⟨[], ['é', 'a', 'x']⟩ .trace "" =
      ⟨.returned .failure, "",
        [.event "enter:p@3", .record (.step ['x'] "" (.char 'b') .opened),
          .record (.step ['x'] "" (.char 'b') .noMatch), .event "fail:p",
          .record (.step ['x'] "" (.seq 2) .noMatch)]⟩ := by
  intro third loud
  have hfirst : (Grammar.none.run 0 .any ⟨[], ['é', 'a', 'x']⟩ .trace "").ending =
      .returned (.success ⟨['é'], ['a', 'x']⟩ 'é') := rfl
  have hsecond : (Grammar.none.run 0 .any ⟨['é'], ['a', 'x']⟩ .trace "").ending =
      .returned (.success ⟨['a', 'é'], ['x']⟩ 'a') := rfl
  have hpasses : Grammar.none.Passes 0 .trace "" [.any, .any] ⟨[], ['é', 'a', 'x']⟩ ['é', 'a']
      ⟨['a', 'é'], ['x']⟩ [] := .cons hfirst (.cons hsecond (.nil _))
  have hfails : (Grammar.none.run 0 third ⟨['a', 'é'], ['x']⟩ .trace "").ending =
      .returned .failure := rfl
  refine ⟨hpasses, hfails, ?_⟩
  exact (sequence_threads_cursors Grammar.none 0 .trace "").2.2.2.1 _ _ _ _ _ hpasses third hfails
    [loud]

end Grammar

end ParserCombinators
