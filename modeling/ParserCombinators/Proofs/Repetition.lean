import Mathlib.Data.List.Forall2
import ParserCombinators.Lexeme
import ParserCombinators.Proofs.Limits
import ParserCombinators.Proofs.Positions

/-!
# Repetition — loops and their recursive definitions

A repetition is a loop that collects values, and it can also be written without a loop: zero or more
is one or more, or nothing; one or more is one, and then zero or more. Both ways run the parser at
the same cursors in the same order, each time from where the last match ended, until it does not
match. These rounds are defined here on their own, and the four parsers are compared with them.

- `Grammar.Rounds`: the runs of a parser from where the one before it matched, and what they come to
- `Rounds.of_returned`, `Rounds.of_panicked`: how many runs there are, and how the last one ends
- `Journal.Framed`, `Step.Follows`: a journal made of the journals of such runs, and records
- `Grammar.Repeats`: a parser that ends where the rounds end, as they do, and leaves what they leave
- `Grammar.Alike`: two parsers that end in the same way, with the same events
- `Grammar.exists_rounds_of_advances`: rounds come to an end if matches move on
- `Grammar.repetition_unfolds`: the loops and the recursive definitions, all of them in this way
-/

namespace ParserCombinators

variable {R : Type → Type} {α β γ : Type}

/-! ## Rounds -/

structure Run (α : Type) where
  start : Cursor
  step : Step (Outcome α)

namespace Grammar

/-- The rounds of a parser from a cursor on: it runs, and after a match it runs again from where the
match ended. They come to the last cursor and the values of all matches, in order, or to the panic
of the last run. The fuel of each run is any that brings it to its end. -/
inductive Rounds (g : Grammar R) (p : Parser R α) (level : Trace.Level) (label : String) :
    Cursor → List (Run α) → Ending (Cursor × List α) → Prop where
  | failed {c : Cursor} {fuel : Nat}
      (hrun : (g.run fuel p c level label).ending = .returned .failure) :
      Rounds g p level label c [⟨c, g.run fuel p c level label⟩] (.returned (c, []))
  | panicked {c : Cursor} {fuel : Nat} {panic : Panic}
      (hrun : (g.run fuel p c level label).ending = .panicked panic) :
      Rounds g p level label c [⟨c, g.run fuel p c level label⟩] (.panicked panic)
  | matched {c next : Cursor} {fuel : Nat} {v : α} {runs : List (Run α)}
      {result : Ending (Cursor × List α)}
      (hrun : (g.run fuel p c level label).ending = .returned (.success next v))
      (hrest : Rounds g p level label next runs result) :
      Rounds g p level label c (⟨c, g.run fuel p c level label⟩ :: runs)
        (Prod.map id (v :: ·) <$> result)

/-- Two runs that ended, at whatever fuel, are both the run at the larger one. -/
theorem run_eq_of_ended (g : Grammar R) {p : Parser R α} {c : Cursor} {level : Trace.Level}
    {label : String} {n n' : Nat} (h : (g.run n p c level label).ending ≠ .exhausted)
    (h' : (g.run n' p c level label).ending ≠ .exhausted) :
    g.run n p c level label = g.run n' p c level label :=
  calc g.run n p c level label
      = g.run (max n n') p c level label :=
        (g.run_eq_of_le (Nat.le_max_left n n') p c level label h).symm
    _ = g.run n' p c level label := g.run_eq_of_le (Nat.le_max_right n n') p c level label h'

namespace Rounds

variable {g : Grammar R} {p : Parser R α} {level : Trace.Level} {label : String} {c : Cursor}
  {runs : List (Run α)} {result : Ending (Cursor × List α)}

/-- Rounds come to an outcome or a panic, as each run in them ended. -/
theorem ne_exhausted (h : g.Rounds p level label c runs result) : result ≠ .exhausted := by
  induction h with
  | failed | panicked => exact fun h => nomatch h
  | @matched _ _ _ _ _ result _ _ ih =>
    cases result with
    | returned | panicked => exact fun h => nomatch h
    | exhausted => exact absurd rfl ih

/-- Inversion of rounds that come to values: each run but the last matched, with the value in its
place, and the last one failed, at the cursor that is handed on. By induction on the rounds. -/
theorem of_returned {last : Cursor} {vs : List α}
    (h : g.Rounds p level label c runs (.returned (last, vs))) :
    ∃ earlier step, runs = earlier ++ [⟨last, step⟩] ∧ step.ending = .returned .failure ∧
      List.Forall₂ (fun run v => ∃ next, run.step.ending = .returned (.success next v))
        earlier vs := by
  -- a match puts its value in front of what the later rounds come to, so the values vary
  generalize hresult : Ending.returned (last, vs) = result at h
  induction h generalizing vs with
  | @failed c fuel hrun =>
    cases hresult
    exact ⟨[], _, rfl, hrun, .nil⟩
  | panicked => cases hresult
  | @matched c next fuel v runs result hrun _ ih =>
    cases result with
    | returned found =>
      cases hresult
      rcases ih rfl with ⟨earlier, step, rfl, hstep, hvalues⟩
      exact ⟨_ :: earlier, step, rfl, hstep, .cons ⟨next, hrun⟩ hvalues⟩
    | panicked | exhausted => cases hresult

/-- Inversion of rounds that come to a panic: it is that of the last run. -/
theorem of_panicked {panic : Panic} (h : g.Rounds p level label c runs (.panicked panic)) :
    ∃ earlier run, runs = earlier ++ [run] ∧ run.step.ending = .panicked panic := by
  generalize hresult : Ending.panicked panic = result at h
  induction h with
  | failed => cases hresult
  | panicked hrun =>
    cases hresult
    exact ⟨[], _, rfl, hrun⟩
  | @matched _ _ _ _ _ result _ _ ih =>
    cases result with
    | panicked =>
      cases hresult
      rcases ih rfl with ⟨earlier, run, rfl, hrun⟩
      exact ⟨_ :: earlier, run, rfl, hrun⟩
    | returned | exhausted => cases hresult

/-- Step lemma: any run at `c` that ends tells how the rounds from `c` begin and whether they go
on. -/
theorem begins (h : g.Rounds p level label c runs result) (fuel : Nat)
    (hended : (g.run fuel p c level label).ending ≠ .exhausted) :
    match (g.run fuel p c level label).ending with
    | .returned .failure =>
      runs = [⟨c, g.run fuel p c level label⟩] ∧ result = .returned (c, [])
    | .returned (.success next v) =>
      ∃ later found, g.Rounds p level label next later found ∧
        runs = ⟨c, g.run fuel p c level label⟩ :: later ∧ result = Prod.map id (v :: ·) <$> found
    | .panicked panic => runs = [⟨c, g.run fuel p c level label⟩] ∧ result = .panicked panic
    | .exhausted => False := by
  have hsame : ∀ fuel', (g.run fuel' p c level label).ending ≠ .exhausted →
      g.run fuel p c level label = g.run fuel' p c level label :=
    fun _ => g.run_eq_of_ended hended
  cases h with
  | @failed _ fuel' hrun =>
    rw [hsame fuel' (by simp [hrun]), hrun]
    exact ⟨rfl, rfl⟩
  | @panicked _ fuel' _ hrun =>
    rw [hsame fuel' (by simp [hrun]), hrun]
    exact ⟨rfl, rfl⟩
  | @matched _ _ fuel' _ _ _ hrun hrest =>
    rw [hsame fuel' (by simp [hrun]), hrun]
    exact ⟨_, _, hrest, rfl, rfl⟩

/-- `Rounds` is deterministic. By induction on one of the two, with `begins` for the other. -/
theorem unique (h : g.Rounds p level label c runs result) {runs' : List (Run α)}
    {result' : Ending (Cursor × List α)} (h' : g.Rounds p level label c runs' result') :
    runs' = runs ∧ result' = result := by
  induction h generalizing runs' result' with
  | @failed _ fuel hrun =>
    have hbegins := h'.begins fuel (by simp [hrun])
    rw [hrun] at hbegins
    exact hbegins
  | @panicked _ fuel _ hrun =>
    have hbegins := h'.begins fuel (by simp [hrun])
    rw [hrun] at hbegins
    exact hbegins
  | @matched _ _ fuel _ _ _ hrun _ ih =>
    have hbegins := h'.begins fuel (by simp [hrun])
    rw [hrun] at hbegins
    rcases hbegins with ⟨later, found, hrest, rfl, rfl⟩
    rcases ih hrest with ⟨rfl, rfl⟩
    exact ⟨rfl, rfl⟩

end Rounds

end Grammar

/-! ## Journals made of the journals of runs -/

/-- The journal consists of the given parts, in order, with nothing but records around them. -/
inductive Journal.Framed : Journal → List Journal → Prop where
  | records (records : List Trace.Record) : Framed (records.map .record) []
  | part (records : List Trace.Record) (first : Journal) {rest : Journal} {parts : List Journal}
      (hrest : Framed rest parts) : Framed (records.map .record ++ (first ++ rest)) (first :: parts)

namespace Journal.Framed

/-- Framed journals compose. The records between the two belong to the parts behind them. -/
theorem append {j k : Journal} {parts others : List Journal} (hj : Journal.Framed j parts)
    (hk : Journal.Framed k others) : Journal.Framed (j ++ k) (parts ++ others) := by
  induction hj with
  | records records =>
    cases hk with
    | records later =>
      -- two groups of records side by side are one group
      rw [← List.map_append]
      exact .records _
    | part later first hrest =>
      rw [← List.append_assoc, ← List.map_append]
      exact .part _ first hrest
  | part records first _ ih =>
    rw [List.append_assoc, List.append_assoc]
    exact .part records first ih

theorem singleton (j : Journal) : Journal.Framed j [j] := by
  simpa using Journal.Framed.part [] j (.records [])

/-- Records are no events, so the events are those of the parts. -/
theorem events_eq {j : Journal} {parts : List Journal} (h : Journal.Framed j parts) :
    j.events = parts.flatMap Journal.events := by
  have hrecords : ∀ records : List Trace.Record, Journal.events (records.map .record) = [] := by
    intro records
    simp [Journal.events, List.filterMap_map, Trace.Entry.event?]
  induction h with
  | records records => exact hrecords records
  | part records first _ ih => simp [hrecords, ih]

end Journal.Framed

/-- What a run leaves behind is what `runs` left behind, besides records: it ends as said, the label
is as it was, and the journal is made of theirs. -/
structure Step.Follows (step : Step β) (runs : List (Run α)) (ending : Ending β)
    (label : String) : Prop where
  ending_eq : step.ending = ending
  label_eq : step.label = label
  framed : Journal.Framed step.journal (runs.map fun run => run.step.journal)

namespace Engine

variable {level : Trace.Level} {label : String} {runs later : List (Run α)}

theorem follows_pure (b : β) :
    ((pure b : Engine β) level label).Follows ([] : List (Run α)) (.returned b) label :=
  ⟨rfl, rfl, .records []⟩

theorem follows_call_pure (b : β) :
    (call (pure b) level label).Follows ([] : List (Run α)) (.returned b) label :=
  ⟨rfl, rfl, .records []⟩

/-- A record is no run. -/
theorem follows_trace (c : Cursor) (op : Trace.Operation) (note : Trace.Note) :
    (trace c op note level label).Follows ([] : List (Run α)) (.returned ()) label := by
  refine ⟨rfl, rfl, ?_⟩
  show Journal.Framed (if level.keeps .trace then [.record (.step c.rest label op note)] else []) []
  cases level.keeps .trace with
  | false => exact .records []
  | true => exact .records [_]

/-- Composition along `>>=`: the runs of both parts, one behind the other. -/
theorem follows_bind {m : Engine β} {f : β → Engine γ} {b : β} {ending : Ending γ}
    (hm : (m level label).Follows runs (.returned b) label)
    (hf : (f b level label).Follows later ending label) :
    ((m >>= f) level label).Follows (runs ++ later) ending label := by
  show (Engine.bind m f level label).Follows (runs ++ later) ending label
  unfold Engine.bind
  rcases hs : m level label with ⟨e, middle, journal⟩
  rw [hs] at hm
  rcases hm with ⟨rfl, rfl, hjournal⟩
  refine ⟨hf.ending_eq, hf.label_eq, ?_⟩
  rw [List.map_append]
  exact hjournal.append hf.framed

/-- A run that is cut short leaves out its sequel. -/
theorem follows_bind_cut {m : Engine β} {f : β → Engine γ} {ending : Ending β}
    (hm : (m level label).Follows runs ending label) (hcut : ∀ b, ending ≠ .returned b) :
    ((m >>= f) level label).Follows runs (ending >>= fun _ => .exhausted) label := by
  show (Engine.bind m f level label).Follows runs _ label
  unfold Engine.bind
  rcases hs : m level label with ⟨e, middle, journal⟩
  rw [hs] at hm
  rcases hm with ⟨rfl, rfl, hjournal⟩
  cases e with
  | returned b => exact absurd rfl (hcut b)
  | panicked | exhausted => exact ⟨rfl, rfl, hjournal⟩

theorem follows_bind_panicked {m : Engine β} {f : β → Engine γ} {panic : Panic}
    (hm : (m level label).Follows runs (.panicked panic) label) :
    ((m >>= f) level label).Follows runs (.panicked panic) label :=
  follows_bind_cut hm fun _ h => nomatch h

/-- A sequel that runs nothing more and always returns. -/
theorem follows_bind_quiet {m : Engine β} {f : β → Engine γ} {φ : β → γ} {ending : Ending β}
    (hm : (m level label).Follows runs ending label)
    (hf : ∀ b, (f b level label).Follows ([] : List (Run α)) (.returned (φ b)) label) :
    ((m >>= f) level label).Follows runs (φ <$> ending) label := by
  cases ending with
  | returned b =>
    have hboth := follows_bind hm (hf b)
    rw [List.append_nil] at hboth
    exact hboth
  | panicked | exhausted => exact follows_bind_cut hm fun _ h => nomatch h

end Engine

open Engine

/-! ## The loop -/

namespace Grammar

section Loop

variable {g : Grammar R} {p : Parser R α} {level : Trace.Level} {label : String} {c : Cursor}
  {runs : List (Run α)} {result : Ending (Cursor × List α)}

/-- More fuel than a run needs gives the same run, which is one round. -/
theorem follows_run_of_le {fuel fuel' : Nat} {e : Ending (Outcome α)} (hle : fuel ≤ fuel')
    (hrun : (g.run fuel p c level label).ending = e) (he : e ≠ .exhausted) :
    (g.run fuel' p c level label).Follows [⟨c, g.run fuel p c level label⟩] e label := by
  rw [g.run_eq_of_le hle p c level label (by rwa [hrun])]
  exact ⟨hrun, g.label_run fuel p c level label, .singleton _⟩

/-- A function on the value runs nothing more. -/
theorem follows_functor_map {f : β → γ} {q : Parser R β} {fuel : Nat} {e : Ending (Outcome β)}
    (h : (g.run fuel q c level label).Follows runs e label) :
    (g.run fuel (f <$> q) c level label).Follows runs (Outcome.map f <$> e) label := by
  refine follows_bind_quiet h fun outcome => ?_
  cases outcome with
  | failure => exact follows_pure _
  | success next v => exact follows_bind (follows_call_pure _) (follows_pure _)

/-- Run lemma: the loop goes through the rounds, given fuel enough for each of them and for their
number. By induction on the rounds. -/
theorem follows_many (h : g.Rounds p level label c runs result) :
    ∃ n, ∀ fuel count, n ≤ fuel → n ≤ count →
      (Action.many (g.run fuel p) count c level label).Follows runs result label := by
  -- each run has a fuel of its own; the largest of them, and one more for the count, serves all
  induction h with
  | @failed c fuel₀ hrun =>
    refine ⟨fuel₀ + 1, fun fuel count hfuel hcount => ?_⟩
    rcases count with _ | count
    · omega
    · have hround := follows_run_of_le (by omega : fuel₀ ≤ fuel) hrun (fun h => nomatch h)
      exact follows_bind hround (follows_pure _)
  | @panicked c fuel₀ panic hrun =>
    refine ⟨fuel₀ + 1, fun fuel count hfuel hcount => ?_⟩
    rcases count with _ | count
    · omega
    · have hround := follows_run_of_le (by omega : fuel₀ ≤ fuel) hrun (fun h => nomatch h)
      exact follows_bind_panicked hround
  | @matched c next fuel₀ v runs result hrun _ ih =>
    rcases ih with ⟨n, hloop⟩
    refine ⟨max fuel₀ n + 1, fun fuel count hfuel hcount => ?_⟩
    rcases count with _ | count
    · omega
    · have hround := follows_run_of_le (by omega : fuel₀ ≤ fuel) hrun (fun h => nomatch h)
      have hlater := hloop fuel count (by omega) (by omega)
      exact follows_bind hround (follows_bind_quiet hlater fun _ => follows_pure _)

/-- Step lemma: there are rounds from `c` on if the first run ends and, after a match, there are
rounds from where it ended. -/
theorem exists_rounds_of_next {fuel : Nat} (h : g.endingAt fuel p c ≠ .exhausted)
    (hnext : ∀ next v, g.endingAt fuel p c = .returned (.success next v) →
      ∃ runs result, g.Rounds p level label next runs result) :
    ∃ runs result, g.Rounds p level label c runs result := by
  have hending := g.run_ending fuel p c level label
  rcases hat : g.endingAt fuel p c with (_ | ⟨next, v⟩) | panic | _
  · exact ⟨_, _, .failed (hending.trans hat)⟩
  · rcases hnext next v hat with ⟨runs, result, hrest⟩
    exact ⟨_, _, .matched (hending.trans hat) hrest⟩
  · exact ⟨_, _, .panicked (hending.trans hat)⟩
  · exact absurd hat h

/-- A loop that comes to its end went through rounds. By induction on the count. -/
theorem exists_rounds_of_loopAt {fuel count : Nat} (h : g.loopAt fuel p count c ≠ .exhausted) :
    ∃ runs result, g.Rounds p level label c runs result := by
  induction count generalizing c with
  | zero => exact absurd rfl h
  | succ count ih =>
    rw [loopAt_succ] at h
    rcases not_or.1 (mt Ending.bind_eq_exhausted.2 h) with ⟨hfirst, hlater⟩
    refine exists_rounds_of_next hfirst fun next v hat => ih fun hloop => hlater ⟨_, hat, ?_⟩
    simp [hloop]

end Loop

/-! ## Parsers that repeat -/

def zeroOrMore (found : Cursor × List α) : Outcome (List α) :=
  .success found.1 found.2

def oneOrMore : Cursor × List α → Outcome (List α)
  | (_, []) => .failure
  | (last, v :: vs) => .success last (v :: vs)

/-- The parser `q` repeats `p`. Where the rounds of `p` come to their end, so does `q`, given enough
fuel: it ends with their answer and leaves behind what they leave, in their order. And only there
does it come to an end. Asked of every `p`, also of one that announces where it starts, this says at
which cursors `q` runs `p`, and in which order. -/
structure Repeats (g : Grammar R) (p : Parser R α) (answer : Cursor × List α → Outcome (List α))
    (q : Parser R (List α)) : Prop where
  follows : ∀ {c : Cursor} {level : Trace.Level} {label : String} {runs : List (Run α)}
    {result : Ending (Cursor × List α)}, g.Rounds p level label c runs result →
      ∃ n, ∀ fuel, n ≤ fuel →
        (g.run fuel q c level label).Follows runs (answer <$> result) label
  rounds : ∀ {c : Cursor} {level : Trace.Level} {label : String} (fuel : Nat),
    (g.run fuel q c level label).ending ≠ .exhausted →
      ∃ runs result, g.Rounds p level label c runs result

section Forms

variable (g : Grammar R) (p : Parser R α)

/-- `star p` is the loop itself. -/
theorem repeats_star : g.Repeats p zeroOrMore (.star p) where
  follows h := by
    rcases follows_many h with ⟨n, hloop⟩
    refine ⟨n, fun fuel hfuel => follows_bind (follows_trace _ _ _) ?_⟩
    exact follows_bind_quiet (hloop fuel fuel hfuel hfuel) fun found =>
      follows_bind (follows_trace _ _ _) (follows_pure (zeroOrMore found))
  rounds fuel h := by
    rw [run_ending, endingAt_star] at h
    exact exists_rounds_of_loopAt (mt Ending.bind_eq_exhausted.2 h ∘ .inl)

/-- One or more is a value, and zero or more behind it. -/
theorem oneOrMore_map_cons (v : α) (result : Ending (Cursor × List α)) :
    oneOrMore <$> (Prod.map id (v :: ·) <$> result) =
      Outcome.map (v :: ·) <$> (zeroOrMore <$> result) := by
  cases result <;> rfl

/-- `plus p` is a first round and the loop behind it. -/
theorem repeats_plus : g.Repeats p oneOrMore (.plus p) where
  follows h := by
    cases h with
    | @failed _ fuel₀ hrun =>
      refine ⟨fuel₀, fun fuel hfuel => follows_bind (follows_trace _ _ _) ?_⟩
      have hround := follows_run_of_le hfuel hrun (fun h => nomatch h)
      exact follows_bind hround (follows_bind (follows_trace _ _ _) (follows_pure _))
    | @panicked _ fuel₀ panic hrun =>
      refine ⟨fuel₀, fun fuel hfuel => follows_bind (follows_trace _ _ _) ?_⟩
      have hround := follows_run_of_le hfuel hrun (fun h => nomatch h)
      exact follows_bind_panicked hround
    | @matched _ next fuel₀ v runs result hrun hrest =>
      rcases follows_many hrest with ⟨n, hloop⟩
      rw [oneOrMore_map_cons, Functor.map_map]
      refine ⟨max fuel₀ n, fun fuel hfuel => follows_bind (follows_trace _ _ _) ?_⟩
      have hround := follows_run_of_le (by omega : fuel₀ ≤ fuel) hrun (fun h => nomatch h)
      refine follows_bind hround (follows_bind_quiet (hloop fuel fuel (by omega) (by omega)) ?_)
      exact fun found => follows_bind (follows_trace _ _ _) (follows_pure _)
  rounds fuel h := by
    rw [run_ending, endingAt_plus] at h
    rcases not_or.1 (mt Ending.andThen_eq_exhausted.2 h) with ⟨hfirst, hlater⟩
    refine exists_rounds_of_next hfirst fun next v hat => ?_
    exact exists_rounds_of_loopAt fun hloop =>
      hlater ⟨next, v, hat, Ending.bind_eq_exhausted.2 (.inl hloop)⟩

/-- `plus p`, or nothing, by `repeats_plus`. -/
theorem repeats_plus_or_nothing :
    g.Repeats p zeroOrMore (.or (.plus p) (.succeed [])) where
  follows h := by
    rcases (repeats_plus g p).follows h with ⟨n, hplus⟩
    refine ⟨n, fun fuel hfuel => ?_⟩
    have hleft := hplus fuel hfuel
    cases h with
    | failed => exact follows_bind hleft (follows_bind (follows_trace _ _ _) (follows_pure _))
    | panicked => exact follows_bind_panicked hleft
    | @matched _ _ _ v runs result _ hrest =>
      cases result with
      | returned found =>
        rw [← List.append_nil (_ :: runs)]
        exact follows_bind hleft (follows_pure _)
      | panicked panic => exact follows_bind_panicked hleft
      | exhausted => exact absurd rfl hrest.ne_exhausted
  rounds {c level label} fuel h := by
    rw [run_ending, endingAt_or] at h
    refine (repeats_plus g p).rounds fuel fun hleft => h ?_
    rw [← g.run_ending fuel _ c level label, hleft]
    rfl

/-- One, and then `star p`, by `repeats_star`. -/
theorem repeats_one_then_star :
    g.Repeats p oneOrMore (p >>= fun v => (v :: ·) <$> Parser.star p) where
  follows h := by
    cases h with
    | @failed _ fuel₀ hrun =>
      refine ⟨fuel₀, fun fuel hfuel => ?_⟩
      have hround := follows_run_of_le hfuel hrun (fun h => nomatch h)
      exact follows_bind hround (follows_pure _)
    | @panicked _ fuel₀ panic hrun =>
      refine ⟨fuel₀, fun fuel hfuel => ?_⟩
      have hround := follows_run_of_le hfuel hrun (fun h => nomatch h)
      exact follows_bind_panicked hround
    | @matched _ next fuel₀ v runs result hrun hrest =>
      rcases (repeats_star g p).follows hrest with ⟨n, hstar⟩
      refine ⟨max fuel₀ n, fun fuel hfuel => ?_⟩
      have hround := follows_run_of_le (by omega : fuel₀ ≤ fuel) hrun (fun h => nomatch h)
      rw [oneOrMore_map_cons]
      refine follows_bind hround (follows_bind (follows_call_pure ()) ?_)
      exact follows_functor_map (hstar fuel (by omega))
  rounds fuel h := by
    rw [run_ending, endingAt_bind] at h
    rcases not_or.1 (mt Ending.andThen_eq_exhausted.2 h) with ⟨hfirst, hlater⟩
    refine exists_rounds_of_next hfirst fun next v hat => ?_
    refine (repeats_star g p).rounds fuel fun hstar => hlater ⟨next, v, hat, ?_⟩
    rw [run_ending] at hstar
    rw [endingAt_functor_map, hstar]
    rfl

end Forms

/-! ## Loops and recursive definitions -/

/-- Two parsers that come to the same, with the same events on the way. -/
structure Alike (g : Grammar R) (q q' : Parser R β) : Prop where
  ending : ∀ c, g.ending q c = g.ending q' c
  events : ∀ c level label fuel fuel', (g.run fuel q c level label).ending ≠ .exhausted →
    (g.run fuel' q' c level label).ending ≠ .exhausted →
      (g.run fuel q c level label).journal.events = (g.run fuel' q' c level label).journal.events

section

variable {g : Grammar R} {p : Parser R α}

/-- At any fuel at which it ends, a repetition is what its rounds left behind. -/
theorem Repeats.follows_of_ended {answer : Cursor × List α → Outcome (List α)}
    {q : Parser R (List α)} (h : g.Repeats p answer q) {c : Cursor} {level : Trace.Level}
    {label : String} {runs : List (Run α)} {result : Ending (Cursor × List α)}
    (hrounds : g.Rounds p level label c runs result) {fuel : Nat}
    (hended : (g.run fuel q c level label).ending ≠ .exhausted) :
    (g.run fuel q c level label).Follows runs (answer <$> result) label := by
  rcases h.follows hrounds with ⟨n, hfollows⟩
  rw [← g.run_eq_of_le (Nat.le_max_left fuel n) q c level label hended]
  exact hfollows _ (Nat.le_max_right fuel n)

/-- Two parsers that repeat `p` have the same events: those of its rounds. -/
theorem Repeats.events_eq {answer answer' : Cursor × List α → Outcome (List α)}
    {q q' : Parser R (List α)} (h : g.Repeats p answer q) (h' : g.Repeats p answer' q') {c : Cursor}
    {level : Trace.Level} {label : String} {fuel fuel' : Nat}
    (hended : (g.run fuel q c level label).ending ≠ .exhausted)
    (hended' : (g.run fuel' q' c level label).ending ≠ .exhausted) :
    (g.run fuel q c level label).journal.events =
      (g.run fuel' q' c level label).journal.events := by
  rcases h.rounds fuel hended with ⟨runs, result, hrounds⟩
  calc (g.run fuel q c level label).journal.events
      = (runs.map fun run => run.step.journal).flatMap Journal.events :=
        (h.follows_of_ended hrounds hended).framed.events_eq
    _ = (g.run fuel' q' c level label).journal.events :=
        (h'.follows_of_ended hrounds hended').framed.events_eq.symm

theorem alike_star : g.Alike (.star p) (.or (.plus p) (.succeed [])) where
  ending c := by
    rw [ending_star, ending_or, ending_plus, ending_succeed]
  events _ _ _ _ _ := (repeats_star g p).events_eq (repeats_plus_or_nothing g p)

theorem alike_plus : g.Alike (.plus p) (p >>= fun v => (v :: ·) <$> Parser.star p) where
  ending c := by
    simp only [ending_plus, ending_bind, ending_functor_map]
  events _ _ _ _ _ := (repeats_plus g p).events_eq (repeats_one_then_star g p)

/-- `star p` never fails. -/
theorem ending_star_ne_failure (c : Cursor) : g.ending (.star p) c ≠ .returned .failure := by
  rw [ending_star_loop]
  rcases g.loop p c with _ | _ | _ <;> exact fun h => nomatch h

/-- `plus p` fails exactly if its first round does. -/
theorem ending_plus_eq_failure (c : Cursor) :
    g.ending (.plus p) c = .returned .failure ↔ g.ending p c = .returned .failure := by
  rw [ending_plus]
  rcases g.ending p c with (_ | ⟨next, v⟩) | _ | _
  · simp
  · rw [Ending.success_andThen, ending_star_loop]
    rcases g.loop p next with _ | _ | _ <;> simp
  · simp
  · simp

/-- The matches of the parser end further on in the same text. -/
def Advances (g : Grammar R) (p : Parser R α) : Prop :=
  ∀ c c' v, g.ending p c = .returned (.success c' v) → c'.input = c.input ∧ c.offset < c'.offset

/-- Matches that advance can follow one another only so often. By induction on what is left of the
text. -/
theorem exists_rounds_of_advances (hp : g.Advances p) (level : Trace.Level) (label : String)
    {c : Cursor} (hends : ∀ c', c.Reaches c' → g.ending p c' ≠ .exhausted) :
    ∃ runs result, g.Rounds p level label c runs result := by
  -- what is left of the text, in bytes, gets less with each match
  induction hleft : c.input.utf8ByteSize - c.offset using Nat.strong_induction_on
    generalizing c with
  | _ left ih =>
    subst hleft
    have hfirst : ∃ n, g.endingAt n p c ≠ .exhausted :=
      not_forall.1 (mt ending_eq_exhausted_iff.2 (hends c (.refl c)))
    rcases hfirst with ⟨n, hn⟩
    refine exists_rounds_of_next hn fun next v hat => ?_
    rcases hp c next v ((ending_eq_of_ne hn).trans hat) with ⟨hinput, hoffset⟩
    have hreach : c.Reaches next := Cursor.reaches_iff.2 ⟨hinput, Nat.le_of_lt hoffset⟩
    refine ih _ ?_ (fun c' h => hends c' (hreach.trans h)) rfl
    have hle := next.offset_le
    rw [hinput] at hle ⊢
    omega

end

/-- The loops and the recursive definitions. All four parsers go through the same rounds, which are
determined by where they start, and the two of a pair come to the same. Zero or more never fails;
one or more fails exactly if the first run does. Rounds that come to values have one run more than
there are values: the earlier ones matched with these values, in order, and the last one failed, at
the cursor that is handed on; rounds that come to a panic have it from their last run. Where the
matches advance and the parser ends wherever they lead, the rounds come to an end. -/
theorem repetition_unfolds (g : Grammar R) (p : Parser R α) :
    (g.Repeats p zeroOrMore (.star p) ∧ g.Repeats p zeroOrMore (.or (.plus p) (.succeed [])) ∧
      g.Alike (.star p) (.or (.plus p) (.succeed []))) ∧
    (g.Repeats p oneOrMore (.plus p) ∧
      g.Repeats p oneOrMore (p >>= fun v => (v :: ·) <$> Parser.star p) ∧
      g.Alike (.plus p) (p >>= fun v => (v :: ·) <$> Parser.star p)) ∧
    (∀ c, g.ending (.star p) c ≠ .returned .failure ∧
      (g.ending (.plus p) c = .returned .failure ↔ g.ending p c = .returned .failure)) ∧
    (∀ {level label c runs result}, g.Rounds p level label c runs result →
      (∀ runs' result', g.Rounds p level label c runs' result' → runs' = runs ∧ result' = result) ∧
      (∀ last vs, result = .returned (last, vs) → runs.length = vs.length + 1 ∧
        ∃ earlier step, runs = earlier ++ [⟨last, step⟩] ∧ step.ending = .returned .failure ∧
          List.Forall₂ (fun run v => ∃ next, run.step.ending = .returned (.success next v))
            earlier vs) ∧
      (∀ panic, result = .panicked panic →
        ∃ earlier run, runs = earlier ++ [run] ∧ run.step.ending = .panicked panic)) ∧
    (g.Advances p → ∀ {c}, (∀ c', c.Reaches c' → g.ending p c' ≠ .exhausted) →
      ∀ level label, ∃ runs result, g.Rounds p level label c runs result) := by
  refine ⟨⟨repeats_star g p, repeats_plus_or_nothing g p, alike_star⟩,
    ⟨repeats_plus g p, repeats_one_then_star g p, alike_plus⟩,
    fun c => ⟨ending_star_ne_failure c, ending_plus_eq_failure c⟩, fun h => ⟨?_, ?_, ?_⟩, ?_⟩
  · exact fun _ _ h' => h.unique h'
  · rintro last vs rfl
    rcases h.of_returned with ⟨earlier, step, rfl, hstep, hvalues⟩
    refine ⟨?_, earlier, step, rfl, hstep, hvalues⟩
    rw [List.length_append, hvalues.length_eq]
    rfl
  · rintro panic rfl
    exact h.of_panicked
  · exact fun hp c hends level label => exists_rounds_of_advances hp level label hends

/-- Digits, on a text that starts with two of them: they advance and always end, so there are
rounds, and three runs find the two. -/
theorem repetition_unfolds_digits :
    Grammar.none.Advances Lexeme.digit ∧
    (∀ level label, ∃ runs result,
      Grammar.none.Rounds Lexeme.digit level label (.ofText "12x") runs result) ∧
    ∃ runs, Grammar.none.Rounds Lexeme.digit .off "" (.ofText "12x") runs
        (.returned (⟨['2', '1'], ['x']⟩, ['1', '2'])) ∧
      runs.length = 3 := by
  have hadvances : Grammar.none.Advances Lexeme.digit := by
    intro c c' v h
    rcases ending_eq_returned_iff.1 h with ⟨n, hn⟩
    rcases like_eq_success hn with ⟨before, rest, rfl, rfl⟩
    have hread : (⟨before, v :: rest⟩ : Cursor).read = .ok (v, ⟨v :: before, rest⟩) := rfl
    refine ⟨Cursor.input_of_read hread, ?_⟩
    rw [Cursor.offset_of_read hread]
    exact Nat.lt_add_of_pos_right v.utf8Size_pos
  have hends : ∀ c', (Cursor.ofText "12x").Reaches c' →
      Grammar.none.ending Lexeme.digit c' ≠ .exhausted := by
    rintro ⟨before, _ | ⟨ch, rest⟩⟩ - <;> simp [Lexeme.digit]
  have hlast : Grammar.none.Rounds Lexeme.digit .off "" ⟨['2', '1'], ['x']⟩ _ _ :=
    .failed (show (Grammar.none.run 0 _ _ _ _).ending = _ by decide)
  have hsecond : Grammar.none.Rounds Lexeme.digit .off "" ⟨['1'], ['2', 'x']⟩ _ _ :=
    .matched (show (Grammar.none.run 0 _ _ _ _).ending = .returned (.success _ '2') by decide) hlast
  have hfirst : Grammar.none.Rounds Lexeme.digit .off "" (.ofText "12x") _
      (.returned (⟨['2', '1'], ['x']⟩, ['1', '2'])) :=
    .matched (show (Grammar.none.run 0 _ _ _ _).ending = .returned (.success _ '1') by decide)
      hsecond
  refine ⟨hadvances, (repetition_unfolds _ _).2.2.2.2 hadvances hends, _, hfirst, ?_⟩
  exact (((repetition_unfolds _ _).2.2.2.1 hfirst).2.1 _ _ rfl).1

end Grammar

end ParserCombinators
