import Mathlib.Logic.ExistsUnique
import ParserCombinators.Proofs.Conditions
import ParserCombinators.Proofs.Limits
import ParserCombinators.Proofs.Positions

/-!
# Relocation — only the unread text counts

A parser that starts in the middle of a text behaves as if the rest were a text of its own: it ends
in the same way, calls the same functions and writes the same records, and only the offset of the
cursor that it hands on tells the two runs apart. This asks of the functions of users that they make
no use of what has been read before.

- `Cursor.prepend`, `Outcome.prepend`: the same place, with more text in front
- `Ending.Shifted`: the same ending, but for the place of a match
- `Condition.oblivious`: functions that do not depend on what has been read
- `Action.Relocates`, `Parser.relocates_eval`, `Grammar.relocates_run`: such functions make such
  runs, journal and label included
- `Grammar.ReadsAhead`: the run behind a text and the run on the rest alone, side by side
- `Grammar.only_unread_text_counts`: all parsers, given such functions; the ready-made ones as they
  are
-/

namespace ParserCombinators

variable {R : Type → Type} {α β : Type}

/-! ## More text in front -/

def Cursor.prepend (earlier : String) (c : Cursor) : Cursor where
  before := c.before ++ earlier.toList.reverse
  rest := c.rest

def Outcome.prepend (earlier : String) : Outcome α → Outcome α
  | .failure => .failure
  | .success c v => .success (c.prepend earlier) v

namespace Cursor

/-- The text gets longer by what is put in front. -/
theorem input_prepend (earlier : String) (c : Cursor) :
    (c.prepend earlier).input = earlier ++ c.input := by
  apply String.toList_injective
  simp [prepend, input]

/-- The offset grows by the bytes of what is put in front. -/
theorem offset_prepend (earlier : String) (c : Cursor) :
    (c.prepend earlier).offset = earlier.utf8ByteSize + c.offset := by
  simp [prepend, offset, Text.byteSize_toList, Nat.add_comm]

/-- The cursor behind `earlier` is the start of the rest, with `earlier` in front;
`position_injective` leaves no other. -/
theorem eq_prepend_of_position {earlier rest : String} {c : Cursor}
    (h : c.position = ⟨earlier ++ rest, earlier.utf8ByteSize⟩) :
    c = (ofText rest).prepend earlier := by
  apply position_injective
  rw [h]
  simp [position, input_prepend, offset_prepend]

end Cursor

namespace Outcome

variable (earlier : String)

@[simp] theorem value?_prepend (o : Outcome α) : (o.prepend earlier).value? = o.value? := by
  cases o <;> rfl

@[simp] theorem isFailure_prepend (o : Outcome α) :
    (o.prepend earlier).isFailure = o.isFailure := by
  cases o <;> rfl

/-- A function on the value commutes with `prepend`. -/
theorem map_prepend (f : α → β) (o : Outcome α) :
    (o.prepend earlier).map f = (o.map f).prepend earlier := by
  cases o <;> rfl

end Outcome

/-- The second run ends as the first does, in the text with more in front: a match hands on the same
place of the longer text, with the same value; a failure, a panic and a run without end are the
same. -/
inductive Ending.Shifted (earlier : String) :
    Ending (Outcome α) → Ending (Outcome α) → Prop where
  | success {c c' : Cursor} (v : α) (hinput : c'.input = earlier ++ c.input)
      (hoffset : c'.offset = earlier.utf8ByteSize + c.offset) :
      Shifted earlier (.returned (.success c v)) (.returned (.success c' v))
  | failure : Shifted earlier (.returned .failure) (.returned .failure)
  | panicked (panic : Panic) : Shifted earlier (.panicked panic) (.panicked panic)
  | exhausted : Shifted earlier .exhausted .exhausted

/-- `Shifted` is what mapping `prepend` over an ending gives. -/
theorem Ending.shifted_map_prepend (earlier : String) (e : Ending (Outcome α)) :
    e.Shifted earlier (Outcome.prepend earlier <$> e) := by
  rcases e with (_ | ⟨c, v⟩) | panic | _
  · exact .failure
  · exact .success v (c.input_prepend earlier) (c.offset_prepend earlier)
  · exact .panicked panic
  · exact .exhausted

/-! ## Functions that do not depend on what has been read -/

namespace Condition

/-- The function answers the same with more text in front: the cursors that it hands on are then the
same places of the longer text, and all else is equal. -/
def oblivious : Condition where
  closure f := ∀ earlier c, f (c.prepend earlier) = Outcome.prepend earlier <$> f c
  choice choose := ∀ earlier c outcome,
    choose (c.prepend earlier) (outcome.prepend earlier) =
      Prod.map (Cursor.prepend earlier) id <$> choose c outcome

/-- The functions behind the derived parsers look at the unread text only. Those of `Placed` do not
qualify, as they report offsets. -/
theorem basic_oblivious : oblivious.Basic where
  fail _ _ := rfl
  any := by
    rintro R earlier ⟨before, _ | ⟨ch, rest⟩⟩
    · rfl
    · rfl
  look := by
    intro α earlier c outcome
    simp
  notFollowedBy := by
    intro α earlier c outcome
    simp
  firstOf := by
    intro α earlier c outcome
    cases outcome <;> rfl

end Condition

/-! ## Runs -/

namespace Engine

/-- Two runs that return corresponding values go on to do so if their sequels do. -/
theorem bind_eq_map_bind {α' β' : Type} {m : Engine α} {m' : Engine α'} {φ : α → α'}
    {f : α → Engine β} {f' : α' → Engine β'} {ψ : β → β'} (hm : m' = φ <$> m)
    (hf : ∀ a, f' (φ a) = ψ <$> f a) : (m' >>= f') = ψ <$> (m >>= f) := by
  rw [hm, bind_map_left, map_bind]
  exact bind_congr hf

/-- The same beginning, and sequels that return corresponding values. -/
theorem bind_eq_map_of_sequels {β' : Type} (m : Engine α) {f : α → Engine β}
    {f' : α → Engine β'} {ψ : β → β'} (hf : ∀ a, f' a = ψ <$> f a) :
    (m >>= f') = ψ <$> (m >>= f) :=
  bind_eq_map_bind (id_map m).symm hf

/-- A call of a mapped callback is the mapped call. -/
theorem call_map (φ : α → β) (callback : Callback α) :
    call (φ <$> callback) = φ <$> call callback := by
  funext level label
  rw [map_apply]
  rcases callback with ⟨events, fault | a⟩
  · rfl
  · show (⟨_, label, List.map _ (events ++ [])⟩ : Step β) = _
    rw [List.append_nil]
    rfl

/-- The cleanup does not see what is returned. -/
theorem ensuring_map (φ : α → β) (m : Engine α) (cleanup : Engine Unit) :
    (φ <$> m).ensuring cleanup = φ <$> m.ensuring cleanup := by
  funext level label
  rw [map_apply]
  unfold ensuring
  rw [map_apply]

/-- `withLabel` commutes with functions on what is returned. -/
theorem withLabel_map (label : String) (φ : α → β) (m : Engine α) :
    withLabel label (φ <$> m) = φ <$> withLabel label m := by
  refine bind_eq_map_of_sequels _ fun outer => bind_eq_map_of_sequels _ fun _ => ?_
  exact ensuring_map φ m (setLabel outer)

end Engine

open Engine

/-- With more text in front, the action does the same. -/
def Action.Relocates (p : Action α) : Prop :=
  ∀ earlier c, p (c.prepend earlier) = Outcome.prepend earlier <$> p c

namespace Action

/-- `readIf` sees the character under the cursor and nothing before it. -/
theorem relocates_readIf (op : Trace.Operation) (accepts : Char → Callback Bool) :
    (readIf op accepts).Relocates := by
  -- whether there is a character, and which, is seen in the rest alone
  rintro earlier ⟨before, _ | ⟨ch, rest⟩⟩
  · exact bind_eq_map_of_sequels _ fun _ => bind_eq_map_of_sequels _ fun _ => rfl
  · refine bind_eq_map_of_sequels _ fun _ => bind_eq_map_of_sequels _ fun accepted => ?_
    cases accepted with
    | false => exact bind_eq_map_of_sequels _ fun _ => rfl
    | true => exact bind_eq_map_of_sequels _ fun _ => rfl

/-- The end of the input is seen in the rest alone. -/
theorem relocates_endOfInput : endOfInput.Relocates := by
  rintro earlier ⟨before, _ | ⟨ch, rest⟩⟩
  · exact bind_eq_map_of_sequels _ fun _ => rfl
  · exact bind_eq_map_of_sequels _ fun _ => rfl

/-- Run lemma for sequences: each part starts at the same place of the longer text. By induction on
the parts. -/
theorem relocates_seqFrom (done : Nat) {ps : List (Action α)} (h : ∀ p ∈ ps, p.Relocates) :
    (seqFrom done ps).Relocates := by
  induction ps generalizing done with
  | nil => exact fun _ _ => bind_eq_map_of_sequels _ fun _ => rfl
  | cons p ps ih =>
    intro earlier c
    have hlater := ih (done + 1) fun q hq => h q (List.mem_cons_of_mem p hq)
    refine bind_eq_map_bind (h p List.mem_cons_self earlier c) fun outcome => ?_
    cases outcome with
    | failure => exact bind_eq_map_of_sequels _ fun _ => rfl
    | success next v =>
      refine bind_eq_map_bind (hlater earlier next) fun later => ?_
      rw [Outcome.map_prepend, map_pure]

/-- `str` is a sequence of characters with records around it. -/
theorem relocates_str (text : String) : (str text).Relocates := by
  intro earlier c
  have hchars : (seq (text.toList.map char)).Relocates := by
    refine relocates_seqFrom 0 fun p hp => ?_
    rcases List.mem_map.1 hp with ⟨ch, -, rfl⟩
    exact relocates_readIf _ _
  refine bind_eq_map_bind (hchars earlier c) fun chars => ?_
  cases chars with
  | failure => exact bind_eq_map_of_sequels _ fun _ => rfl
  | success next v => exact bind_eq_map_of_sequels _ fun _ => rfl

/-- A second attempt starts where the first one did. -/
theorem relocates_or {left right : Action α} (hl : left.Relocates) (hr : right.Relocates) :
    (or left right).Relocates := by
  intro earlier c
  refine bind_eq_map_bind (hl earlier c) fun outcome => ?_
  cases outcome with
  | failure => exact bind_eq_map_of_sequels _ fun _ => hr earlier c
  | success next v => rfl

theorem relocates_map {p : Action α} (hp : p.Relocates) (f : α → Callback β) :
    (p.map f).Relocates := by
  intro earlier c
  refine bind_eq_map_bind (hp earlier c) fun outcome => ?_
  cases outcome with
  | failure => rfl
  | success next v => exact bind_eq_map_of_sequels _ fun _ => rfl

/-- `option` is a choice, and its check of the outcome looks only at whether there is one. -/
theorem relocates_option {p : Action α} (hp : p.Relocates) : p.option.Relocates := by
  intro earlier c
  have hchoice := relocates_or (relocates_map hp fun v => pure (some v))
    (fun _ _ => rfl : (succeed none).Relocates)
  refine bind_eq_map_bind (hchoice earlier c) fun outcome => ?_
  cases outcome with
  | failure => rfl
  | success next v => rfl

/-- Run lemma for loops: the rounds are those of the loop with more text in front. By induction on
the rounds. -/
theorem many_prepend {p : Action α} (hp : p.Relocates) (fuel : Nat) (earlier : String)
    (c : Cursor) :
    many p fuel (c.prepend earlier) = Prod.map (Cursor.prepend earlier) id <$> many p fuel c := by
  induction fuel generalizing c with
  | zero => rfl
  | succ fuel ih =>
    refine bind_eq_map_bind (hp earlier c) fun outcome => ?_
    cases outcome with
    | failure => rfl
    | success next v => exact bind_eq_map_bind (ih next) fun _ => rfl

theorem relocates_star {p : Action α} (hp : p.Relocates) (fuel : Nat) :
    (star fuel p).Relocates := by
  intro earlier c
  refine bind_eq_map_of_sequels _ fun _ => bind_eq_map_bind (many_prepend hp fuel earlier c) ?_
  exact fun _ => bind_eq_map_of_sequels _ fun _ => rfl

/-- `star` and `plus` are loops by `many_prepend`, with records around them. -/
theorem relocates_plus {p : Action α} (hp : p.Relocates) (fuel : Nat) :
    (plus fuel p).Relocates := by
  intro earlier c
  refine bind_eq_map_of_sequels _ fun _ => bind_eq_map_bind (hp earlier c) fun outcome => ?_
  cases outcome with
  | failure => exact bind_eq_map_of_sequels _ fun _ => rfl
  | success next v =>
    refine bind_eq_map_bind (many_prepend hp fuel earlier next) ?_
    exact fun _ => bind_eq_map_of_sequels _ fun _ => rfl

/-- The next parser is chosen by the value, which is the same. -/
theorem relocates_chain {p : Action α} {next : α → Action β} (hp : p.Relocates)
    (effect : α → Callback Unit) (hnext : ∀ v, (next v).Relocates) :
    (chain p effect next).Relocates := by
  intro earlier c
  refine bind_eq_map_bind (hp earlier c) fun outcome => ?_
  cases outcome with
  | failure => rfl
  | success after v => exact bind_eq_map_of_sequels _ fun _ => hnext v earlier after

/-- The function that chooses is `oblivious`, so it chooses the same place of the longer text. -/
theorem relocates_inspect {γ : Type} {p : Action α}
    {choose : Cursor → Outcome α → Callback (Cursor × γ)} {next : γ → Action β} (hp : p.Relocates)
    (hchoose : Condition.oblivious.choice choose) (hnext : ∀ v, (next v).Relocates) :
    (inspect p choose next).Relocates := by
  intro earlier c
  refine bind_eq_map_bind (hp earlier c) fun outcome => ?_
  -- the function sees the start and the outcome, and both have the earlier text in front
  have hchosen : call (choose (c.prepend earlier) (outcome.prepend earlier)) =
      Prod.map (Cursor.prepend earlier) id <$> call (choose c outcome) := by
    rw [hchoose earlier c outcome, call_map]
  exact bind_eq_map_bind hchosen fun chosen => hnext chosen.2 earlier chosen.1

theorem relocates_deferred {p : Action α} (hp : p.Relocates) (factory : Callback Unit) :
    (deferred factory p).Relocates :=
  fun earlier c => bind_eq_map_of_sequels _ fun _ => hp earlier c

/-- The label is not part of the cursor. -/
theorem relocates_named {p : Action α} (hp : p.Relocates) (label : String) :
    (named label p).Relocates := by
  intro earlier c
  unfold named
  -- the label is put back around what is returned, so the map can go inside
  rw [← withLabel_map]
  exact congrArg _ (bind_eq_map_of_sequels _ fun _ => hp earlier c)

end Action

/-! ## Parsers and grammars -/

/-- Over rules that relocate, a parser with `oblivious` functions does. By structural induction,
with one lemma above for each form. -/
theorem Parser.relocates_eval {fuel : Nat} {rules : {α : Type} → R α → Action α}
    (hrules : ∀ {α : Type} (r : R α), (rules r).Relocates) {p : Parser R α}
    (hp : p.Meets .oblivious) : (p.eval fuel rules).Relocates := by
  induction p with
  | ok | succeed => exact fun _ _ => rfl
  | endOfInput => exact Action.relocates_endOfInput
  | like | char | oneOf => exact Action.relocates_readIf _ _
  | str text => exact Action.relocates_str text
  | succeedWith make => exact fun _ _ => bind_eq_map_of_sequels _ fun _ => rfl
  | seqOf n items ih =>
    refine Action.relocates_seqFrom 0 fun q hq => ?_
    rcases List.mem_ofFn.1 hq with ⟨i, rfl⟩
    exact ih i (hp i)
  | or left right ihl ihr => exact Action.relocates_or (ihl hp.1) (ihr hp.2)
  | star p ih => exact Action.relocates_star (ih hp) fuel
  | plus p ih => exact Action.relocates_plus (ih hp) fuel
  | option p ih => exact Action.relocates_option (ih hp)
  | chain p effect next ihp ihn =>
    exact Action.relocates_chain (ihp hp.1) effect fun v => ihn v (hp.2 v)
  | map p f ih => exact Action.relocates_map (ih hp) f
  | named label p ih => exact Action.relocates_named (ih hp) label
  | boxed p ih => exact ih hp
  | deferred factory p ih => exact Action.relocates_deferred (ih hp) factory
  | rule r => exact hrules r
  | closure f =>
    intro earlier c
    show call (f (c.prepend earlier)) = _ <$> call (f c)
    rw [hp earlier c, call_map]
  | inspect p choose next ihp ihn =>
    exact Action.relocates_inspect (ihp hp.1) hp.2.2 fun v => ihn v (hp.2.1 v)

namespace Grammar

variable {g : Grammar R}

/-- Rules relocate. By induction on fuel. -/
theorem relocates_call (hg : g.Meets .oblivious) (fuel : Nat) (r : R α) :
    (g.call fuel r).Relocates := by
  induction fuel generalizing α with
  | zero => exact fun _ _ => rfl
  | succ fuel ih => exact Parser.relocates_eval (fun r => ih r) (hg r)

theorem relocates_run (hg : g.Meets .oblivious) {p : Parser R α} (hp : p.Meets .oblivious)
    (fuel : Nat) : (g.run fuel p).Relocates :=
  Parser.relocates_eval (fun r => relocates_call hg fuel r) hp

/-! ## Two runs side by side -/

/-- A run at the cursor behind a text and a run on the rest alone: they end in the same way or not
at all, and at every fuel, level and label they end in the same way, leave the same label and write
the same journal, records and events. -/
structure ReadsAhead (g : Grammar R) {α : Type} (p : Parser R α) : Prop where
  ending : ∀ (earlier rest : String) (c : Cursor),
    c.position = ⟨earlier ++ rest, earlier.utf8ByteSize⟩ →
      (g.ending p (.ofText rest)).Shifted earlier (g.ending p c)
  step : ∀ (earlier rest : String) (c : Cursor),
    c.position = ⟨earlier ++ rest, earlier.utf8ByteSize⟩ → ∀ fuel level label,
      (g.run fuel p (.ofText rest) level label).ending.Shifted earlier
          (g.run fuel p c level label).ending ∧
        (g.run fuel p c level label).label = (g.run fuel p (.ofText rest) level label).label ∧
        (g.run fuel p c level label).journal = (g.run fuel p (.ofText rest) level label).journal

/-- `relocates_run` in the limit. -/
theorem ending_prepend (hg : g.Meets .oblivious) {p : Parser R α} (hp : p.Meets .oblivious)
    (earlier : String) (c : Cursor) :
    g.ending p (c.prepend earlier) = Outcome.prepend earlier <$> g.ending p c := by
  have hat : ∀ n, g.endingAt n p (c.prepend earlier) =
      g.endingAt n p c >>= fun outcome => .returned (outcome.prepend earlier) := by
    intro n
    show (g.run n p (c.prepend earlier) .off "").ending = _
    rw [relocates_run hg hp n earlier c, map_apply]
    rfl
  unfold ending
  rw [funext hat, Ending.limit_bind_const (g.settles_endingAt p c)]
  rfl

/-- At the cursor behind a text, a relocating run and its limit are those on the rest alone. -/
theorem readsAhead_of_meets (hg : g.Meets .oblivious) {p : Parser R α} (hp : p.Meets .oblivious) :
    g.ReadsAhead p where
  ending earlier rest c hc := by
    rw [Cursor.eq_prepend_of_position hc, ending_prepend hg hp]
    exact Ending.shifted_map_prepend earlier _
  step earlier rest c hc fuel level label := by
    rw [Cursor.eq_prepend_of_position hc, relocates_run hg hp fuel, map_apply]
    exact ⟨Ending.shifted_map_prepend earlier _, rfl, rfl⟩

/-- There is one cursor behind a text. A parser whose functions, and those of the rules, do not
depend on what has been read behaves there as on the rest alone. So do the parsers of descriptions
that never ask for an offset, with all ready-made parsers among them, and the parser of JSON
documents. -/
theorem only_unread_text_counts :
    (∀ earlier rest : String,
      ∃! c : Cursor, c.position = ⟨earlier ++ rest, earlier.utf8ByteSize⟩) ∧
    (∀ {R : Type → Type} {g : Grammar R}, g.Meets .oblivious →
      ∀ {α : Type} {p : Parser R α}, p.Meets .oblivious → g.ReadsAhead p) ∧
    (∀ (rules : List (String × Description)) (d : Description),
      Description.CasesPlaceless rules → d.Placeless →
        (Description.grammar rules).ReadsAhead d.toParser) ∧
    Json.grammar.ReadsAhead Json.document := by
  refine ⟨fun earlier rest => ?_, fun hg _ _ hp => readsAhead_of_meets hg hp,
    fun rules d hrules hd => ?_, ?_⟩
  · have hcuts : Position.Cuts ⟨earlier ++ rest, earlier.utf8ByteSize⟩ earlier rest := ⟨rfl, rfl⟩
    have hbetween := Cursor.position_between hcuts
    exact ⟨_, hbetween, fun c hc => Cursor.position_injective (hc.trans hbetween.symm)⟩
  · exact readsAhead_of_meets
      (Description.meets_grammar Condition.basic_oblivious rules (.inr hrules))
      (Description.meets_toParser Condition.basic_oblivious d (.inr hd))
  · exact readsAhead_of_meets (Json.meets_grammar Condition.basic_oblivious) Json.meets_document

/-- Characters read by a function of a user, behind a character of two bytes, and a described
expression. -/
theorem only_unread_text_counts_two_bytes :
    Cursor.position ⟨['é'], ['1']⟩ = ⟨"é" ++ "1", "é".utf8ByteSize⟩ ∧
    Grammar.none.ReadsAhead (.plus .any) ∧
    (Grammar.none.run 1 (.plus .any) (.ofText "1") .off "").ending =
      .returned (.success ⟨['1'], []⟩ ['1']) ∧
    (Grammar.none.run 1 (.plus .any) ⟨['é'], ['1']⟩ .off "").ending =
      .returned (.success ⟨['1', 'é'], []⟩ ['1']) ∧
    (Description.grammar []).ReadsAhead Description.expression.toParser := by
  refine ⟨by decide, ?_, by decide, by decide, ?_⟩
  · exact only_unread_text_counts.2.1 (fun r => nomatch (r : Empty)) Condition.basic_oblivious.any
  · exact only_unread_text_counts.2.2.1 [] .expression trivial trivial

end Grammar

end ParserCombinators
