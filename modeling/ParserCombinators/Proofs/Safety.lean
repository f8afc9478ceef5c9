import Mathlib.Logic.ExistsUnique
import ParserCombinators.Proofs.StoredRuns

/-!
# Safety — matches keep their place, and no check of the engine fails

What a parser hands on is a place in the text that it was given, not before the place where it
started. So a stored position is always one at which the text can be cut, and the engine's checks
are there in vain, in each run over positions as well: only the functions of users can cut a run
short.

- `Grammar.KeepsPlace`: matches end in the same text, at or after their start
- `Grammar.matches_keep_place`: if the parsers that users wrote keep their place, all do
- `Position.Obtained`: the positions that starting, reading and matching lead to
- `Grammar.panics_are_faults`: no check fails at a position that was obtained in this way, nor in
  any run over positions
-/

namespace ParserCombinators

variable {R : Type → Type} {α : Type}

namespace Grammar

/-! ## Matches keep their place -/

/-- Matches of the parser end in the text in which they started, at a valid position that is not
before the start. The text between the two is a first part of what was unread, and becomes a last
part of what is read. -/
def KeepsPlace (g : Grammar R) {α : Type} (p : Parser R α) : Prop :=
  ∀ fuel c level label c' v, (g.run fuel p c level label).ending = .returned (.success c' v) →
    c'.input = c.input ∧ c'.position.Valid ∧ c.offset ≤ c'.offset ∧
      ∃ taken, c.remaining = taken ++ c'.remaining ∧ c'.consumed = c.consumed ++ taken

/-- `KeepsPlace` speaks of positions, `ForwardAt` of reading; they agree by `reaches_iff`. -/
theorem keepsPlace_iff_forwardAt {g : Grammar R} {p : Parser R α} :
    g.KeepsPlace p ↔ ∀ fuel, g.ForwardAt fuel p := by
  constructor
  · intro h fuel c c' v hmatch
    rw [← g.run_ending fuel p c .off ""] at hmatch
    rcases h fuel c .off "" c' v hmatch with ⟨hinput, -, hle, -⟩
    exact Cursor.reaches_iff.2 ⟨hinput, hle⟩
  · intro h fuel c level label c' v hmatch
    rw [run_ending] at hmatch
    rcases Cursor.reaches_iff.1 (h fuel c c' v hmatch) with ⟨hinput, hle⟩
    rcases c.cuts_position.exists_between c'.cuts_position hinput hle with ⟨taken, hleft, hright⟩
    exact ⟨hinput, c'.valid_position, hle, taken, hright, hleft⟩

/-- `forwardAt_of_closures`, said of positions. -/
theorem keepsPlace_of_closures {g : Grammar R}
    (hg : ∀ {α : Type} (r : R α), (g.body r).EveryClosure g.KeepsPlace) {p : Parser R α}
    (hp : p.EveryClosure g.KeepsPlace) : g.KeepsPlace p := by
  have hforward : ∀ {α : Type} {p : Parser R α}, p.EveryClosure g.KeepsPlace →
      p.EveryClosure fun q => ∀ n, g.ForwardAt n q :=
    fun h => h.mono fun _ => keepsPlace_iff_forwardAt.1
  exact keepsPlace_iff_forwardAt.2 fun fuel =>
    forwardAt_of_closures (fun r => hforward (hg r)) (hforward hp)

/-- Functions that move forward make parsers that keep their place. -/
theorem keepsPlace_of_meets {g : Grammar R} (hg : g.Meets .forward) {p : Parser R α}
    (hp : p.Meets .forward) : g.KeepsPlace p := by
  have hforward : g.Forward := fun r => Parser.forward_of_meets (hg r)
  exact keepsPlace_iff_forwardAt.2 fun _ _ _ _ hmatch =>
    reaches_of_success hforward (Parser.forward_of_meets hp) hmatch

/-- Cursors are exactly the valid positions of texts. A parser keeps its place if the parsers in it
do that users wrote as functions, and in the rules as well; the parsers of descriptions and of JSON
documents, with all ready-made parsers among them, keep their place as they are. -/
theorem matches_keep_place :
    (∀ x : Position, x.Valid ↔ ∃! c : Cursor, c.position = x) ∧
    (∀ {R : Type → Type} {g : Grammar R},
      (∀ {α : Type} (r : R α), (g.body r).EveryClosure g.KeepsPlace) →
      ∀ {α : Type} {p : Parser R α}, p.EveryClosure g.KeepsPlace → g.KeepsPlace p) ∧
    (∀ (rules : List (String × Description)) (d : Description),
      (Description.grammar rules).KeepsPlace d.toParser) ∧
    Json.grammar.KeepsPlace Json.document := by
  refine ⟨fun x => ?_, fun hg _ _ hp => keepsPlace_of_closures hg hp, fun rules d => ?_, ?_⟩
  · rw [Cursor.valid_iff_exists_position]
    constructor
    · rintro ⟨c, hc⟩
      exact ⟨c, hc, fun c' hc' => Cursor.position_injective (hc'.trans hc.symm)⟩
    · exact ExistsUnique.exists
  · exact keepsPlace_of_meets
      (Description.meets_grammar Condition.basic_forward rules (.inl Condition.placed_forward))
      (Description.meets_toParser Condition.basic_forward d (.inl Condition.placed_forward))
  · exact keepsPlace_of_meets (Json.meets_grammar Condition.basic_forward) Json.meets_document

/-- Two characters, read by functions of a user, the first of them two bytes long: the second
function starts and ends at a valid position. -/
theorem matches_keep_place_two_characters :
    Position.Valid ⟨"é1", 2⟩ ∧
    Grammar.none.KeepsPlace (Parser.seq [Parser.any, Parser.any]) ∧
    (Grammar.none.run 0 (Parser.seq [Parser.any, Parser.any]) (.ofText "é1") .off "").ending =
      .returned (.success ⟨['1', 'é'], []⟩ ['é', '1']) := by
  have hany : Grammar.none.KeepsPlace Parser.any :=
    keepsPlace_of_meets (fun r => nomatch (r : Empty)) Condition.basic_forward.any
  refine ⟨?_, ?_, by decide⟩
  · decide
  · refine matches_keep_place.2.1 (fun r => nomatch (r : Empty)) fun i => ?_
    match i with
    | 0 => exact hany
    | 1 => exact hany

end Grammar

/-! ## No check fails -/

/-- The positions that can be come by: the start of a text, the next position after a read, and the
end of a match that started at such a position. -/
inductive Position.Obtained (g : Grammar R) : Position → Prop where
  | start (text : String) : Obtained g (.start text)
  | read {x y : Position} {largest : Nat} {ch : Char} (hx : Obtained g x)
      (hread : x.read largest = .ok (.ok (ch, y))) : Obtained g y
  | success {α : Type} {p : Parser R α} {c c' : Cursor} {fuel : Nat} {level : Trace.Level}
      {label : String} {v : α} (hc : Obtained g c.position)
      (hmatch : (g.run fuel p c level label).ending = .returned (.success c' v)) :
      Obtained g c'.position

/-- An invariant of starting, reading and matching: the position is that of a cursor. -/
theorem Position.Obtained.exists_cursor {g : Grammar R} {x : Position} (h : x.Obtained g) :
    ∃ c : Cursor, c.position = x := by
  induction h with
  | start text => exact ⟨.ofText text, Cursor.position_start text⟩
  | read _ hread ih =>
    rcases ih with ⟨c, rfl⟩
    rcases Cursor.exists_position_of_read hread with ⟨next, -, hnext⟩
    exact ⟨next, hnext⟩
  | success _ _ _ => exact ⟨_, rfl⟩

namespace Grammar

/-- A position that was obtained by starting, reading and matching is that of a cursor, and a run
from there panics only with a fault that a function of a user raises, in the parser or in a rule.
At every cursor, and so wherever a run comes by, the operations on positions pass their checks: no
text is cut beyond its end or through a character, no offset outgrows the words that can hold the
size of the text, and no character is missing where the end has not been reached. So a run over
positions, which makes all of these checks itself, is never trapped and is the run over cursors, and
so is a whole parse; the functions of users need only hand on texts whose sizes fit into words. -/
theorem panics_are_faults {g : Grammar R} {x : Position} (hx : x.Obtained g) :
    (∃ c : Cursor, c.position = x ∧ ∀ {α : Type} (p : Parser R α) fuel level label panic,
      (g.run fuel p c level label).ending = .panicked panic →
        ∃ fault, panic = .fault fault ∧ (p.MayRaise fault ∨ g.MayRaise fault)) ∧
    (∀ c : Cursor, c.Checked) ∧
    ∀ largest, g.Meets (.fits largest) → ∀ {α : Type} {p : Parser R α}, p.Meets (.fits largest) →
      (x.input.utf8ByteSize ≤ largest → ∃ c : Cursor, c.position = x ∧ ∀ fuel,
        (g.runStored largest fuel p x).run =
          (fun outcome => .ok outcome.stored) <$> g.run fuel p c) ∧
      ∀ text : String, text.utf8ByteSize ≤ largest →
        (g.parseStored largest p text).run =
          (fun outcome => .ok outcome.stored) <$> g.parse p text := by
  rcases hx.exists_cursor with ⟨c, rfl⟩
  refine ⟨⟨c, rfl, fun p fuel level label panic h => ?_⟩, Cursor.checked,
    fun largest hg α p hp => ?_⟩
  · rw [run_ending] at h
    exact faultsIn_endingAt p c panic h
  · exact ⟨fun hsize => ⟨c, rfl, runStored_position hg hp hsize⟩,
      fun text htext => parseStored_eq hg hp htext⟩

/-- Behind the first character of a text, which is two bytes long, a predicate that gives up is the
only thing that can go wrong, and a run over positions in words up to 3 is not trapped. -/
theorem panics_are_faults_predicate :
    Position.Obtained Grammar.none ⟨"é1", 2⟩ ∧
    (∃ c : Cursor, c.position = ⟨"é1", 2⟩ ∧ ∀ fuel level label panic,
      (Grammar.none.run fuel (.star (.like fun _ => Callback.raise (.raised "no"))) c level
        label).ending = .panicked panic → panic = .fault (.raised "no")) ∧
    (∀ fuel level label trap, ((Grammar.none.runStored 3 fuel (.plus .any) ⟨"é1", 2⟩).run level
      label).ending ≠ .returned (.error trap)) ∧
    ((Grammar.none.runStored 3 1 (.plus .any) ⟨"é1", 2⟩).run .off "").ending =
      .returned (.ok (some (⟨"é1", 3⟩, ['1']))) := by
  have hread : (Position.start "é1").read 3 = .ok (.ok ('é', ⟨"é1", 2⟩)) :=
    Cursor.position_read (.ofText "é1") (by decide)
  have hx : Position.Obtained Grammar.none ⟨"é1", 2⟩ := .read (.start "é1") hread
  rcases panics_are_faults hx with ⟨⟨c, hc, hpanics⟩, -, hstored⟩
  have hany : (Parser.plus .any : Parser NoRule _).Meets (.fits 3) := (Condition.basic_fits 3).any
  rcases (hstored 3 (fun r => nomatch (r : Empty)) hany).1 (by decide) with ⟨c', hc', hrun⟩
  refine ⟨hx, ⟨c, hc, fun fuel level label panic h => ?_⟩,
    fun fuel => StoredRun.ne_trap (hrun fuel), ?_⟩
  · rcases hpanics _ fuel level label panic h with ⟨fault, rfl, ⟨ch, hraised⟩ | ⟨α, r, -⟩⟩
    · cases hraised
      rfl
    · exact nomatch (r : Empty)
  · have hcursor : c' = ⟨['é'], ['1']⟩ := Cursor.position_injective (hc'.trans rfl)
    rw [hrun, hcursor]
    rfl

end Grammar

end ParserCombinators
