import Mathlib.Algebra.BigOperators.Group.List.Basic
import ParserCombinators.Proofs.Scanners

/-!
# Matches — the texts that parsers take

A parser is sound for a family of languages if the text of each match belongs to the language of its
value. Soundness is shown for one form of parser after another; each rule also says where a panic
may come from.

- `Ending.Ensures`: what holds of each match, and of each panic
- `Cursor.Between`: the text between two cursors belongs to a language
- `Grammar.ensures_token`, `Grammar.ensures_star`: words and repetitions
- `Grammar.Reads`: the other direction, a text is taken where the right text follows
- `Grammar.alone`, `Grammar.answer`: parsers for whole texts, and their values
-/

namespace ParserCombinators

variable {R : Type → Type} {α β : Type}

/-! ## Matches and panics -/

namespace Ending

/-- Each match satisfies `S`, and each panic satisfies `P`. -/
structure Ensures (S : Cursor → α → Prop) (P : Panic → Prop) (e : Ending (Outcome α)) : Prop where
  success : ∀ c v, e = .returned (.success c v) → S c v
  panic : ∀ p, e = .panicked p → P p

namespace Ensures

variable {S : Cursor → α → Prop} {P : Panic → Prop} {e e' : Ending (Outcome α)}

theorem failure : (Ending.returned .failure).Ensures S P := by
  constructor
  · intro c v h
    cases h
  · intro p h
    cases h

theorem returned {c : Cursor} {v : α} (h : S c v) :
    (Ending.returned (.success c v)).Ensures S P := by
  constructor
  · intro c' v' heq
    cases heq
    exact h
  · intro p heq
    cases heq

theorem panicked {p : Panic} (h : P p) : (Ending.panicked p).Ensures S P := by
  constructor
  · intro c v heq
    cases heq
  · intro p' heq
    cases heq
    exact h

/-- `Ensures` is monotone in both of its predicates. -/
theorem mono {S' : Cursor → α → Prop} {P' : Panic → Prop} (he : e.Ensures S P)
    (hS : ∀ c v, S c v → S' c v) (hP : ∀ p, P p → P' p) : e.Ensures S' P' :=
  ⟨fun c v h => hS c v (he.success c v h), fun p h => hP p (he.panic p h)⟩

/-- Composition: the sequel is asked only behind matches that satisfy `S`. -/
theorem andThen {S' : Cursor → β → Prop} {f : Cursor → α → Ending (Outcome β)}
    (he : e.Ensures S P) (hf : ∀ c v, S c v → (f c v).Ensures S' P) :
    (e.andThen f).Ensures S' P := by
  constructor
  · intro c w h
    rcases andThen_eq_success.1 h with ⟨middle, v, hfirst, hlater⟩
    exact (hf middle v (he.success middle v hfirst)).success c w hlater
  · intro p h
    rcases andThen_eq_panicked.1 h with hfirst | ⟨middle, v, hfirst, hlater⟩
    · exact he.panic p hfirst
    · exact (hf middle v (he.success middle v hfirst)).panic p hlater

/-- A second attempt ensures what both attempts do. -/
theorem orElse (he : e.Ensures S P) (he' : e'.Ensures S P) : (e.orElse e').Ensures S P := by
  constructor
  · intro c v h
    rcases orElse_eq_success.1 h with hfirst | ⟨-, hlater⟩
    · exact he.success c v hfirst
    · exact he'.success c v hlater
  · intro p h
    rcases orElse_eq_panicked.1 h with hfirst | ⟨-, hlater⟩
    · exact he.panic p hfirst
    · exact he'.panic p hlater

end Ensures

end Ending

/-! ## Texts between cursors -/

namespace Cursor

/-- The text that was read on the way from the first cursor to the second belongs to `L`. -/
def Between (L : Language Char) (c c' : Cursor) : Prop :=
  ∃ text ∈ L, c.rest = text ++ c'.rest

namespace Between

variable {L M : Language Char} {a b c : Cursor}

theorem mono (hLM : ∀ text ∈ L, text ∈ M) (h : Between L a b) : Between M a b := by
  rcases h with ⟨text, htext, hrest⟩
  exact ⟨text, hLM text htext, hrest⟩

theorem nil (h : [] ∈ L) : Between L c c :=
  ⟨[], h, rfl⟩

/-- Texts between cursors compose to a text of the product. -/
theorem append (hab : Between L a b) (hbc : Between M b c) : Between (L * M) a c := by
  rcases hab with ⟨w, hw, hrest⟩
  rcases hbc with ⟨w', hw', hrest'⟩
  refine ⟨w ++ w', Language.append_mem_mul hw hw', ?_⟩
  rw [hrest, hrest', List.append_assoc]

/-- The text that is left is a suffix of the text that was. -/
theorem suffix (h : Between L a b) : b.rest <:+ a.rest := by
  rcases h with ⟨text, -, hrest⟩
  exact ⟨text, hrest.symm⟩

/-- A text of a language without the empty one shortens the unread text. -/
theorem length_lt (h : Between L a b) (hL : [] ∉ L) : b.rest.length < a.rest.length := by
  rcases h with ⟨text, htext, hrest⟩
  -- the text that was read is not empty, as `L` has no empty text
  have hpos : 0 < text.length := by
    apply List.length_pos_iff.2
    rintro rfl
    exact hL htext
  rw [hrest, List.length_append]
  exact Nat.lt_add_of_pos_left hpos

/-- Between a cursor and the end of the input is all of its unread text. -/
theorem mem_of_end (h : Between L a b) (hend : b.rest = []) : a.rest ∈ L := by
  rcases h with ⟨text, htext, hrest⟩
  rwa [hrest, hend, List.append_nil]

end Between

/-- `skip isBlank` leads over a text of blanks. -/
theorem between_blanks (c : Cursor) : Between Text.blanks c (c.skip Text.isBlank) :=
  ⟨c.rest.takeWhile Text.isBlank, fun _ => List.mem_takeWhile_imp, rest_eq_append_skip _ c⟩

end Cursor

open Cursor (Between)

namespace Grammar

variable (g : Grammar R)

/-! ## Words -/

/-- If `p` is sound for `L`, then `token p` is for the words of `L`. -/
theorem ensures_token {p : Parser R α} {L : α → Language Char} {P : Panic → Prop} {c : Cursor}
    (hp : (g.ending p c).Ensures (fun c' v => Between (L v) c c') P) :
    (g.ending (Lexeme.token p) c).Ensures (fun c' v => Between (Text.words (L v)) c c') P := by
  rw [ending_token]
  refine hp.andThen fun c' v hv => .returned ?_
  exact hv.append c'.between_blanks

/-- `char ch` is sound for the one text `[ch]`. -/
theorem ensures_char (ch : Char) (P : Panic → Prop) (c : Cursor) :
    (g.ending (.char ch) c).Ensures (fun c' _ => Between {[ch]} c c') P := by
  rcases c with ⟨before, _ | ⟨x, rest⟩⟩
  · rw [g.ending_char_of_clear Text.clear_nil]
    exact .failure
  · by_cases hx : x = ch
    · subst hx
      rw [ending_char_self]
      exact .returned ⟨[x], rfl, rfl⟩
    · rw [g.ending_char_of_clear (Text.clear_cons.2 (by simpa using hx))]
      exact .failure

theorem ensures_token_char (ch : Char) (P : Panic → Prop) (c : Cursor) :
    (g.ending (Lexeme.token (.char ch)) c).Ensures
      (fun c' _ => Between (Text.words {[ch]}) c c') P :=
  g.ensures_token (g.ensures_char ch P c)

/-- `integer` is sound for the numerals of its value, and does not panic. -/
theorem ensures_integer (P : Panic → Prop) (c : Cursor) :
    (g.ending Lexeme.integer c).Ensures (fun c' n => Between (Lexeme.numerals n) c c') P := by
  constructor
  · intro c' n h
    rcases g.numeral_of_ending_integer h with ⟨text, htext, hrest, -⟩
    exact ⟨text, htext, hrest⟩
  · intro p h
    exact absurd h (g.ending_integer_ne_panicked c p)

/-! ## Repetitions -/

/-- Run lemma: if each round takes a text of the language of its value, `star p` takes the texts of
its values one behind the other. `P` is inherited backwards along suffixes, so a panic of a later
round is one of the repetition. -/
theorem ensures_star {p : Parser R α} {L : α → Language Char} (hL : ∀ v, [] ∉ L v)
    {P : Cursor → Panic → Prop}
    (hP : ∀ {c c' : Cursor} {panic}, c'.rest <:+ c.rest → P c' panic → P c panic) {n : Nat}
    (hp : ∀ c : Cursor, c.rest.length ≤ n →
      (g.ending p c).Ensures (fun c' v => Between (L v) c c') (P c)) :
    ∀ c : Cursor, c.rest.length ≤ n →
      (g.ending p.star c).Ensures (fun c' vs => Between (vs.map L).prod c c') (P c) := by
  intro c
  -- rounds make the unread text shorter, so the induction is on its length
  induction hlen : c.rest.length using Nat.strong_induction_on generalizing c with
  | _ len ih =>
    intro hn
    subst hlen
    rw [ending_star]
    refine .orElse ((hp c hn).andThen fun next v hv => ?_) (.returned (.nil rfl))
    have hshort : next.rest.length < c.rest.length := hv.length_lt (hL v)
    have hrest : (g.ending p.star next).Ensures
        (fun c' vs => Between (vs.map L).prod next c') (P next) :=
      ih _ hshort next rfl (hshort.le.trans hn)
    have hlater : (g.ending p.star next).Ensures
        (fun c' vs => Between (vs.map L).prod next c') (P c) :=
      hrest.mono (fun _ _ h => h) fun _ h => hP hv.suffix h
    refine hlater.andThen fun last vs hvs => .returned ?_
    rw [List.map_cons, List.prod_cons]
    exact hv.append hvs

/-! ## Texts that are taken -/

/-- The parser takes the text for the value, wherever what follows is as `follow` says. -/
def Reads (p : Parser R α) (v : α) (text : List Char) (follow : List Char → Prop) : Prop :=
  ∀ after, follow after → ∀ before, g.ending p ⟨before, text ++ after⟩ =
    .returned (.success ⟨text.reverse ++ before, after⟩ v)

namespace Reads

variable {g} {p : Parser R α} {v : α} {text : List Char} {follow : List Char → Prop}

/-- A stronger condition on what follows. -/
theorem mono {follow' : List Char → Prop} (h : ∀ after, follow' after → follow after)
    (hp : g.Reads p v text follow) : g.Reads p v text follow' :=
  fun after hafter => hp after (h after hafter)

/-- A function on the value does not change what is read. -/
theorem mapValue (f : α → β) (hp : g.Reads p v text follow) :
    g.Reads (f <$> p) (f v) text follow := by
  intro after hafter before
  rw [ending_functor_map, hp after hafter, Ending.success_andThen]

/-- One text behind the other. `hmore` says that `p` can tell where its text ends: what comes next
is a text that `p` may be followed by. -/
protected theorem bind {next : α → Parser R β} {w : β} {more : List Char}
    {follow' : List Char → Prop} (hp : g.Reads p v text follow)
    (hnext : g.Reads (next v) w more follow') (hmore : ∀ after, follow' after →
      follow (more ++ after)) : g.Reads (p >>= next) w (text ++ more) follow' := by
  intro after hafter before
  rw [ending_bind, List.append_assoc, hp _ (hmore after hafter), Ending.success_andThen,
    hnext after hafter, List.reverse_append, List.append_assoc]

/-- `star p` reads nothing where `p` fails on all that may follow. -/
theorem star_nil (h : ∀ after, follow after → ∀ before,
    g.ending p ⟨before, after⟩ = .returned .failure) : g.Reads p.star [] [] follow := by
  intro after hafter before
  rw [ending_star, List.nil_append, h after hafter, Ending.failure_andThen, Ending.failure_orElse]
  rfl

/-- Step lemma for `star p`, from the last round to the first: one text of `p` before those of `star
p`. -/
theorem star_cons {vs : List α} {more : List Char} {follow' : List Char → Prop}
    (hp : g.Reads p v text follow) (hstar : g.Reads p.star vs more follow')
    (hmore : ∀ after, follow' after → follow (more ++ after)) :
    g.Reads p.star (v :: vs) (text ++ more) follow' := by
  intro after hafter before
  rw [ending_star, List.append_assoc, hp _ (hmore after hafter), Ending.success_andThen,
    hstar after hafter, Ending.success_andThen, Ending.success_orElse, List.reverse_append,
    List.append_assoc]

/-- `option p` reads nothing where `p` fails on all that may follow. -/
theorem option_none (h : ∀ after, follow after → ∀ before,
    g.ending p ⟨before, after⟩ = .returned .failure) : g.Reads p.option .none [] follow := by
  intro after hafter before
  rw [ending_option, List.nil_append, h after hafter, Ending.failure_andThen,
    Ending.failure_orElse]
  rfl

/-- `option p` reads what `p` reads. -/
theorem option_some (hp : g.Reads p v text follow) : g.Reads p.option (some v) text follow := by
  intro after hafter before
  rw [ending_option, hp after hafter, Ending.success_andThen, Ending.success_orElse]

/-- `token p` reads a word with all its blanks, where neither a blank nor anything else that `p`
would take follows. -/
theorem token {kind : Char → Bool} {spaces : List Char} (hspaces : spaces ∈ Text.blanks)
    (hkind : ∀ ch, Text.isBlank ch = true → kind ch = false)
    (hp : g.Reads p v text (Text.Clear kind)) :
    g.Reads (Lexeme.token p) v (text ++ spaces)
      fun after => Text.Clear kind after ∧ Text.Clear Text.isBlank after := by
  intro after hafter before
  -- right behind the word is one of its blanks or, if it has none, what follows
  have hclear : Text.Clear kind (spaces ++ after) := by
    cases spaces with
    | nil => exact hafter.1
    | cons ch spaces => exact Text.clear_cons.2 (hkind ch (hspaces ch (by simp)))
  rw [List.append_assoc, ending_token, hp _ hclear, Ending.success_andThen,
    Cursor.skip_append hspaces hafter.2, List.reverse_append, List.append_assoc]

/-- `token (char ch)` reads a word of the one character. -/
theorem token_char {ch : Char} (htext : text ∈ Text.words {[ch]}) :
    g.Reads (Lexeme.token (.char ch)) ch text (Text.Clear Text.isBlank) := by
  intro after hafter before
  rcases Text.mem_words_singleton.1 htext with ⟨spaces, hspaces, rfl⟩
  exact ending_token_char g hspaces hafter before

end Reads

/-! ## Whole texts -/

/-- A parser for a whole text: there may be blanks before it, and nothing is behind it. -/
def alone (p : Parser R α) : Parser R α := do
  let _ ← Lexeme.blanks
  let v ← p
  (fun _ => v) <$> Parser.endOfInput

def answer (p : Parser R α) (text : String) : Engine (Option α) := do
  let outcome ← g.parse (alone p) text
  pure outcome.value?

/-- `alone p` is `p` behind the blanks at the start, and fails if anything is left. -/
theorem ending_alone (p : Parser R α) (c : Cursor) :
    g.ending (alone p) c =
      (g.ending p (c.skip Text.isBlank)).andThen fun c' v =>
        .returned (if c'.rest = [] then .success c' v else .failure) := by
  unfold alone
  rw [ending_bind, ending_blanks, Ending.success_andThen, ending_bind]
  refine congrArg (Ending.andThen _) (funext fun c' => funext fun v => ?_)
  -- nothing may be left behind the value
  rcases c' with ⟨before, _ | ⟨ch, rest⟩⟩
  · simp
  · simp

/-- A parse ends as its parser does, if `fuelFor` is enough for the run. -/
theorem parse_ending {p : Parser R α} {text : String}
    (h : g.endingAt (g.fuelFor (.ofText text)) p (.ofText text) ≠ .exhausted)
    (level : Trace.Level) (label : String) :
    (g.parse p text level label).ending = g.ending p (.ofText text) := by
  -- a parse is its run with a few records around it
  have huniform : (g.parse p text).Uniform :=
    .bind (.bind (.trace _ _ _) fun _ => .pure _) fun c => .bind (.write _) fun _ =>
      .bind (g.uniform_run _ p c) fun _ => .bind (.write _) fun _ => .pure _
  have hwrite : ∀ outcome : Outcome α,
      (Engine.write (verdict outcome) >>= fun _ => pure outcome : Engine (Outcome α)).Uniform :=
    fun outcome => .bind (.write _) fun _ => .pure _
  rw [huniform.ending_eq, ending_eq_of_ne h]
  show (g.runAt p (.ofText text) >>= fun outcome =>
    (Engine.write (verdict outcome) >>= fun _ => pure outcome)).ending = _
  rw [Engine.ending_bind _ hwrite]
  show (g.endingAt (g.fuelFor (.ofText text)) p (.ofText text) >>= Ending.returned) = _
  rcases g.endingAt (g.fuelFor (.ofText text)) p (.ofText text) with _ | _ | _ <;> rfl

section

variable {p : Parser R α} {text : String}
  (hends : g.endingAt (g.fuelFor (.ofText text)) (alone p) (.ofText text) ≠ .exhausted)

include hends

/-- An answer is the value of the outcome of `alone p`, at the fuel of the parse. -/
theorem answer_ending (level : Trace.Level) (label : String) :
    (g.answer p text level label).ending =
      g.ending (alone p) (.ofText text) >>= fun outcome => .returned outcome.value? := by
  have hvalue : ∀ outcome : Outcome α, (pure outcome.value? : Engine (Option α)).Uniform :=
    fun _ => .pure _
  unfold answer
  rw [Engine.ending_bind_at _ hvalue, g.parse_ending hends]
  rfl

/-- Given that fuel, there is an answer or a panic. -/
theorem answer_ne_exhausted (level : Trace.Level) (label : String) :
    (g.answer p text level label).ending ≠ .exhausted := by
  intro h
  rw [g.answer_ending hends] at h
  rcases Ending.bind_eq_exhausted.1 h with hparse | ⟨outcome, -, hvalue⟩
  · exact hends ((g.ending_eq_of_ne hends).symm.trans hparse)
  · cases hvalue

/-- Soundness for whole texts: only a text of the language of `v`, behind blanks, has the answer
`v`. -/
theorem mem_of_answer {L : α → Language Char} {P : Panic → Prop}
    (hp : (g.ending p ((Cursor.ofText text).skip Text.isBlank)).Ensures
      (fun c' v => Between (L v) ((Cursor.ofText text).skip Text.isBlank) c') P)
    (level : Trace.Level) (label : String) :
    (∀ v, (g.answer p text level label).ending = .returned (some v) →
      text.toList ∈ Text.blanks * L v) ∧
    ∀ panic, (g.answer p text level label).ending = .panicked panic → P panic := by
  have hblanks : Between Text.blanks (.ofText text) ((Cursor.ofText text).skip Text.isBlank) :=
    (Cursor.ofText text).between_blanks
  have hwhole : (g.ending (alone p) (.ofText text)).Ensures
      (fun _ v => text.toList ∈ Text.blanks * L v) P := by
    rw [ending_alone]
    refine hp.andThen fun c v hv => ?_
    by_cases hend : c.rest = []
    · rw [if_pos hend]
      exact .returned ((hblanks.append hv).mem_of_end hend)
    · rw [if_neg hend]
      exact .failure
  rw [g.answer_ending hends]
  constructor
  · intro v h
    rcases Ending.bind_eq_returned.1 h with ⟨outcome, houtcome, hvalue⟩
    cases outcome with
    | failure => cases hvalue
    | success c w =>
      cases hvalue
      exact hwhole.success c v houtcome
  · intro panic h
    rcases Ending.bind_eq_panicked.1 h with hpanic | ⟨outcome, -, hvalue⟩
    · exact hwhole.panic panic hpanic
    · cases hvalue

/-- Completeness starts here: behind the blanks before a text, `p` decides how the whole ends. -/
theorem answer_of_append {spaces body : List Char} (htext : spaces ++ body = text.toList)
    (hspaces : spaces ∈ Text.blanks) (hbody : Text.Clear Text.isBlank body)
    (level : Trace.Level) (label : String) :
    (g.answer p text level label).ending =
      (g.ending p ⟨spaces.reverse, body⟩).andThen
        (fun c v => .returned (if c.rest = [] then .success c v else .failure)) >>=
          fun outcome => .returned outcome.value? := by
  have hcursor : Cursor.ofText text = ⟨[], spaces ++ body⟩ := by rw [Cursor.ofText, htext]
  -- `skip` takes exactly the blanks that are cut off, since `body` does not begin with one
  have hskip : (Cursor.ofText text).skip Text.isBlank = ⟨spaces.reverse, body⟩ := by
    rw [hcursor, Cursor.skip_append hspaces hbody, List.append_nil]
  rw [g.answer_ending hends, ending_alone, hskip]

end

end Grammar

end ParserCombinators
