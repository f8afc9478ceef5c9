import ParserCombinators.Proofs.Limits
import ParserCombinators.Proofs.Nullability

/-!
# Parsing expressions — the engine as a parsing expression grammar

The parsers without functions of users, but for predicates, are parsing expressions: recognition
with ordered choice and greedy repetition. Their meaning is a relation between an expression, a text
and what is consumed of it. It is given with a count of the steps of a derivation, so that
derivations can be taken by their size. The engine derives exactly what the relation derives, and
does not end exactly where there is no derivation.

- `Peg`, `Peg.Steps`, `Peg.Derives`: expressions, and what they consume
- `Parser.IsPeg`, `Parser.peg`, `Grammar.peg`: the parsers that are expressions, and which ones
- `Grammar.agrees_endingAt`: how a run ends is derived
- `Grammar.confirms_of_steps`: what is derived is how the run ends
- `Grammar.run_iff_derives`: the two together
-/

namespace ParserCombinators

universe u

/-! ## Expressions and derivations -/

/-- Parsing expressions over the names of rules. -/
inductive Peg (N : Type u) : Type u where
  | empty
  /-- One character of a class. -/
  | one (kind : Char → Bool)
  | literal (text : List Char)
  | cat (first second : Peg N)
  /-- Ordered choice: the second only where the first fails. -/
  | choice (first second : Peg N)
  /-- Greedy repetition. -/
  | star (e : Peg N)
  /-- Fails where `e` matches, and consumes nothing where it fails. -/
  | not (e : Peg N)
  | ref (name : N)

namespace Peg

variable {N : Type u}

def cats : List (Peg N) → Peg N
  | [] => .empty
  | e :: es => .cat e (cats es)

/-- The steps in which an expression is found to consume a part of a text, or to fail on it. -/
inductive Steps (rules : N → Peg N) : Nat → Peg N → List Char → Option (List Char) → Prop where
  | empty (x : List Char) : Steps rules 1 .empty x (some [])
  | one {kind : Char → Bool} {ch : Char} (x : List Char) (h : kind ch = true) :
      Steps rules 1 (.one kind) (ch :: x) (some [ch])
  | one_differs {kind : Char → Bool} {ch : Char} (x : List Char) (h : kind ch = false) :
      Steps rules 1 (.one kind) (ch :: x) none
  | one_end (kind : Char → Bool) : Steps rules 1 (.one kind) [] none
  | literal (text x : List Char) : Steps rules 1 (.literal text) (text ++ x) (some text)
  | literal_differs {text x : List Char} (h : ¬ text <+: x) : Steps rules 1 (.literal text) x none
  | cat {m n : Nat} {e e' : Peg N} {w w' x : List Char} (first : Steps rules m e (w ++ x) (some w))
      (second : Steps rules n e' x (some w')) :
      Steps rules (m + n + 1) (.cat e e') (w ++ x) (some (w ++ w'))
  | cat_first {m : Nat} {e e' : Peg N} {x : List Char} (first : Steps rules m e x none) :
      Steps rules (m + 1) (.cat e e') x none
  | cat_second {m n : Nat} {e e' : Peg N} {w x : List Char}
      (first : Steps rules m e (w ++ x) (some w)) (second : Steps rules n e' x none) :
      Steps rules (m + n + 1) (.cat e e') (w ++ x) none
  | choice_first {m : Nat} {e e' : Peg N} {w x : List Char} (first : Steps rules m e x (some w)) :
      Steps rules (m + 1) (.choice e e') x (some w)
  | choice_second {m n : Nat} {e e' : Peg N} {x : List Char} {o : Option (List Char)}
      (first : Steps rules m e x none) (second : Steps rules n e' x o) :
      Steps rules (m + n + 1) (.choice e e') x o
  | star_done {m : Nat} {e : Peg N} {x : List Char} (round : Steps rules m e x none) :
      Steps rules (m + 1) (.star e) x (some [])
  | star_more {m n : Nat} {e : Peg N} {w w' x : List Char}
      (round : Steps rules m e (w ++ x) (some w)) (later : Steps rules n (.star e) x (some w')) :
      Steps rules (m + n + 1) (.star e) (w ++ x) (some (w ++ w'))
  | not_match {m : Nat} {e : Peg N} {w x : List Char} (inner : Steps rules m e x (some w)) :
      Steps rules (m + 1) (.not e) x none
  | not_fail {m : Nat} {e : Peg N} {x : List Char} (inner : Steps rules m e x none) :
      Steps rules (m + 1) (.not e) x (some [])
  | ref {m : Nat} {name : N} {x : List Char} {o : Option (List Char)}
      (body : Steps rules m (rules name) x o) : Steps rules (m + 1) (.ref name) x o

/-- The expression consumes `w` of the text, if the outcome is `some w`, or fails on it. -/
def Derives (rules : N → Peg N) (e : Peg N) (x : List Char) (outcome : Option (List Char)) : Prop :=
  ∃ n, Steps rules n e x outcome

end Peg

open Peg (Steps Derives)

variable {R : Type → Type} {α β : Type}

/-! ## Parsers as expressions -/

namespace Parser

/-- The parser recognizes only: no function of a user takes part in it, except for predicates that
always give an answer. -/
def IsPeg : {α : Type} → Parser R α → Prop
  | _, .ok | _, .endOfInput | _, .char _ | _, .oneOf _ | _, .str _ | _, .rule _ => True
  | _, .like accepts => ∀ ch, ∃ accepted, (accepts ch).result = .ok accepted
  | _, .seqOf _ items => ∀ i, (items i).IsPeg
  | _, .or left right => left.IsPeg ∧ right.IsPeg
  | _, .star p | _, .plus p | _, .option p | _, .named _ p | _, .boxed p => p.IsPeg
  | _, .deferred factory p => factory.result = .ok () ∧ p.IsPeg
  | _, .succeed _ | _, .succeedWith _ | _, .chain _ _ _ | _, .map _ _ | _, .closure _
  | _, .inspect _ _ _ => False

/-- The expression of a parser that recognizes only. Of other parsers it says nothing. -/
def peg : {α : Type} → Parser R α → Peg (AnyRule R)
  | _, .ok => .empty
  | _, .endOfInput => .not (.one fun _ => true)
  | _, .like accepts => .one fun ch => (accepts ch).result.toOption.getD false
  | _, .char ch => .one (· == ch)
  | _, .oneOf set => .one set.toList.contains
  | _, .str text => .literal text.toList
  | _, .seqOf _ items => .cats (List.ofFn fun i => (items i).peg)
  | _, .or left right => .choice left.peg right.peg
  | _, .star p => .star p.peg
  | _, .plus p => .cat p.peg (.star p.peg)
  | _, .option p => .choice p.peg .empty
  | _, .named _ p | _, .boxed p | _, .deferred _ p => p.peg
  | α, .rule r => .ref ⟨α, r⟩
  | _, .succeed _ | _, .succeedWith _ | _, .chain _ _ _ | _, .map _ _ | _, .closure _
  | _, .inspect _ _ _ => .empty

theorem peg_seqOf_zero (items : Fin 0 → Parser R α) : (seqOf 0 items).peg = .empty := by
  simp [peg, Peg.cats]

/-- The expression of a sequence, cut off at its first part. -/
theorem peg_seqOf_succ (n : Nat) (items : Fin (n + 1) → Parser R α) :
    (seqOf (n + 1) items).peg = .cat (items 0).peg (seqOf n fun i => items i.succ).peg := by
  simp [peg, Peg.cats, List.ofFn_succ]

end Parser

def Grammar.peg (g : Grammar R) (r : AnyRule R) : Peg (AnyRule R) :=
  (g.body r.2).peg

namespace Grammar

variable {g : Grammar R}

/-- A predicate that always gives an answer is a class of characters. -/
theorem endingAt_like_eq {accepts : Char → Callback Bool}
    (h : (.like accepts : Parser R Char).IsPeg) (fuel : Nat) (c : Cursor) :
    g.endingAt fuel (.like accepts) c =
      g.endingAt fuel (.satisfy fun ch => (accepts ch).result.toOption.getD false) c := by
  rcases c with ⟨before, _ | ⟨ch, rest⟩⟩
  · rw [endingAt_like_nil, endingAt_satisfy_nil]
  -- the predicate answers for this character, with or without events on the way
  · rcases h ch with ⟨accepted, haccepted⟩
    have hcall : Ending.ofCallback (accepts ch) = .returned accepted := by
      unfold Ending.ofCallback
      rw [haccepted]
    rw [endingAt_like_cons, endingAt_satisfy_cons, hcall, haccepted]
    rfl

/-! ## Runs are derived -/

/-- The ending is derived for the expression: a match consumes what lies between the cursors, a
failure is a failure, and there is no panic. Of a run that is out of fuel this says nothing. -/
def Agrees (g : Grammar R) (e : Peg (AnyRule R)) (c : Cursor) : Ending (Outcome α) → Prop
  | .returned (.success c' _) => ∃ w, c.Spans w c' ∧ Derives g.peg e c.rest (some w)
  | .returned .failure => Derives g.peg e c.rest .none
  | .panicked _ => False
  | .exhausted => True

namespace Agrees

variable {e e' : Peg (AnyRule R)} {c : Cursor}

/-- `Agrees` looks at cursors only, not at values. -/
theorem mapValue {ending : Ending (Outcome α)} (f : α → β) (h : g.Agrees e c ending) :
    g.Agrees e c (ending.andThen fun c' v => .returned (.success c' (f v))) := by
  rcases ending with (_ | ⟨c', v⟩) | p | _
  · exact h
  · exact h
  · exact h
  · exact h

theorem empty (c : Cursor) (v : α) : g.Agrees .empty c (.returned (.success c v)) :=
  ⟨[], .refl c, 1, .empty c.rest⟩

/-- `andThen` is derived as `cat`: each way that the two endings combine is one of its three rules,
or a run without an outcome. -/
theorem cat {first : Ending (Outcome α)} {second : Cursor → α → Ending (Outcome β)}
    (hfirst : g.Agrees e c first) (hsecond : ∀ c' v, g.Agrees e' c' (second c' v)) :
    g.Agrees (.cat e e') c (first.andThen second) := by
  rcases first with (_ | ⟨c', v⟩) | p | _
  · rcases hfirst with ⟨m, hm⟩
    exact ⟨m + 1, .cat_first hm⟩
  · rcases hfirst with ⟨w, hspans, m, hm⟩
    have hthen : g.Agrees e' c' (second c' v) := hsecond c' v
    -- a derivation splits the text itself, not a cursor
    rw [hspans.1] at hm
    rw [Ending.success_andThen]
    generalize second c' v = later at hthen ⊢
    rcases later with (_ | ⟨c'', v'⟩) | p | _
    · rcases hthen with ⟨n, hn⟩
      refine ⟨m + n + 1, ?_⟩
      rw [hspans.1]
      exact .cat_second hm hn
    · rcases hthen with ⟨w', hspans', n, hn⟩
      refine ⟨w ++ w', hspans.trans hspans', m + n + 1, ?_⟩
      rw [hspans.1]
      exact .cat hm hn
    · exact hthen
    · trivial
  · exact hfirst
  · trivial

/-- `orElse` is derived as `choice`. -/
theorem choice {first second : Ending (Outcome α)} (hfirst : g.Agrees e c first)
    (hsecond : g.Agrees e' c second) : g.Agrees (.choice e e') c (first.orElse second) := by
  rcases first with (_ | ⟨c', v⟩) | p | _
  · rcases hfirst with ⟨m, hm⟩
    show g.Agrees _ _ second
    rcases second with (_ | ⟨c', v⟩) | p | _
    · rcases hsecond with ⟨n, hn⟩
      exact ⟨m + n + 1, .choice_second hm hn⟩
    · rcases hsecond with ⟨w, hspans, n, hn⟩
      exact ⟨w, hspans, m + n + 1, .choice_second hm hn⟩
    · exact hsecond
    · trivial
  · rcases hfirst with ⟨w, hspans, m, hm⟩
    exact ⟨w, hspans, m + 1, .choice_first hm⟩
  · exact hfirst
  · trivial

/-- One round, and a repetition behind it that is derived. `hnever` excludes a later repetition that
fails. -/
theorem star {round : Ending (Outcome α)} {later : Cursor → Ending (Outcome (List α))}
    (hround : g.Agrees e c round) (hlater : ∀ c', g.Agrees (.star e) c' (later c'))
    (hnever : ∀ c', later c' ≠ .returned .failure) :
    g.Agrees (.star e) c ((round.andThen fun next v => (later next).andThen fun last vs =>
      .returned (.success last (v :: vs))).orElse (.returned (.success c []))) := by
  rcases round with (_ | ⟨next, v⟩) | p | _
  · rcases hround with ⟨m, hm⟩
    exact ⟨[], .refl c, m + 1, .star_done hm⟩
  · rcases hround with ⟨w, hspans, m, hm⟩
    have hthen : g.Agrees (.star e) next (later next) := hlater next
    have hne : later next ≠ .returned .failure := hnever next
    rw [hspans.1] at hm
    rw [Ending.success_andThen]
    generalize later next = found at hthen hne ⊢
    rcases found with (_ | ⟨last, vs⟩) | p | _
    -- a repetition does not fail, so no rule is needed for a later one that would
    · exact absurd rfl hne
    · rcases hthen with ⟨w', hspans', n, hn⟩
      refine ⟨w ++ w', hspans.trans hspans', m + n + 1, ?_⟩
      rw [hspans.1]
      exact .star_more hm hn
    · exact hthen
    · trivial
  · exact hround
  · trivial

end Agrees

/-- `satisfy kind` is derived as `one kind`. -/
theorem agrees_one (kind : Char → Bool) (fuel : Nat) (c : Cursor) :
    g.Agrees (.one kind) c (g.endingAt fuel (.satisfy kind) c) := by
  rcases c with ⟨before, _ | ⟨ch, rest⟩⟩
  · exact ⟨1, .one_end kind⟩
  · rw [endingAt_satisfy_cons]
    by_cases h : kind ch = true
    · rw [if_pos h]
      exact ⟨[ch], ⟨rfl, rfl⟩, 1, .one rest h⟩
    · rw [if_neg h]
      exact ⟨1, .one_differs rest (by simpa using h)⟩

/-- The end of the input is where no character is. -/
theorem agrees_endOfInput (fuel : Nat) (c : Cursor) :
    g.Agrees (.not (.one fun _ => true)) c (g.endingAt fuel .endOfInput c) := by
  rcases c with ⟨before, _ | ⟨ch, rest⟩⟩
  · exact ⟨[], .refl _, 2, .not_fail (.one_end _)⟩
  · exact ⟨2, .not_match (.one rest rfl)⟩

/-- `str` is derived as `literal`. -/
theorem agrees_str (text : String) (fuel : Nat) (c : Cursor) :
    g.Agrees (.literal text.toList) c (g.endingAt fuel (.str text) c) := by
  rcases c with ⟨before, rest⟩
  rw [endingAt_str]
  by_cases h : text.toList <+: rest
  · rw [if_pos h]
    rcases h with ⟨more, rfl⟩
    exact ⟨text.toList, ⟨by simp, rfl⟩, 1, .literal _ more⟩
  · rw [if_neg h]
    exact ⟨1, .literal_differs h⟩

/-- The loop behind a repetition, as a parser that always matches if it ends. -/
def matched (found : Ending (Cursor × List α)) : Ending (Outcome (List α)) :=
  found >>= fun found => .returned (.success found.1 found.2)

/-- A repetition does not fail. -/
theorem matched_ne_failure (found : Ending (Cursor × List α)) :
    matched found ≠ .returned .failure := by
  rcases found with ⟨last, vs⟩ | p | _ <;> exact fun h => nomatch h

/-- Run lemma: the loop is derived as `star`, whatever the number of rounds. By induction on it,
with `Agrees.star` for one round. -/
theorem agrees_loopAt {p : Parser R α} {fuel : Nat}
    (hp : ∀ c, g.Agrees p.peg c (g.endingAt fuel p c)) (rounds : Nat) (c : Cursor) :
    g.Agrees (.star p.peg) c (matched (g.loopAt fuel p rounds c)) := by
  induction rounds generalizing c with
  | zero => trivial
  | succ rounds ih =>
    -- one more round of the loop is what the equation of a repetition says
    have hstep : matched (g.loopAt fuel p (rounds + 1) c) =
        ((g.endingAt fuel p c).andThen fun next v => (matched (g.loopAt fuel p rounds next)).andThen
          fun last vs => .returned (.success last (v :: vs))).orElse
            (.returned (.success c [])) := by
      unfold matched
      rw [loopAt_succ]
      rcases g.endingAt fuel p c with (_ | ⟨next, v⟩) | _ | _
      · rfl
      · show ((g.loopAt fuel p rounds next >>= _) >>= _) =
          Ending.orElse (Ending.andThen (g.loopAt fuel p rounds next >>= _) _) _
        rcases g.loopAt fuel p rounds next with ⟨last, vs⟩ | _ | _ <;> rfl
      · rfl
      · rfl
    rw [hstep]
    exact Agrees.star (hp c) ih fun next => matched_ne_failure _

/-- Over rules whose runs are derived, every parser's are. By structural induction, one rule of
`Steps` for each form. -/
theorem agrees_over_rules {fuel : Nat}
    (hrules : ∀ {α : Type} (r : R α) (c : Cursor),
      g.Agrees (.ref ⟨α, r⟩) c (g.endingAt fuel (.rule r) c))
    (p : Parser R α) (hp : p.IsPeg) (c : Cursor) : g.Agrees p.peg c (g.endingAt fuel p c) := by
  induction p generalizing c with
  | ok => exact .empty c ()
  | endOfInput => exact agrees_endOfInput fuel c
  | like accepts =>
    rw [endingAt_like_eq hp]
    exact agrees_one _ fuel c
  | char ch =>
    rw [endingAt_char]
    exact agrees_one _ fuel c
  | oneOf set =>
    rw [endingAt_oneOf]
    exact agrees_one _ fuel c
  | str text => exact agrees_str text fuel c
  | seqOf n items ih =>
    induction n generalizing c with
    | zero =>
      rw [Parser.peg_seqOf_zero, endingAt_seqOf_zero]
      exact .empty c []
    | succ n ihn =>
      rw [Parser.peg_seqOf_succ, endingAt_seqOf_succ]
      refine .cat (ih 0 (hp 0) c) fun next v => .mapValue _ ?_
      exact ihn (fun i => items i.succ) (fun i => ih i.succ) (fun i => hp i.succ) next
  | or left right ihl ihr =>
    rw [endingAt_or]
    exact .choice (ihl hp.1 c) (ihr hp.2 c)
  | star p ih =>
    rw [endingAt_star]
    exact agrees_loopAt (ih hp) fuel c
  | plus p ih =>
    rw [endingAt_plus]
    refine .cat (ih hp c) fun next v => ?_
    -- one or more rounds are a round and a repetition, as the expression says
    have hloop : (g.loopAt fuel p fuel next >>= fun found =>
        .returned (.success found.1 (v :: found.2))) =
        (matched (g.loopAt fuel p fuel next)).andThen fun last vs =>
          .returned (.success last (v :: vs)) := by
      unfold matched
      rcases g.loopAt fuel p fuel next with ⟨last, vs⟩ | _ | _ <;> rfl
    rw [hloop]
    exact .mapValue _ (agrees_loopAt (ih hp) fuel next)
  | option p ih =>
    rw [endingAt_option]
    exact .choice (.mapValue _ (ih hp c)) (.empty c _)
  | named label p ih =>
    rw [endingAt_named]
    exact ih hp c
  | boxed p ih => exact ih hp c
  | deferred factory p ih =>
    rw [endingAt_deferred, Ending.ofCallback_eq_returned.2 hp.1]
    exact ih hp.2 c
  | rule r => exact hrules r c
  | succeed | succeedWith | chain | map | closure | inspect => exact hp.elim

/-- Every ending at some fuel is derived. By induction on fuel. -/
theorem agrees_endingAt (hg : ∀ {α : Type} (r : R α), (g.body r).IsPeg) {p : Parser R α}
    (hp : p.IsPeg) (fuel : Nat) (c : Cursor) : g.Agrees p.peg c (g.endingAt fuel p c) := by
  refine g.fuel_induction (P := fun n {α} (p : Parser R α) =>
    p.IsPeg → ∀ c, g.Agrees p.peg c (g.endingAt n p c)) ?_ ?_ ?_ fuel p hp c
  · intro α r _ c
    trivial
  · -- a rule is derived with one step more than its body
    intro n α r ih _ c
    have hbody : g.Agrees (g.body r).peg c (g.endingAt n (g.body r) c) := ih (hg r) c
    rw [endingAt_rule_succ]
    generalize g.endingAt n (g.body r) c = ending at hbody ⊢
    rcases ending with (_ | ⟨c', v⟩) | q | _
    · rcases hbody with ⟨m, hm⟩
      exact ⟨m + 1, .ref hm⟩
    · rcases hbody with ⟨w, hspans, m, hm⟩
      exact ⟨w, hspans, m + 1, .ref hm⟩
    · exact hbody
    · trivial
  · intro n hrules α p hp c
    exact agrees_over_rules (fun {β} r c => hrules (α := β) r trivial c) p hp c

/-! ## What is derived is how the run ends -/

/-- The parser ends at the cursor as the outcome of a derivation says. -/
def Confirms (g : Grammar R) (p : Parser R α) (c : Cursor) : Option (List Char) → Prop
  | .none => g.ending p c = .returned .failure
  | some w => ∃ c' v, c.Spans w c' ∧ g.ending p c = .returned (.success c' v)

/-- `Confirms` looks at the ending of the parser only. -/
theorem Confirms.congr {p q : Parser R α} {c : Cursor} {outcome : Option (List Char)}
    (h : g.Confirms q c outcome) (heq : g.ending p c = g.ending q c) : g.Confirms p c outcome := by
  cases outcome with
  | none => exact heq.trans h
  | some w =>
    rcases h with ⟨c', v, hspans, hq⟩
    exact ⟨c', v, hspans, heq.trans hq⟩

/-- A function on the value changes nothing of what is consumed. -/
theorem Confirms.mapValue {p : Parser R α} {c : Cursor} {outcome : Option (List Char)} (f : α → β)
    (h : g.Confirms p c outcome) : g.Confirms (f <$> p) c outcome := by
  cases outcome with
  | none =>
    have hfailure : g.ending p c = .returned .failure := h
    show g.ending (f <$> p) c = _
    rw [ending_functor_map, hfailure, Ending.failure_andThen]
  | some w =>
    rcases h with ⟨c', v, hspans, hsuccess⟩
    refine ⟨c', f v, hspans, ?_⟩
    rw [ending_functor_map, hsuccess, Ending.success_andThen]

/-- `endingAt_like_eq` in the limit. -/
theorem ending_like_eq {accepts : Char → Callback Bool}
    (h : (.like accepts : Parser R Char).IsPeg) (c : Cursor) :
    g.ending (.like accepts) c =
      g.ending (.satisfy fun ch => (accepts ch).result.toOption.getD false) c := by
  unfold ending
  simp only [endingAt_like_eq h]

theorem confirms_empty (v : α) {x : List Char} {n : Nat} {outcome : Option (List Char)}
    (h : Steps g.peg n .empty x outcome) (before : List Char) :
    g.Confirms (.succeed v) ⟨before, x⟩ outcome := by
  cases h
  exact ⟨_, _, .refl _, g.ending_succeed v _⟩

/-- `one kind` is confirmed by any parser that ends as `satisfy kind`. -/
theorem confirms_one {p : Parser R Char} {kind : Char → Bool} {x : List Char} {n : Nat}
    {outcome : Option (List Char)} (hp : ∀ c, g.ending p c = g.ending (.satisfy kind) c)
    (h : Steps g.peg n (.one kind) x outcome) (before : List Char) :
    g.Confirms p ⟨before, x⟩ outcome := by
  cases h with
  | @one _ ch x hkind =>
    refine ⟨⟨ch :: before, x⟩, ch, ⟨rfl, rfl⟩, ?_⟩
    rw [hp, ending_satisfy_cons, if_pos hkind]
  | one_differs x hkind =>
    show g.ending p _ = _
    rw [hp, ending_satisfy_cons, if_neg (by simp [hkind])]
  | one_end =>
    show g.ending p _ = _
    rw [hp, ending_satisfy_nil]

/-- `not (one _)` is confirmed by the end of the input, by inversion of both steps. -/
theorem confirms_endOfInput {x : List Char} {n : Nat} {outcome : Option (List Char)}
    (h : Steps g.peg n (.not (.one fun _ => true)) x outcome) (before : List Char) :
    g.Confirms .endOfInput ⟨before, x⟩ outcome := by
  cases h with
  | not_match hone =>
    cases hone with
    | one x _ => exact g.ending_endOfInput_cons before _ x
  | not_fail hone =>
    cases hone with
    | one_differs x hkind => cases hkind
    | one_end => exact ⟨_, _, .refl _, g.ending_endOfInput_nil before⟩

/-- `literal` is confirmed by `str`. -/
theorem confirms_str {text : String} {x : List Char} {n : Nat} {outcome : Option (List Char)}
    (h : Steps g.peg n (.literal text.toList) x outcome) (before : List Char) :
    g.Confirms (.str text) ⟨before, x⟩ outcome := by
  cases h with
  | literal _ x =>
    refine ⟨⟨text.toList.reverse ++ before, x⟩, text, ⟨rfl, rfl⟩, ?_⟩
    rw [ending_str, if_pos (List.prefix_append _ _), List.drop_left]
  | literal_differs hstart =>
    show g.ending (.str text) _ = _
    rw [ending_str, if_neg hstart]

section

variable {n : Nat} {x : List Char} {outcome : Option (List Char)}
  {e e' : Peg (AnyRule R)} {p : Parser R α}
  (hp : ∀ m < n, ∀ {x outcome}, Steps g.peg m e x outcome →
    ∀ before, g.Confirms p ⟨before, x⟩ outcome)

include hp

/-- `cat` is confirmed by any parser that ends as `p` with `q` behind it. -/
theorem confirms_cat {γ : Type} {q : Parser R β} {whole : Parser R γ} {combine : α → β → γ}
    (hwhole : ∀ c, g.ending whole c = (g.ending p c).andThen fun next v =>
      (g.ending q next).andThen fun last w => .returned (.success last (combine v w)))
    (hq : ∀ m < n, ∀ {x outcome}, Steps g.peg m e' x outcome →
      ∀ before, g.Confirms q ⟨before, x⟩ outcome)
    (h : Steps g.peg n (.cat e e') x outcome) (before : List Char) :
    g.Confirms whole ⟨before, x⟩ outcome := by
  cases h with
  -- the parts of a derivation have fewer steps than the whole
  | @cat m n _ _ w w' x first second =>
    rcases hp m (by omega) first before with ⟨c', v, hspans, hfirst⟩
    rcases hspans.eq_of_append with rfl
    rcases hq n (by omega) second (w.reverse ++ before) with ⟨last, v', hspans', hsecond⟩
    refine ⟨last, combine v v', hspans.trans hspans', ?_⟩
    rw [hwhole, hfirst, Ending.success_andThen, hsecond, Ending.success_andThen]
  | @cat_first m _ _ x first =>
    have hfirst : g.ending p ⟨before, x⟩ = .returned .failure := hp m (by omega) first before
    show g.ending whole _ = _
    rw [hwhole, hfirst, Ending.failure_andThen]
  | @cat_second m n _ _ w x first second =>
    rcases hp m (by omega) first before with ⟨c', v, hspans, hfirst⟩
    rcases hspans.eq_of_append with rfl
    have hsecond : g.ending q ⟨w.reverse ++ before, x⟩ = .returned .failure :=
      hq n (by omega) second _
    show g.ending whole _ = _
    rw [hwhole, hfirst, Ending.success_andThen, hsecond, Ending.failure_andThen]

/-- `choice` is confirmed by any parser that ends as `p`, or as `q` where `p` fails. -/
theorem confirms_choice {q whole : Parser R α}
    (hwhole : ∀ c, g.ending whole c = (g.ending p c).orElse (g.ending q c))
    (hq : ∀ m < n, ∀ {x outcome}, Steps g.peg m e' x outcome →
      ∀ before, g.Confirms q ⟨before, x⟩ outcome)
    (h : Steps g.peg n (.choice e e') x outcome) (before : List Char) :
    g.Confirms whole ⟨before, x⟩ outcome := by
  cases h with
  | @choice_first m _ _ w x first =>
    rcases hp m (by omega) first before with ⟨c', v, hspans, hfirst⟩
    refine ⟨c', v, hspans, ?_⟩
    rw [hwhole, hfirst, Ending.success_orElse]
  | @choice_second m n _ _ x _ first second =>
    have hfirst : g.ending p ⟨before, x⟩ = .returned .failure := hp m (by omega) first before
    have hsecond : g.Confirms q ⟨before, x⟩ outcome := hq n (by omega) second before
    refine hsecond.congr ?_
    rw [hwhole, hfirst, Ending.failure_orElse]

/-- `star` is confirmed by `star p`, round by round. -/
theorem confirms_star
    (hstar : ∀ m < n, ∀ {x outcome}, Steps g.peg m (.star e) x outcome →
      ∀ before, g.Confirms p.star ⟨before, x⟩ outcome)
    (h : Steps g.peg n (.star e) x outcome) (before : List Char) :
    g.Confirms p.star ⟨before, x⟩ outcome := by
  cases h with
  | @star_done m _ x round =>
    have hround : g.ending p ⟨before, x⟩ = .returned .failure := hp m (by omega) round before
    refine ⟨⟨before, x⟩, [], .refl _, ?_⟩
    rw [ending_star, hround, Ending.failure_andThen, Ending.failure_orElse]
  | @star_more m n _ w w' x round later =>
    rcases hp m (by omega) round before with ⟨c', v, hspans, hround⟩
    rcases hspans.eq_of_append with rfl
    rcases hstar n (by omega) later (w.reverse ++ before) with
      ⟨last, vs, hspans', hlater⟩
    refine ⟨last, v :: vs, hspans.trans hspans', ?_⟩
    rw [ending_star, hround, Ending.success_andThen, hlater, Ending.success_andThen,
      Ending.success_orElse]

end

/-- What is derived in `n` steps for `p.peg` is how `p` ends. By strong induction on `n`. -/
theorem confirms_of_steps (hg : ∀ {α : Type} (r : R α), (g.body r).IsPeg) (n : Nat) :
    ∀ {α : Type} (p : Parser R α), p.IsPeg → ∀ {x outcome}, Steps g.peg n p.peg x outcome →
      ∀ before, g.Confirms p ⟨before, x⟩ outcome := by
  -- on the number of steps; the wrappers, which take none, are left to an induction on the parser
  induction n using Nat.strong_induction_on with
  | _ n ih =>
    intro α p hp x outcome h before
    induction p with
    | ok =>
      refine (confirms_empty () h before).congr ?_
      rw [ending_ok, ending_succeed]
    | endOfInput => exact confirms_endOfInput h before
    | like accepts => exact confirms_one (ending_like_eq hp) h before
    | char ch => exact confirms_one (g.ending_char ch) h before
    | oneOf set => exact confirms_one (g.ending_oneOf set) h before
    | str text => exact confirms_str h before
    | seqOf k items _ =>
      cases k with
      | zero =>
        rw [Parser.peg_seqOf_zero] at h
        refine (confirms_empty [] h before).congr ?_
        rw [ending_seqOf_zero, ending_succeed]
      | succ k =>
        rw [Parser.peg_seqOf_succ] at h
        exact confirms_cat (fun m hm => ih m hm (items 0) (hp 0)) (g.ending_seqOf_succ k items)
          (fun m hm => ih m hm (.seqOf k fun i => items i.succ) fun i => hp i.succ) h before
    | or left right _ _ =>
      exact confirms_choice (fun m hm => ih m hm left hp.1) (g.ending_or left right)
        (fun m hm => ih m hm right hp.2) h before
    | star p _ =>
      exact confirms_star (fun m hm => ih m hm p hp) (fun m hm => ih m hm p.star hp) h before
    | plus p _ =>
      exact confirms_cat (fun m hm => ih m hm p hp) (g.ending_plus p)
        (fun m hm => ih m hm p.star hp) h before
    | option p _ =>
      refine confirms_choice (p := some <$> p)
        (fun m hm _ _ h before => (ih m hm p hp h before).mapValue some) (fun c => ?_)
        (fun m _ _ _ h => confirms_empty Option.none h) h before
      rw [ending_option, ending_functor_map, ending_succeed]
    | named label p ihp => exact (ihp hp h).congr (g.ending_named label p _)
    | boxed p ihp => exact ihp hp h
    | deferred factory p ihp =>
      refine (ihp hp.2 h).congr ?_
      rw [ending_deferred, Ending.ofCallback_eq_returned.2 hp.1, Ending.returned_bind]
    | rule r =>
      cases h with
      | @ref m _ _ _ body =>
        exact (ih m (by omega) (g.body r) (hg r) body before).congr (g.ending_rule r _)
    | succeed | succeedWith | chain | map | closure | inspect => exact hp.elim

/-! ## Runs and derivations -/

section

variable (hg : ∀ {α : Type} (r : R α), (g.body r).IsPeg) {p : Parser R α} (hp : p.IsPeg)
  {c : Cursor}

include hg hp

/-- `agrees_endingAt` in the limit; a run without an end agrees with anything. -/
theorem agrees_ending : g.Agrees p.peg c (g.ending p c) := by
  -- a run without an end agrees with anything
  by_cases h : g.ending p c = .exhausted
  · rw [h]
    trivial
  · rcases (ending_eq_iff h).1 rfl with ⟨n, hn⟩
    rw [← hn]
    exact agrees_endingAt hg hp n c

/-- `confirms_of_steps` at any cursor. -/
theorem confirms_of_derives {outcome : Option (List Char)}
    (h : Derives g.peg p.peg c.rest outcome) : g.Confirms p c outcome := by
  rcases h with ⟨n, hn⟩
  -- a derivation knows only the unread text, so what was read before is arbitrary
  exact confirms_of_steps hg n p hp hn c.before

/-- Matches are the derivations with `some`. -/
theorem ending_eq_success_iff {c' : Cursor} :
    (∃ v, g.ending p c = .returned (.success c' v)) ↔
      ∃ w, c.Spans w c' ∧ Derives g.peg p.peg c.rest (some w) := by
  constructor
  · rintro ⟨v, h⟩
    have hagrees : g.Agrees p.peg c (g.ending p c) := agrees_ending hg hp
    rw [h] at hagrees
    exact hagrees
  · rintro ⟨w, hspans, hderives⟩
    rcases confirms_of_derives hg hp hderives with ⟨c'', v, hspans', hending⟩
    refine ⟨v, ?_⟩
    -- the text that is consumed determines the cursor behind it
    rw [hending, hspans.unique hspans']

/-- Failures are the derivations with `none`. -/
theorem ending_eq_failure_iff :
    g.ending p c = .returned .failure ↔ Derives g.peg p.peg c.rest .none := by
  constructor
  · intro h
    have hagrees : g.Agrees p.peg c (g.ending p c) := agrees_ending hg hp
    rw [h] at hagrees
    exact hagrees
  · exact confirms_of_derives hg hp

/-- A run that does not end is one for which nothing is derived. -/
theorem ending_eq_exhausted_iff_not_derives :
    g.ending p c = .exhausted ↔ ∀ outcome, ¬ Derives g.peg p.peg c.rest outcome := by
  have hagrees : g.Agrees p.peg c (g.ending p c) := agrees_ending hg hp
  constructor
  · intro h outcome hderives
    have hconfirms : g.Confirms p c outcome := confirms_of_derives hg hp hderives
    cases outcome with
    | none => cases h.symm.trans hconfirms
    | some w =>
      rcases hconfirms with ⟨c', v, -, hsuccess⟩
      cases h.symm.trans hsuccess
  · intro hnone
    -- each way to end would leave a derivation behind
    rcases hending : g.ending p c with (_ | ⟨c', v⟩) | q | _
    · exact (hnone .none ((ending_eq_failure_iff hg hp).1 hending)).elim
    · rcases (ending_eq_success_iff hg hp).1 ⟨v, hending⟩ with ⟨w, -, hderives⟩
      exact (hnone (some w) hderives).elim
    · rw [hending] at hagrees
      exact hagrees.elim
    · rfl

end

/-- A parser that recognizes only, over rules that do, is a parsing expression: from any cursor it
runs to a match that ends at another exactly if the expression derives that the text between them is
consumed, it runs to a failure exactly if the expression derives one, and it does not come to an end
exactly if nothing is derived. -/
theorem run_iff_derives {g : Grammar R} (hg : ∀ {α : Type} (r : R α), (g.body r).IsPeg)
    {p : Parser R α} (hp : p.IsPeg) (c : Cursor) (level : Trace.Level) (label : String) :
    (∀ c', (∃ fuel v, (g.run fuel p c level label).ending = .returned (.success c' v)) ↔
      ∃ w, c.Spans w c' ∧ Derives g.peg p.peg c.rest (some w)) ∧
    ((∃ fuel, (g.run fuel p c level label).ending = .returned .failure) ↔
      Derives g.peg p.peg c.rest .none) ∧
    ((∀ fuel, (g.run fuel p c level label).ending = .exhausted) ↔
      ∀ outcome, ¬ Derives g.peg p.peg c.rest outcome) := by
  simp only [run_ending]
  refine ⟨fun c' => ?_, ?_, ?_⟩
  · rw [← ending_eq_success_iff hg hp, exists_comm]
    exact exists_congr fun v => ending_eq_returned_iff.symm
  · rw [← ending_eq_failure_iff hg hp]
    exact ending_eq_returned_iff.symm
  · rw [← ending_eq_exhausted_iff_not_derives hg hp]
    exact ending_eq_exhausted_iff.symm

/-- A choice between a character and the only rule there is, which stands for itself: the character
is consumed where it is there, and where it is not, the rule is reached and nothing is derived. -/
theorem run_iff_derives_self_reference :
    let g : Grammar fun α => PLift (α = Char) := ⟨1, fun r => .rule r⟩
    let p : Parser (fun α => PLift (α = Char)) Char := .or (.char 'a') (.rule ⟨rfl⟩)
    Derives g.peg p.peg ['a', 'b'] (some ['a']) ∧
      ∀ outcome, ¬ Derives g.peg p.peg ['b'] outcome := by
  intro g p
  have hg : ∀ {α : Type} (r : PLift (α = Char)), (g.body r).IsPeg := fun r => trivial
  have hp : p.IsPeg := ⟨trivial, trivial⟩
  constructor
  · have hrun : ∃ fuel v, (g.run fuel p ⟨[], ['a', 'b']⟩ .off "").ending =
        .returned (.success ⟨['a'], ['b']⟩ v) := ⟨0, 'a', by decide⟩
    rcases ((run_iff_derives hg hp ⟨[], ['a', 'b']⟩ .off "").1 _).1 hrun with ⟨w, hspans, hderives⟩
    have hw : w = ['a'] := (List.append_cancel_right hspans.1).symm
    rwa [hw] at hderives
  · refine (run_iff_derives hg hp ⟨[], ['b']⟩ .off "").2.2.1 fun fuel => ?_
    have hloop : ∀ fuel, g.endingAt fuel (.rule ⟨rfl⟩ : Parser _ Char) ⟨[], ['b']⟩ =
        .exhausted := by
      intro fuel
      induction fuel with
      | zero => rfl
      | succ fuel ih => exact ih
    rw [run_ending, endingAt_or, hloop]
    rfl

end Grammar

end ParserCombinators
