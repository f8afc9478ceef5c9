import Mathlib.Tactic.Ring
import ParserCombinators.Grammars.Arithmetic
import ParserCombinators.Grammars.Json
import ParserCombinators.Proofs.Nullability

/-!
# Termination — well-formed grammars end on every text

The nesting of calls is bounded by two numbers: at one place of the text, a left call goes down in
rank, and everything else happens at a later place. So the fuel that `Grammar.fuelFor` hands out is
enough for every parser over a well-formed grammar.

- `Grammar.rank`: how many rules a rule reaches by left calls
- `Grammar.EndsWithin`, `Grammar.WellFormed.endsWithin`: the induction on text and rank
- `Grammar.WellFormed.endingAt_ne_exhausted`: enough fuel
- `Parser.Tame`, `Parser.Solid`: parsers that read before they call, built from each other
- `Grammar.exists_outcome_of_no_rules`: parsers that call no rules, over any grammar
- `Arithmetic.solid_body`, `Json.solid_body`: the grammars of this library
- `Grammar.ends_on_every_text`: well-formed grammars end, and what is not nullable moves on
-/

namespace ParserCombinators

variable {R : Type → Type} {α β : Type}

namespace Grammar

variable {g : Grammar R} {fuel : Nat}

/-! ## Ranks -/

/-- How many rules a rule reaches by left calls. -/
noncomputable def rank (g : Grammar R) (r : AnyRule R) : Nat :=
  {s | Relation.TransGen g.LeftCall r s}.ncard

variable {S : Set (AnyRule R)}

/-- Left calls from a rule of `S` stay in `S`. By induction on the chain of calls. -/
theorem WellFormed.reachable_subset (hg : g.WellFormed S) {r : AnyRule R} (hr : r ∈ S) :
    {s | Relation.TransGen g.LeftCall r s} ⊆ S := by
  intro s hs
  have hstep : ∀ {r s : AnyRule R}, r ∈ S → g.LeftCall r s → s ∈ S :=
    fun hr hrs => Parser.leftCalls_subset (hg.bodies _ hr) hrs
  induction hs with
  | single hrs => exact hstep hr hrs
  | tail _ hst ih => exact hstep ih hst

/-- Left calls go down in rank: the callee reaches a proper subset of what its caller reaches. -/
theorem WellFormed.rank_lt (hg : g.WellFormed S) {r s : AnyRule R} (hr : r ∈ S)
    (hrs : g.LeftCall r s) : g.rank s < g.rank r := by
  have hs : s ∈ S := Parser.leftCalls_subset (hg.bodies r hr) hrs
  have hsub : {t | Relation.TransGen g.LeftCall s t} ⊆ {t | Relation.TransGen g.LeftCall r t} :=
    fun t ht => Relation.TransGen.head hrs ht
  -- the rule itself is among those that its caller reaches, and not among those that it reaches
  have hnot : ¬ {t | Relation.TransGen g.LeftCall r t} ⊆ {t | Relation.TransGen g.LeftCall s t} :=
    fun hback => hg.acyclic s hs (hback (Relation.TransGen.single hrs))
  exact Set.ncard_lt_ncard ⟨hsub, hnot⟩ (hg.finite.subset (hg.reachable_subset hr))

/-- A rank is below the number of rules, as no rule reaches itself. -/
theorem WellFormed.rank_lt_card (hg : g.WellFormed S) {r : AnyRule R} (hr : r ∈ S) :
    g.rank r < S.ncard := by
  have hsub : {s | Relation.TransGen g.LeftCall r s} ⊆ S := hg.reachable_subset hr
  have hnot : ¬ S ⊆ {s | Relation.TransGen g.LeftCall r s} :=
    fun hback => hg.acyclic r hr (hback hr)
  exact Set.ncard_lt_ncard ⟨hsub, hnot⟩ hg.finite

/-! ## Enough fuel -/

/-- A sequel of a match ends if both parts do. -/
theorem andThen_ne_exhausted {e : Ending (Outcome α)} {f : Cursor → α → Ending (Outcome β)}
    (he : e ≠ .exhausted)
    (hf : ∀ c v, e = .returned (.success c v) → f c v ≠ .exhausted) :
    e.andThen f ≠ .exhausted := by
  intro h
  rcases Ending.andThen_eq_exhausted.1 h with hfirst | ⟨c, v, hfirst, hlater⟩
  · exact he hfirst
  · exact hf c v hfirst hlater

theorem ofCallback_ne_exhausted (x : Callback α) : Ending.ofCallback x ≠ .exhausted := by
  rcases x with ⟨events, fault | a⟩ <;> exact fun h => nomatch h

/-- A sequel of a call ends; a fault is an ending too. -/
theorem ofCallback_bind_ne_exhausted {x : Callback α} {f : α → Ending β}
    (hf : ∀ a, x.result = .ok a → f a ≠ .exhausted) :
    (Ending.ofCallback x >>= f) ≠ .exhausted := by
  rcases x with ⟨events, fault | a⟩
  · exact fun h => nomatch h
  · exact hf a rfl

/-- `like` takes no fuel. -/
theorem like_ne_exhausted (accepts : Char → Callback Bool) (c : Cursor) :
    g.endingAt fuel (.like accepts) c ≠ .exhausted := by
  rcases c with ⟨before, _ | ⟨ch, rest⟩⟩
  · exact fun h => nomatch h
  · rw [endingAt_like_cons]
    exact ofCallback_bind_ne_exhausted fun _ _ h => nomatch h

/-- Run lemma: a loop whose rounds end and make the text shorter ends, given more rounds than there
are characters. By induction on the rounds. -/
theorem loopAt_ne_exhausted {p : Parser R α} {limit : Nat}
    (hends : ∀ c, c.rest.length ≤ limit → g.endingAt fuel p c ≠ .exhausted)
    (hshorter : ∀ c c' v, g.endingAt fuel p c = .returned (.success c' v) →
      c'.rest.length < c.rest.length) {rounds : Nat} {c : Cursor}
    (hlimit : c.rest.length ≤ limit) (hrounds : c.rest.length < rounds) :
    g.loopAt fuel p rounds c ≠ .exhausted := by
  -- each round takes away at least one character and exactly one of the rounds
  induction rounds generalizing c with
  | zero => omega
  | succ rounds ih =>
    rw [loopAt_succ]
    intro h
    rcases Ending.bind_eq_exhausted.1 h with hround | ⟨_ | ⟨next, v⟩, hround, hrest⟩
    · exact hends c hlimit hround
    · cases hrest
    · have hless : next.rest.length < c.rest.length := hshorter c next v hround
      have hloop : g.loopAt fuel p rounds next ≠ .exhausted := ih (by omega) (by omega)
      rcases Ending.bind_eq_exhausted.1 hrest with hnext | ⟨found, -, heq⟩
      · exact hloop hnext
      · cases heq

/-- With `length` characters unread, every parser whose left calls are of a rank below `bound` ends,
given the fuel for that many nested calls here and for the calls at all shorter texts. -/
def EndsWithin (g : Grammar R) (S : Set (AnyRule R)) (length bound : Nat) : Prop :=
  ∀ fuel, bound + (S.ncard + 1) * length + 1 ≤ fuel → ∀ {α : Type} (p : Parser R α),
    p.Forward → p.WellFormed g.nullable S → (∀ s ∈ p.leftCalls g.nullable, g.rank s < bound) →
      ∀ c : Cursor, c.rest.length = length → g.endingAt fuel p c ≠ .exhausted

/-- At a text shorter than `length` every parser ends, whatever its left calls. -/
def EndsBelow (g : Grammar R) (S : Set (AnyRule R)) (fuel length : Nat) : Prop :=
  ∀ {α : Type} (p : Parser R α), p.Forward → p.WellFormed g.nullable S →
    ∀ c : Cursor, c.rest.length < length → g.endingAt fuel p c ≠ .exhausted

/-- Fuel that is enough at `length` is enough at all shorter texts, where the rank of left calls can
be as large as there are rules. -/
theorem WellFormed.endsBelow (hg : g.WellFormed S) {length bound : Nat}
    (hshort : ∀ length' < length, g.EndsWithin S length' S.ncard)
    (hfuel : bound + (S.ncard + 1) * length + 1 ≤ fuel) : g.EndsBelow S fuel length := by
  intro α p hforward hp c hlt
  have hmul : (S.ncard + 1) * (c.rest.length + 1) ≤ (S.ncard + 1) * length :=
    Nat.mul_le_mul_left _ hlt
  refine hshort c.rest.length hlt fuel ?_ p hforward hp (fun s hs => ?_) c rfl
  · rw [Nat.mul_succ] at hmul
    omega
  · exact hg.rank_lt_card (Parser.leftCalls_subset hp hs)

/-- After a match the text is shorter, or the parser is nullable and the cursor has not moved. -/
theorem WellFormed.shorter_or_nullable (hg : g.WellFormed S) {p : Parser R α} (hp : p.Forward)
    {c c' : Cursor} {v : α} (h : g.endingAt fuel p c = .returned (.success c' v)) :
    c'.rest.length < c.rest.length ∨ c' = c ∧ p.Nullable g.nullable := by
  have hreach : c.Reaches c' := reaches_of_success hg.forward hp h
  by_cases hlt : c'.rest.length < c.rest.length
  · exact .inl hlt
  · refine .inr ⟨hreach.eq_of_length (by omega), ?_⟩
    by_contra hnull
    exact hlt (shorter_of_success hg.forward hp hnull h)

/-- A repetition of a parser that is not nullable ends: its rounds do, and each of them reads
something. -/
theorem WellFormed.rounds_ne_exhausted (hg : g.WellFormed S) {length : Nat}
    (hbelow : g.EndsBelow S fuel length) (hfuel : (S.ncard + 1) * length < fuel)
    {p : Parser R α} (hforward : p.Forward) (hnull : ¬ p.Nullable g.nullable)
    (hp : p.WellFormed g.nullable S)
    (hhere : ∀ c : Cursor, c.rest.length = length → g.endingAt fuel p c ≠ .exhausted)
    {c : Cursor} (hle : c.rest.length ≤ length) : g.loopAt fuel p fuel c ≠ .exhausted := by
  have hlength : length ≤ (S.ncard + 1) * length := Nat.le_mul_of_pos_left _ (by omega)
  refine loopAt_ne_exhausted (fun c hle => ?_) (fun c c' v hv => ?_) hle (by omega)
  · rcases lt_or_eq_of_le hle with hlt | heq
    · exact hbelow p hforward hp c hlt
    · exact hhere c heq
  · exact shorter_of_success hg.forward hforward hnull hv

/-- A sequence ends if each part does that only nullable parts precede; behind the first match that
reads something, the text is shorter. By induction on the number of parts. -/
theorem WellFormed.seqOf_ne_exhausted (hg : g.WellFormed S) {c : Cursor}
    (hbelow : g.EndsBelow S fuel c.rest.length) {n : Nat} {items : Fin n → Parser R α}
    (hforward : ∀ i, (items i).Forward) (hp : ∀ i, (items i).WellFormed g.nullable S)
    (hhere : ∀ i, (∀ j < i, (items j).Nullable g.nullable) →
      g.endingAt fuel (items i) c ≠ .exhausted) :
    g.endingAt fuel (.seqOf n items) c ≠ .exhausted := by
  induction n with
  | zero =>
    rw [endingAt_seqOf_zero]
    exact fun h => nomatch h
  | succ n ih =>
    rw [endingAt_seqOf_succ]
    refine andThen_ne_exhausted (hhere 0 (by simp)) fun next v hfirst =>
      andThen_ne_exhausted ?_ fun _ _ _ h => nomatch h
    -- either the text got shorter, or the match was empty and the next part is a left call too
    rcases hg.shorter_or_nullable (hforward 0) hfirst with hlt | ⟨rfl, hnull⟩
    · exact hbelow (.seqOf n fun i => items i.succ) (fun i => hforward i.succ)
        (fun i => hp i.succ) next hlt
    · refine ih (fun i => hforward i.succ) (fun i => hp i.succ) fun i hbefore => ?_
      refine hhere i.succ fun j hj => ?_
      cases j using Fin.cases with
      | zero => exact hnull
      | succ j => exact hbefore j (Fin.succ_lt_succ_iff.1 hj)

/-- A parser that a user wrote around another ends if that one does and, from the same place, each
one that it can go on with. -/
theorem WellFormed.inspect_ne_exhausted {γ : Type} (hg : g.WellFormed S) {c : Cursor}
    (hbelow : g.EndsBelow S fuel c.rest.length) {p : Parser R α}
    {choose : Cursor → Outcome α → Callback (Cursor × γ)} {next : γ → Parser R β}
    (hforward : (Parser.inspect p choose next).Forward)
    (hp : ∀ v, (next v).WellFormed g.nullable S) (hhead : g.endingAt fuel p c ≠ .exhausted)
    (hnext : ∀ v, g.endingAt fuel (next v) c ≠ .exhausted) :
    g.endingAt fuel (.inspect p choose next) c ≠ .exhausted := by
  rw [endingAt_inspect]
  intro h
  rcases Ending.bind_eq_exhausted.1 h with hinner | ⟨outcome, hinner, hrest⟩
  · exact hhead hinner
  · have hahead : ∀ c' v, outcome = .success c' v → c.Reaches c' := by
      rintro c' v rfl
      exact reaches_of_success hg.forward hforward.1 hinner
    refine ofCallback_bind_ne_exhausted (fun chosen hchosen => ?_) hrest
    have hresume : c.Reaches chosen.1 := hforward.2.2 c outcome hahead chosen hchosen
    -- the function chose a later place, or the start, where only left calls follow
    by_cases hlt : chosen.1.rest.length < c.rest.length
    · exact hbelow _ (hforward.2.1 chosen.2) (hp chosen.2) chosen.1 hlt
    · rw [hresume.eq_of_length (by omega)]
      exact hnext chosen.2

/-- Step lemma: parsers end at this length and bound if they do at shorter lengths and, at this
length, at lower bounds. By structural induction. -/
theorem WellFormed.endsWithin_step (hg : g.WellFormed S) {length bound : Nat}
    (hshort : ∀ length' < length, g.EndsWithin S length' S.ncard)
    (hlow : ∀ bound' < bound, g.EndsWithin S length bound') : g.EndsWithin S length bound := by
  intro fuel hfuel α p hforward hp hcalls c hc
  have hbelow : g.EndsBelow S fuel length := hg.endsBelow hshort hfuel
  have hrounds : (S.ncard + 1) * length < fuel := by omega
  induction p generalizing c with
  | ok | endOfInput | succeed => exact fun h => nomatch h
  | succeedWith make =>
    rw [endingAt_succeedWith]
    exact ofCallback_bind_ne_exhausted fun _ _ h => nomatch h
  | like accepts => exact like_ne_exhausted accepts c
  | char ch =>
    rw [endingAt_char]
    exact like_ne_exhausted _ c
  | oneOf set =>
    rw [endingAt_oneOf]
    exact like_ne_exhausted _ c
  | str text =>
    rcases c with ⟨before, rest⟩
    rw [endingAt_str]
    exact fun h => nomatch h
  | seqOf n items ih =>
    subst hc
    exact hg.seqOf_ne_exhausted hbelow hforward hp fun i hbefore =>
      ih i (hforward i) (hp i) (fun s hs => hcalls s ⟨i, hbefore, hs⟩) c rfl
  | or left right ihl ihr =>
    have hl : g.endingAt fuel left c ≠ .exhausted :=
      ihl hforward.1 hp.1 (fun s hs => hcalls s (.inl hs)) c hc
    have hr : g.endingAt fuel right c ≠ .exhausted :=
      ihr hforward.2 hp.2 (fun s hs => hcalls s (.inr hs)) c hc
    rw [endingAt_or]
    intro h
    rcases Ending.orElse_eq_exhausted.1 h with hleft | ⟨-, hright⟩
    · exact hl hleft
    · exact hr hright
  | star p ih =>
    have hinner : p.Forward := hforward
    rw [endingAt_star]
    intro h
    rcases Ending.bind_eq_exhausted.1 h with hloop | ⟨found, -, heq⟩
    · exact hg.rounds_ne_exhausted hbelow hrounds hinner hp.1 hp.2 (ih hinner hp.2 hcalls)
        (le_of_eq hc) hloop
    · cases heq
  | plus p ih =>
    have hinner : p.Forward := hforward
    rw [endingAt_plus]
    refine andThen_ne_exhausted (ih hinner hp.2 hcalls c hc) fun next v hfirst h => ?_
    have hless : next.rest.length < c.rest.length :=
      shorter_of_success hg.forward hinner hp.1 hfirst
    rcases Ending.bind_eq_exhausted.1 h with hloop | ⟨found, -, heq⟩
    · exact hg.rounds_ne_exhausted hbelow hrounds hinner hp.1 hp.2 (ih hinner hp.2 hcalls)
        (by omega) hloop
    · cases heq
  | option p ih =>
    have hinner : g.endingAt fuel p c ≠ .exhausted := ih hforward hp hcalls c hc
    rw [endingAt_option]
    intro h
    rcases Ending.orElse_eq_exhausted.1 h with hsome | ⟨-, hnone⟩
    · refine andThen_ne_exhausted hinner ?_ hsome
      exact fun _ _ _ h => nomatch h
    · cases hnone
  | chain p effect next ihp ihn =>
    subst hc
    have hhead : g.endingAt fuel p c ≠ .exhausted :=
      ihp hforward.1 hp.1 (fun s hs => hcalls s (.inl hs)) c rfl
    rw [endingAt_chain]
    refine andThen_ne_exhausted hhead fun after v hfirst =>
      ofCallback_bind_ne_exhausted fun _ _ => ?_
    -- what follows is called at a later place, or it is a left call of the chain
    rcases hg.shorter_or_nullable hforward.1 hfirst with hlt | ⟨rfl, hnull⟩
    · exact hbelow _ (hforward.2 v) (hp.2 v) after hlt
    · exact ihn v (hforward.2 v) (hp.2 v) (fun s hs => hcalls s (.inr ⟨hnull, v, hs⟩)) after rfl
  | map p f ih =>
    have hinner : g.endingAt fuel p c ≠ .exhausted := ih hforward hp hcalls c hc
    rw [endingAt_map]
    exact andThen_ne_exhausted hinner fun _ _ _ =>
      ofCallback_bind_ne_exhausted fun _ _ h => nomatch h
  | named label p ih =>
    rw [endingAt_named]
    exact ih hforward hp hcalls c hc
  | boxed p ih => exact ih hforward hp hcalls c hc
  | deferred factory p ih =>
    rw [endingAt_deferred]
    exact ofCallback_bind_ne_exhausted fun _ _ => ih hforward hp hcalls c hc
  | rule r =>
    -- the body has one unit of fuel less, for which the lower rank of its left calls makes up
    have hrank : g.rank ⟨_, r⟩ < bound := hcalls _ rfl
    cases fuel with
    | zero => omega
    | succ fuel =>
      rw [endingAt_rule_succ]
      refine hlow (g.rank ⟨_, r⟩) hrank fuel (by omega) (g.body r) (hg.forward r)
        (hg.bodies _ hp) (fun s hs => ?_) c hc
      exact hg.rank_lt hp hs
  | closure f =>
    rw [endingAt_closure]
    exact ofCallback_ne_exhausted (f c)
  | inspect p choose next ihp ihn =>
    subst hc
    have hhead : g.endingAt fuel p c ≠ .exhausted :=
      ihp hforward.1 hp.1 (fun s hs => hcalls s (.inl hs)) c rfl
    refine hg.inspect_ne_exhausted hbelow hforward hp.2 hhead fun v => ?_
    exact ihn v (hforward.2.1 v) (hp.2 v) (fun s hs => hcalls s (.inr ⟨v, hs⟩)) c rfl

/-- By induction on the length and, for each length, on the bound. -/
theorem WellFormed.endsWithin (hg : g.WellFormed S) (length bound : Nat) :
    g.EndsWithin S length bound := by
  induction length using Nat.strong_induction_on generalizing bound with
  | _ length ihlength =>
    induction bound using Nat.strong_induction_on with
    | _ bound ihbound => exact hg.endsWithin_step (fun length' h => ihlength length' h _) ihbound

/-- Over a well-formed grammar, fuel for all rules at all places of the unread text is enough. -/
theorem WellFormed.endingAt_ne_exhausted (hg : g.WellFormed S) {p : Parser R α}
    (hforward : p.Forward) (hp : p.WellFormed g.nullable S) {c : Cursor}
    (hfuel : (S.ncard + 1) * (c.rest.length + 2) ≤ fuel) : g.endingAt fuel p c ≠ .exhausted := by
  have hcalls : ∀ s ∈ p.leftCalls g.nullable, g.rank s < S.ncard :=
    fun s hs => hg.rank_lt_card (Parser.leftCalls_subset hp hs)
  have hsplit : (S.ncard + 1) * (c.rest.length + 2) =
      (S.ncard + 1) * c.rest.length + 2 * (S.ncard + 1) := by ring
  exact hg.endsWithin c.rest.length S.ncard fuel (by omega) p hforward hp hcalls c rfl

/-- A grammar that counts its rules hands out enough fuel. -/
theorem WellFormed.le_fuelFor (hcard : S.ncard ≤ g.size) (c : Cursor) :
    (S.ncard + 1) * (c.rest.length + 2) ≤ g.fuelFor c :=
  Nat.mul_le_mul_right _ (by omega)

end Grammar

/-! ## Parsers that read before they call -/

namespace Parser

variable {N S : Set (AnyRule R)}

/-- Fit to be used anywhere but as what is repeated. -/
structure Tame (N S : Set (AnyRule R)) (p : Parser R α) : Prop where
  forward : p.Forward
  wellFormed : p.WellFormed N S

/-- Reads something whenever it matches, and before it calls any rule. -/
structure Solid (N S : Set (AnyRule R)) (p : Parser R α) : Prop extends Tame N S p where
  not_nullable : ¬ p.Nullable N
  leftCalls_eq : p.leftCalls N = ∅

namespace Tame

theorem endOfInput : (.endOfInput : Parser R Unit).Tame N S :=
  ⟨trivial, trivial⟩

theorem rule {r : R α} (hr : ⟨α, r⟩ ∈ S) : (.rule r : Parser R α).Tame N S :=
  ⟨trivial, hr⟩

/-- `ofOption` moves forward, since it does not move at all. -/
theorem ofOption (found : Option α) : (.ofOption found : Parser R α).Tame N S := by
  cases found with
  | none =>
    refine ⟨fun c c' v h => ?_, trivial⟩
    cases h
  | some v => exact ⟨trivial, trivial⟩

/-- `Tame` is closed under `>>=`. -/
protected theorem bind {p : Parser R α} {next : α → Parser R β} (hp : p.Tame N S)
    (hnext : ∀ v, (next v).Tame N S) : (p >>= next).Tame N S :=
  ⟨⟨hp.forward, fun v => (hnext v).forward⟩, ⟨hp.wellFormed, fun v => (hnext v).wellFormed⟩⟩

theorem mapValue (f : α → β) {p : Parser R α} (hp : p.Tame N S) : (f <$> p).Tame N S :=
  ⟨hp.forward, hp.wellFormed⟩

theorem map (f : α → Callback β) {p : Parser R α} (hp : p.Tame N S) : (p.map f).Tame N S :=
  ⟨hp.forward, hp.wellFormed⟩

theorem option {p : Parser R α} (hp : p.Tame N S) : p.option.Tame N S :=
  ⟨hp.forward, hp.wellFormed⟩

/-- What is repeated has to be `Solid`. -/
theorem star {p : Parser R α} (hp : p.Solid N S) : p.star.Tame N S :=
  ⟨hp.forward, hp.not_nullable, hp.wellFormed⟩

end Tame

namespace Solid

theorem like (accepts : Char → Callback Bool) : (.like accepts : Parser R Char).Solid N S :=
  ⟨⟨trivial, trivial⟩, id, rfl⟩

theorem char (ch : Char) : (.char ch : Parser R Char).Solid N S :=
  ⟨⟨trivial, trivial⟩, id, rfl⟩

theorem oneOf (set : String) : (.oneOf set : Parser R Char).Solid N S :=
  ⟨⟨trivial, trivial⟩, id, rfl⟩

theorem str {text : String} (h : text.toList ≠ []) : (.str text : Parser R String).Solid N S :=
  ⟨⟨trivial, trivial⟩, h, rfl⟩

/-- `>>=` is solid if its first part is, whatever tame parser follows. -/
protected theorem bind {p : Parser R α} {next : α → Parser R β} (hp : p.Solid N S)
    (hnext : ∀ v, (next v).Tame N S) : (p >>= next).Solid N S := by
  refine ⟨hp.toTame.bind hnext, fun h => hp.not_nullable h.1, ?_⟩
  have hcalls : (p >>= next).leftCalls N =
      p.leftCalls N ∪ {s | p.Nullable N ∧ ∃ v, s ∈ (next v).leftCalls N} := rfl
  rw [hcalls, hp.leftCalls_eq]
  simp [hp.not_nullable]

/-- The second part may be the one that reads, if the first calls no rule. -/
theorem bind_of_tame {p : Parser R α} {next : α → Parser R β} (hp : p.Tame N S)
    (hcalls : p.leftCalls N = ∅) (hnext : ∀ v, (next v).Solid N S) : (p >>= next).Solid N S := by
  refine ⟨hp.bind fun v => (hnext v).toTame, fun h => ?_, ?_⟩
  -- a match that reads nothing would be one of the second part as well
  · rcases h with ⟨-, v, hv⟩
    exact (hnext v).not_nullable hv
  · have hunfold : (p >>= next).leftCalls N =
        p.leftCalls N ∪ {s | p.Nullable N ∧ ∃ v, s ∈ (next v).leftCalls N} := rfl
    rw [hunfold, hcalls]
    simp [(hnext _).leftCalls_eq]

/-- `or` is solid if both of its parts are. -/
theorem or {left right : Parser R α} (hl : left.Solid N S) (hr : right.Solid N S) :
    (left.or right).Solid N S := by
  refine ⟨⟨⟨hl.forward, hr.forward⟩, ⟨hl.wellFormed, hr.wellFormed⟩⟩, ?_, ?_⟩
  · rintro (h | h)
    · exact hl.not_nullable h
    · exact hr.not_nullable h
  · have hcalls : (left.or right).leftCalls N = left.leftCalls N ∪ right.leftCalls N := rfl
    rw [hcalls, hl.leftCalls_eq, hr.leftCalls_eq, Set.union_empty]

/-- A sequence of solid parsers is solid, unless it is empty. -/
theorem seq {ps : List (Parser R α)} (hne : ps ≠ []) (h : ∀ p ∈ ps, p.Solid N S) :
    (Parser.seq ps).Solid N S := by
  have hitems : ∀ i : Fin ps.length, (ps.get i).Solid N S := fun i => h _ (ps.get_mem i)
  refine ⟨⟨fun i => (hitems i).forward, fun i => (hitems i).wellFormed⟩, fun hnull => ?_, ?_⟩
  · have hpos : 0 < ps.length := List.length_pos_iff.2 hne
    exact (hitems ⟨0, hpos⟩).not_nullable (hnull ⟨0, hpos⟩)
  · refine Set.eq_empty_of_forall_notMem ?_
    rintro s ⟨i, -, hs⟩
    rw [(hitems i).leftCalls_eq] at hs
    exact hs

theorem plus {p : Parser R α} (hp : p.Solid N S) : p.plus.Solid N S :=
  ⟨⟨hp.forward, hp.not_nullable, hp.wellFormed⟩, hp.not_nullable, hp.leftCalls_eq⟩

theorem mapValue (f : α → β) {p : Parser R α} (hp : p.Solid N S) : (f <$> p).Solid N S :=
  ⟨⟨hp.forward, hp.wellFormed⟩, hp.not_nullable, hp.leftCalls_eq⟩

theorem named (label : String) {p : Parser R α} (hp : p.Solid N S) : (p.named label).Solid N S :=
  ⟨⟨hp.forward, hp.wellFormed⟩, hp.not_nullable, hp.leftCalls_eq⟩

theorem boxed {p : Parser R α} (hp : p.Solid N S) : p.boxed.Solid N S :=
  ⟨⟨hp.forward, hp.wellFormed⟩, hp.not_nullable, hp.leftCalls_eq⟩

theorem blanks_tame : (Lexeme.blanks : Parser R Unit).Tame N S :=
  (Tame.star (like _)).mapValue _

/-- Blanks behind a solid parser are tame. -/
theorem token {p : Parser R α} (hp : p.Solid N S) : (Lexeme.token p).Solid N S :=
  hp.bind fun _ => blanks_tame.mapValue _

/-- The digits of `integer` are solid; the sign before them calls no rule. -/
theorem integer : (Lexeme.integer : Parser R Int64).Solid N S := by
  have hdigits : (Lexeme.digits : Parser R String).Solid N S := (plus (like _)).mapValue _
  have hsigned : (Parser.bind (.option (.char '-')) fun sign =>
      (fun ds => (sign, ds)) <$> Lexeme.digits : Parser R (Option Char × String)).Solid N S :=
    bind_of_tame (char '-').toTame.option rfl fun _ => hdigits.mapValue _
  exact hsigned.bind fun _ => .ofOption _

end Solid

end Parser

namespace Grammar

/-- If the body of every rule is solid, no rule is nullable, there are no left calls, and the
grammar is well-formed. -/
theorem wellFormed_of_solid {g : Grammar R} [Finite (AnyRule R)]
    (h : ∀ {α : Type} (r : R α), (g.body r).Solid ∅ .univ) :
    g.nullable = ∅ ∧ g.WellFormed .univ := by
  have hempty : g.nullable = ∅ := nullable_eq_empty fun r => (h r.2).not_nullable
  have hnone : ∀ r s, ¬ g.LeftCall r s := by
    intro r s hrs
    unfold LeftCall at hrs
    rw [hempty, (h r.2).leftCalls_eq] at hrs
    exact hrs
  refine ⟨hempty, ?_⟩
  refine
    { finite := Set.finite_univ
      forward := fun r => (h r).forward
      bodies := fun r _ => ?_
      acyclic := fun r _ hr => ?_ }
  · rw [hempty]
    exact (h r.2).wellFormed
  · rcases Relation.TransGen.head'_iff.1 hr with ⟨s, hrs, -⟩
    exact hnone r s hrs

/-- Over a grammar with solid bodies, a tame parser ends within the fuel of a cursor. -/
theorem endingAt_fuelFor_ne_exhausted {g : Grammar R} [Finite (AnyRule R)]
    (hcard : Nat.card (AnyRule R) ≤ g.size)
    (h : ∀ {α : Type} (r : R α), (g.body r).Solid ∅ .univ) {p : Parser R α}
    (hp : p.Tame ∅ .univ) (c : Cursor) : g.endingAt (g.fuelFor c) p c ≠ .exhausted := by
  rcases wellFormed_of_solid h with ⟨hempty, hg⟩
  have hwell : p.WellFormed g.nullable .univ := by
    rw [hempty]
    exact hp.wellFormed
  refine hg.endingAt_ne_exhausted hp.forward hwell (WellFormed.le_fuelFor ?_ c)
  rwa [Set.ncard_univ]

end Grammar

/-! ## Parsers without rules -/

/-- A parser that refers to no rule means the same whatever the rules mean. By structural
induction. -/
theorem Parser.eval_eq_of_no_rules {N : Set (AnyRule R)} {p : Parser R α} (h : p.WellFormed N ∅)
    (fuel : Nat) (rules rules' : {α : Type} → R α → Action α) :
    p.eval fuel rules = p.eval fuel rules' := by
  induction p with
  | ok | endOfInput | like | char | oneOf | str | succeed | succeedWith | closure => rfl
  | seqOf n items ih => simp only [eval, fun i => ih i (h i)]
  | or left right ihl ihr => simp only [eval, ihl h.1, ihr h.2]
  | star p ih | plus p ih => simp only [eval, ih h.2]
  | option p ih | map p f ih => simp only [eval, ih h]
  | named label p ih | boxed p ih | deferred factory p ih => simp only [eval, ih h]
  | chain p effect next ihp ihn => simp only [eval, ihp h.1, fun v => ihn v (h.2 v)]
  | rule r => exact (Set.notMem_empty _ h).elim
  | inspect p choose next ihp ihn => simp only [eval, ihp h.1, fun v => ihn v (h.2 v)]

namespace Grammar

def barren : Grammar R where
  size := 0
  body _ := .fail

/-- Over the empty set of rules, `barren` is well-formed. -/
theorem wellFormed_barren : (barren : Grammar R).WellFormed ∅ where
  finite := Set.finite_empty
  forward := fun _ _ _ _ h => nomatch h
  bodies := fun _ h => h.elim
  acyclic := fun _ h => h.elim

section

variable {g : Grammar R} {fuel : Nat} {p : Parser R α}
  (hp : p.Tame (barren : Grammar R).nullable ∅)

include hp

/-- The rules are not called, so `barren` may take the place of `g`. -/
theorem endingAt_eq_barren (c : Cursor) : g.endingAt fuel p c = barren.endingAt fuel p c := by
  unfold endingAt run
  rw [Parser.eval_eq_of_no_rules hp.wellFormed]

/-- Without rules, the fuel that is needed is that of the loops. -/
theorem endingAt_ne_exhausted_of_no_rules {c : Cursor} (hfuel : c.rest.length < fuel) :
    g.endingAt fuel p c ≠ .exhausted := by
  have hcalls : ∀ s ∈ p.leftCalls (barren : Grammar R).nullable, (barren : Grammar R).rank s < 0 :=
    fun s hs => (Set.notMem_empty s (Parser.leftCalls_subset hp.wellFormed hs)).elim
  rw [endingAt_eq_barren hp]
  refine wellFormed_barren.endsWithin c.rest.length 0 fuel ?_ p hp.forward hp.wellFormed hcalls c
    rfl
  rw [Set.ncard_empty]
  omega

/-- Over any grammar, a parser that refers to no rule and has no function that raises a fault comes
to an outcome, given more units of fuel than there are unread characters. -/
theorem exists_outcome_of_no_rules (hraise : ∀ fault, ¬ p.MayRaise fault) {c : Cursor}
    (hfuel : c.rest.length < fuel) : ∃ outcome, g.endingAt fuel p c = .returned outcome := by
  have hbarren : ∀ fault, ¬ (barren : Grammar R).MayRaise fault := by
    rintro fault ⟨β, r, c, h⟩
    cases h
  have hends : g.endingAt fuel p c ≠ .exhausted := endingAt_ne_exhausted_of_no_rules hp hfuel
  have hfaults : (g.endingAt fuel p c).FaultsIn fun fault =>
      p.MayRaise fault ∨ (barren : Grammar R).MayRaise fault := by
    rw [endingAt_eq_barren hp]
    exact faultsIn_endingAt p c
  cases hending : g.endingAt fuel p c with
  | returned outcome => exact ⟨outcome, rfl⟩
  | panicked panic =>
    rcases hfaults panic hending with ⟨fault, -, hfault | hfault⟩
    · exact absurd hfault (hraise fault)
    · exact absurd hfault (hbarren fault)
  | exhausted => exact absurd hending hends

end

end Grammar

/-! ## The grammars of this library -/

namespace Arithmetic

open ParserCombinators.Parser

instance : Unique (AnyRule Rule) where
  default := ⟨_, .expression⟩
  uniq := by
    rintro ⟨_, ⟨⟩⟩
    rfl

section

variable {N S : Set (AnyRule R)} {inner : Parser R Int64}

/-- A factor reads a digit, a sign or a bracket before it calls the rule. -/
theorem solid_factor (hinner : inner.Tame N S) : (factor inner).Solid N S := by
  have hbracketed : (do
      let _ ← Lexeme.token (.char '(')
      let value ← inner
      (fun _ => value) <$> Lexeme.token (.char ')') : Parser R Int64).Solid N S :=
    (Solid.char '(').token.bind fun _ => hinner.bind fun _ =>
      (Solid.char ')').token.toTame.mapValue _
  exact (Solid.integer.token.or hbracketed).boxed

theorem tame_operands (operator : Char) {operand : Parser R Int64} (h : operand.Tame N S) :
    (operands operator operand).Tame N S :=
  Tame.star ((Solid.char operator).token.bind fun _ => h)

/-- Each level of the grammar is solid, as its first operand is. -/
theorem solid_term (hinner : inner.Tame N S) : (term inner).Solid N S := by
  have hfactor : (factor inner).Solid N S := solid_factor hinner
  exact ((hfactor.bind fun _ => (tame_operands '*' hfactor.toTame).map _).named "term").boxed

theorem solid_expression (hinner : inner.Tame N S) : (expression inner).Solid N S := by
  have hterm : (term inner).Solid N S := solid_term hinner
  exact ((hterm.bind fun _ => (tame_operands '+' hterm.toTame).map _).named "expr").boxed

end

/-- The one rule of the grammar reads before it calls itself. -/
theorem solid_body {α : Type} (r : Rule α) : (grammar.body r).Solid ∅ .univ := by
  cases r
  exact solid_expression (.rule (Set.mem_univ _))

theorem tame_whole : whole.Tame ∅ .univ :=
  Solid.blanks_tame.bind fun _ => (Tame.rule (Set.mem_univ _)).bind fun _ =>
    Tame.endOfInput.mapValue _

end Arithmetic

namespace Json

open ParserCombinators.Parser

instance : Unique (AnyRule Rule) where
  default := ⟨_, .tree⟩
  uniq := by
    rintro ⟨_, ⟨⟩⟩
    rfl

section

variable {N S : Set (AnyRule R)} {inner : Parser R Json}

theorem solid_string : (string : Parser R String).Solid N S :=
  Solid.token ((Solid.char '"').bind fun _ =>
    (Tame.star (Solid.like _)).bind fun _ => (Solid.char '"').toTame.mapValue _)

theorem solid_number : (number : Parser R Json).Solid N S :=
  (Solid.oneOf _).plus.token.bind fun _ => .ofOption _

theorem solid_literal {word : String} (h : word.toList ≠ []) (tree : Json) :
    (literal word tree : Parser R Json).Solid N S :=
  (Solid.str h).token.mapValue _

/-- A list is tame: each later item follows a separator, which is solid. -/
theorem tame_separated {item : Parser R α} (h : item.Tame N S) (separator : Char) :
    (separated item separator).Tame N S := by
  have hmore : (do
      let _ ← Lexeme.token (.char separator)
      item : Parser R α).Solid N S := (Solid.char separator).token.bind fun _ => h
  exact (h.bind fun _ => (Tame.star hmore).mapValue _).option.mapValue _

theorem tame_keyValue (hinner : inner.Tame N S) : (keyValue inner).Tame N S :=
  solid_string.toTame.bind fun _ => (Solid.char ':').token.toTame.bind fun _ => hinner.mapValue _

/-- Each form of a tree begins with a character of its own. -/
theorem solid_tree (hinner : inner.Tame N S) : (tree inner).Solid N S := by
  have hmembers : (members inner).Solid N S :=
    (Solid.char _).token.bind fun _ => (tame_separated (tame_keyValue hinner) ',').bind fun _ =>
      (Solid.char _).token.toTame.mapValue _
  have hitems : (items inner).Solid N S :=
    (Solid.char _).token.bind fun _ => (tame_separated hinner ',').bind fun _ =>
      (Solid.char _).token.toTame.mapValue _
  have hwords : (((((members inner).or (items inner)).or (Json.str <$> string)).or number).or
      (literal "true" (.bool true))).or (literal "false" (.bool false)) |>.or
      (literal "null" .null) |>.Solid N S :=
    hmembers.or hitems |>.or (solid_string.mapValue _) |>.or solid_number
      |>.or (solid_literal (by decide) _) |>.or (solid_literal (by decide) _)
      |>.or (solid_literal (by decide) _)
  exact (hwords.named "json").boxed

end

/-- The one rule of the grammar reads before it calls itself. -/
theorem solid_body {α : Type} (r : Rule α) : (grammar.body r).Solid ∅ .univ := by
  cases r
  exact solid_tree (.rule (Set.mem_univ _))

theorem tame_document : document.Tame ∅ .univ :=
  Solid.blanks_tame.bind fun _ => (Tame.rule (Set.mem_univ _)).bind fun _ =>
    Tame.endOfInput.mapValue _

end Json

/-! ## Well-formed grammars end -/

namespace Grammar

/-- Over a well-formed grammar, a well-formed parser ends at every cursor, with an outcome or with
the fault of a user's function; the fuel for it grows with the number of rules and the length of the
unread text, and is what `Grammar.runAt` hands out if the grammar counts its rules. A parser that is
not nullable ends, when it matches, at a later offset. What users wrote as functions has to move
forward; where there is no such function, this says nothing. -/
theorem ends_on_every_text {g : Grammar R} {S : Set (AnyRule R)} (hg : g.WellFormed S)
    {p : Parser R α} (hforward : p.Forward) (hp : p.WellFormed g.nullable S) (c : Cursor) :
    (∀ fuel, (S.ncard + 1) * (c.rest.length + 2) ≤ fuel → ∀ level label,
      (∃ outcome, (g.run fuel p c level label).ending = .returned outcome) ∨
        ∃ fault, (g.run fuel p c level label).ending = .panicked (.fault fault)) ∧
    (S.ncard ≤ g.size → ∀ level label, (g.runAt p c level label).ending ≠ .exhausted) ∧
    (¬ p.Nullable g.nullable → ∀ fuel level label c' v,
      (g.run fuel p c level label).ending = .returned (.success c' v) → c.offset < c'.offset) := by
  refine ⟨fun fuel hfuel level label => ?_, fun hcard level label => ?_, ?_⟩
  · have hends : g.endingAt fuel p c ≠ .exhausted := hg.endingAt_ne_exhausted hforward hp hfuel
    have hblame : (g.endingAt fuel p c).Blameless := blameless_endingAt p c
    rw [run_ending]
    rcases h : g.endingAt fuel p c with outcome | (fault | defect) | _
    · exact .inl ⟨outcome, rfl⟩
    · exact .inr ⟨fault, rfl⟩
    · exact (hblame defect h).elim
    · exact (hends h).elim
  · have hends : g.endingAt (g.fuelFor c) p c ≠ .exhausted :=
      hg.endingAt_ne_exhausted hforward hp (WellFormed.le_fuelFor hcard c)
    show (g.run (g.fuelFor c) p c level label).ending ≠ .exhausted
    rwa [run_ending]
  · intro hnull fuel level label c' v h
    rw [run_ending] at h
    have hreach : c.Reaches c' := reaches_of_success hg.forward hforward h
    exact hreach.offset_lt (shorter_of_success hg.forward hforward hnull h)

/-- The rule of arithmetic expressions ends on a text with brackets, and moves on if it matches. -/
theorem ends_on_every_text_expression :
    (∀ level label, (Arithmetic.grammar.runAt (.rule .expression)
      (Cursor.ofText "(1 + 2) * 3") level label).ending ≠ .exhausted) ∧
    (∀ fuel level label c' v, (Arithmetic.grammar.run fuel (.rule .expression)
      (Cursor.ofText "(1 + 2) * 3") level label).ending = .returned (.success c' v) →
        0 < c'.offset) := by
  rcases wellFormed_of_solid (g := Arithmetic.grammar) Arithmetic.solid_body with ⟨hempty, hg⟩
  have hnull : ¬ (.rule .expression : Parser Arithmetic.Rule Int64).Nullable
      Arithmetic.grammar.nullable := by
    rw [hempty]
    exact id
  have hcard : (Set.univ : Set (AnyRule Arithmetic.Rule)).ncard ≤ Arithmetic.grammar.size := by
    rw [Set.ncard_univ, Nat.card_unique]
    rfl
  have hends := ends_on_every_text hg (p := .rule .expression) trivial (Set.mem_univ _)
    (Cursor.ofText "(1 + 2) * 3")
  exact ⟨hends.2.1 hcard, hends.2.2 hnull⟩

end Grammar

end ParserCombinators
