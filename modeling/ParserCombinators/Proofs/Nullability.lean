import Mathlib.Data.Set.Card
import Mathlib.Logic.Relation
import Mathlib.Order.FixedPoints
import Mathlib.Order.CompletePartialOrder
import ParserCombinators.Proofs.Progress

/-!
# Nullability — who may match without reading

A parser may match without reading, and a rule may call itself; a run goes on forever if the one
happens inside a repetition, or if the other happens before anything was read. Both can be seen from
the shape of the grammar.

- `Parser.Nullable`, `Grammar.nullable`: who may match without reading; of rules, the least solution
- `Parser.leftCalls`, `Grammar.LeftCall`: the rules that may be called before anything was read
- `Parser.WellFormed`, `Grammar.WellFormed`: repetitions read, and no rule left-calls itself
- `Grammar.shorter_of_success`: what is not nullable reads something
-/

namespace ParserCombinators

variable {R : Type → Type} {α β : Type}

abbrev AnyRule (R : Type → Type) : Type 1 :=
  (α : Type) × R α

/-! ## Matching without reading -/

/-- May the parser match without reading, if of the rules those in `N` may? A user's function that
inspects an outcome may go back to where it started, so only what comes after it counts. -/
def Parser.Nullable (N : Set (AnyRule R)) : {α : Type} → Parser R α → Prop
  | _, .ok | _, .endOfInput | _, .succeed _ | _, .succeedWith _ => True
  | _, .like _ | _, .char _ | _, .oneOf _ => False
  | _, .str text => text.toList = []
  | _, .seqOf n items => ∀ i : Fin n, (items i).Nullable N
  | _, .or left right => left.Nullable N ∨ right.Nullable N
  | _, .star _ | _, .option _ => True
  | _, .plus p | _, .map p _ | _, .named _ p | _, .boxed p | _, .deferred _ p => p.Nullable N
  | _, .chain p _ next => p.Nullable N ∧ ∃ v, (next v).Nullable N
  | _, .rule r => ⟨_, r⟩ ∈ N
  | _, .closure f => ∃ c v, (f c).result = .ok (.success c v)
  | _, .inspect _ _ next => ∃ v, (next v).Nullable N

/-- `Nullable` is monotone in the set of nullable rules. By structural induction; only the case of a
rule looks at the set. -/
theorem Parser.Nullable.mono {N N' : Set (AnyRule R)} (hN : N ⊆ N') {p : Parser R α}
    (h : p.Nullable N) : p.Nullable N' := by
  induction p with
  | ok | endOfInput | succeed | succeedWith | star | option => trivial
  | like | char | oneOf => exact h.elim
  | str | closure => exact h
  | seqOf n items ih => exact fun i => ih i (h i)
  | or left right ihl ihr => exact h.imp ihl ihr
  | plus p ih | map p f ih | named label p ih | boxed p ih | deferred factory p ih => exact ih h
  | chain p effect next ihp ihn =>
    rcases h with ⟨hp, v, hv⟩
    exact ⟨ihp hp, v, ihn v hv⟩
  | rule r => exact hN h
  | inspect p choose next ihp ihn =>
    rcases h with ⟨v, hv⟩
    exact ⟨v, ihn v hv⟩

namespace Grammar

/-- The rules whose bodies may match without reading, if of the rules those in `N` may. -/
def nullableStep (g : Grammar R) : Set (AnyRule R) →o Set (AnyRule R) where
  toFun N := {r | (g.body r.2).Nullable N}
  monotone' _ _ hN _ h := Parser.Nullable.mono hN h

def nullable (g : Grammar R) : Set (AnyRule R) :=
  OrderHom.lfp g.nullableStep

/-- `nullable` is a fixed point: a rule is nullable if its body is. -/
theorem mem_nullable {g : Grammar R} {r : R α} :
    ⟨α, r⟩ ∈ g.nullable ↔ (g.body r).Nullable g.nullable := by
  have hfix : g.nullableStep g.nullable = g.nullable := g.nullableStep.map_lfp
  constructor
  · intro h
    rw [← hfix] at h
    exact h
  · intro h
    rw [← hfix]
    exact h

/-- If no body is nullable even with no rule that is, `nullable` is empty. -/
theorem nullable_eq_empty {g : Grammar R} (h : ∀ r : AnyRule R, ¬ (g.body r.2).Nullable ∅) :
    g.nullable = ∅ := by
  -- the empty set is closed under the step, and the least solution lies below what is
  have hle : g.nullable ≤ ∅ := OrderHom.lfp_le g.nullableStep fun r hr => (h r hr).elim
  exact Set.subset_empty_iff.1 hle

end Grammar

/-! ## Calls before anything was read -/

/-- The rules that the parser may call before it has read anything. -/
def Parser.leftCalls (N : Set (AnyRule R)) : {α : Type} → Parser R α → Set (AnyRule R)
  | _, .ok | _, .endOfInput | _, .like _ | _, .char _ | _, .oneOf _ | _, .str _ => ∅
  | _, .succeed _ | _, .succeedWith _ | _, .closure _ => ∅
  | _, .seqOf n items =>
    {s | ∃ i : Fin n, (∀ j < i, (items j).Nullable N) ∧ s ∈ (items i).leftCalls N}
  | _, .or left right => left.leftCalls N ∪ right.leftCalls N
  | _, .star p | _, .plus p | _, .option p | _, .map p _ => p.leftCalls N
  | _, .named _ p | _, .boxed p | _, .deferred _ p => p.leftCalls N
  | _, .chain p _ next =>
    p.leftCalls N ∪ {s | p.Nullable N ∧ ∃ v, s ∈ (next v).leftCalls N}
  | _, .rule r => {⟨_, r⟩}
  | _, .inspect p _ next => p.leftCalls N ∪ {s | ∃ v, s ∈ (next v).leftCalls N}

def Grammar.LeftCall (g : Grammar R) (r s : AnyRule R) : Prop :=
  s ∈ (g.body r.2).leftCalls g.nullable

/-! ## Well-formed parsers and grammars -/

/-- Only rules of `S` are referred to, and what is repeated is not nullable. -/
def Parser.WellFormed (N S : Set (AnyRule R)) : {α : Type} → Parser R α → Prop
  | _, .ok | _, .endOfInput | _, .like _ | _, .char _ | _, .oneOf _ | _, .str _ => True
  | _, .succeed _ | _, .succeedWith _ | _, .closure _ => True
  | _, .seqOf n items => ∀ i : Fin n, (items i).WellFormed N S
  | _, .or left right => left.WellFormed N S ∧ right.WellFormed N S
  | _, .star p | _, .plus p => ¬ p.Nullable N ∧ p.WellFormed N S
  | _, .option p | _, .map p _ => p.WellFormed N S
  | _, .named _ p | _, .boxed p | _, .deferred _ p => p.WellFormed N S
  | _, .chain p _ next => p.WellFormed N S ∧ ∀ v, (next v).WellFormed N S
  | _, .rule r => ⟨_, r⟩ ∈ S
  | _, .inspect p _ next => p.WellFormed N S ∧ ∀ v, (next v).WellFormed N S

/-- The rules `S` are finitely many, their bodies are well-formed, and none of them reaches itself
by left calls. -/
structure Grammar.WellFormed (g : Grammar R) (S : Set (AnyRule R)) : Prop where
  finite : S.Finite
  forward : g.Forward
  bodies : ∀ r ∈ S, (g.body r.2).WellFormed g.nullable S
  acyclic : ∀ r ∈ S, ¬ Relation.TransGen g.LeftCall r r

/-- The left calls of a well-formed parser stay among the rules of `S`. -/
theorem Parser.leftCalls_subset {N S : Set (AnyRule R)} {p : Parser R α}
    (h : p.WellFormed N S) : p.leftCalls N ⊆ S := by
  induction p with
  | ok | endOfInput | like | char | oneOf | str | succeed | succeedWith | closure =>
    exact Set.empty_subset S
  | seqOf n items ih =>
    rintro s ⟨i, -, hs⟩
    exact ih i (h i) hs
  | or left right ihl ihr => exact Set.union_subset (ihl h.1) (ihr h.2)
  | star p ih | plus p ih => exact ih h.2
  | option p ih | map p f ih | named label p ih | boxed p ih | deferred factory p ih => exact ih h
  | chain p effect next ihp ihn =>
    rintro s (hs | ⟨-, v, hs⟩)
    · exact ihp h.1 hs
    · exact ihn v (h.2 v) hs
  | rule r => exact Set.singleton_subset_iff.2 h
  | inspect p choose next ihp ihn =>
    rintro s (hs | ⟨v, hs⟩)
    · exact ihp h.1 hs
    · exact ihn v (h.2 v) hs

/-! ## What is not nullable reads something -/

namespace Grammar

variable {g : Grammar R} {fuel : Nat}

/-- A sequence with one part that shortens the unread text does so itself. By induction on the
number of parts. -/
theorem shorter_seqOf {n : Nat} {items : Fin n → Parser R α}
    (hreach : ∀ i c c' v, g.endingAt fuel (items i) c = .returned (.success c' v) → c.Reaches c')
    {i : Fin n} (hitem : ∀ c c' v, g.endingAt fuel (items i) c = .returned (.success c' v) →
      c'.rest.length < c.rest.length) {c last : Cursor} {vs : List α}
    (h : g.endingAt fuel (.seqOf n items) c = .returned (.success last vs)) :
    last.rest.length < c.rest.length := by
  induction n generalizing c vs with
  | zero => exact i.elim0
  | succ n ih =>
    rcases seqOf_succ_eq_success h with ⟨next, v, vs', hfirst, hlater⟩
    have hhead : next.rest.length ≤ c.rest.length := (hreach 0 c next v hfirst).length_le
    -- the part that reads is the first one, or one of the others
    cases i using Fin.cases with
    | zero =>
      have hstrict : next.rest.length < c.rest.length := hitem c next v hfirst
      have htail : next.Reaches last :=
        seqOf_rel .refl .trans (fun j => hreach j.succ) hlater
      exact lt_of_le_of_lt htail.length_le hstrict
    | succ j =>
      have hstrict : last.rest.length < next.rest.length :=
        ih (fun j => hreach j.succ) hitem hlater
      exact lt_of_lt_of_le hstrict hhead

/-- A match of `like` reads one character. -/
theorem shorter_like {accepts : Char → Callback Bool} {c c' : Cursor} {ch : Char}
    (h : g.endingAt fuel (.like accepts) c = .returned (.success c' ch)) :
    c'.rest.length < c.rest.length := by
  rcases like_eq_success h with ⟨before, rest, rfl, rfl⟩
  simp

/-- Over rules that shorten the unread text unless they are nullable, every parser does. By
structural induction, with the rules as a hypothesis. -/
theorem shorter_over_rules (hg : g.Forward)
    (hrules : ∀ {α : Type} (r : R α), ⟨α, r⟩ ∉ g.nullable → ∀ (c c' : Cursor) (v : α),
      g.endingAt fuel (.rule r) c = .returned (.success c' v) → c'.rest.length < c.rest.length)
    (p : Parser R α) (hp : p.Forward) (hnull : ¬ p.Nullable g.nullable) (c c' : Cursor) (v : α)
    (h : g.endingAt fuel p c = .returned (.success c' v)) : c'.rest.length < c.rest.length := by
  induction p generalizing c c' with
  | ok | endOfInput | succeed | succeedWith | star | option => exact (hnull trivial).elim
  | like accepts => exact shorter_like h
  | char ch =>
    rw [endingAt_char] at h
    exact shorter_like h
  | oneOf set =>
    rw [endingAt_oneOf] at h
    exact shorter_like h
  | str text =>
    rcases c with ⟨before, rest⟩
    rw [endingAt_str] at h
    by_cases hstarts : text.toList <+: rest
    · have hpos : 0 < text.toList.length := List.length_pos_iff.2 hnull
      have hlen : text.toList.length ≤ rest.length := hstarts.length_le
      simp only [hstarts, if_true, Ending.returned.injEq, Outcome.success.injEq] at h
      rw [← h.1]
      simp only [List.length_drop]
      omega
    · simp [hstarts] at h
  | seqOf n items ih =>
    -- one part that is not nullable is enough
    rcases not_forall.1 hnull with ⟨i, hi⟩
    have hreach : ∀ i c c' v, g.endingAt fuel (items i) c = .returned (.success c' v) →
        c.Reaches c' := fun i c c' v hv => reaches_of_success hg (hp i) hv
    exact shorter_seqOf hreach (ih i (hp i) hi) h
  | or left right ihl ihr =>
    rcases not_or.1 hnull with ⟨hleft, hright⟩
    rw [endingAt_or] at h
    rcases Ending.orElse_eq_success.1 h with hl | ⟨-, hr⟩
    · exact ihl hp.1 hleft c c' v hl
    · exact ihr hp.2 hright c c' v hr
  | plus p ih =>
    rcases plus_eq_success h with ⟨next, w, ws, hfirst, hloop⟩
    -- the first round reads something, and the later ones never go back
    have hstrict : next.rest.length < c.rest.length := ih hp hnull c next w hfirst
    have hforward : p.Forward := hp
    have hround : ∀ c c' w, g.endingAt fuel p c = .returned (.success c' w) → c.Reaches c' :=
      fun c c' w hw => reaches_of_success hg hforward hw
    have hmore : next.Reaches c' := loopAt_rel .refl .trans hround hloop
    exact lt_of_le_of_lt hmore.length_le hstrict
  | chain p effect next ihp ihn =>
    rw [endingAt_chain] at h
    rcases Ending.andThen_eq_success.1 h with ⟨after, w, hfirst, hrest⟩
    rcases Ending.bind_eq_returned.1 hrest with ⟨_, -, hnext⟩
    have hhead : c.Reaches after := reaches_of_success hg hp.1 hfirst
    have htail : after.Reaches c' := reaches_of_success hg (hp.2 w) hnext
    by_cases hfirstNull : p.Nullable g.nullable
    · -- the first part may have read nothing, so no continuation is nullable
      have hw : ¬ (next w).Nullable g.nullable := fun hw => hnull ⟨hfirstNull, w, hw⟩
      exact lt_of_lt_of_le (ihn w (hp.2 w) hw after c' v hnext) hhead.length_le
    · exact lt_of_le_of_lt htail.length_le (ihp hp.1 hfirstNull c after w hfirst)
  | map p f ih =>
    rw [endingAt_map] at h
    rcases Ending.andThen_eq_success.1 h with ⟨after, w, hmatch, hrest⟩
    rcases Ending.bind_eq_returned.1 hrest with ⟨w', -, heq⟩
    cases heq
    exact ih hp hnull c _ w hmatch
  | named label p ih =>
    rw [endingAt_named] at h
    exact ih hp hnull c c' v h
  | boxed p ih => exact ih hp hnull c c' v h
  | deferred factory p ih =>
    rw [endingAt_deferred] at h
    rcases Ending.bind_eq_returned.1 h with ⟨_, -, hmatch⟩
    exact ih hp hnull c c' v hmatch
  | rule r => exact hrules r hnull c c' v h
  | closure f =>
    rw [endingAt_closure] at h
    have hresult : (f c).result = .ok (.success c' v) := Ending.ofCallback_eq_returned.1 h
    have hahead : c.Reaches c' := hp c c' v hresult
    -- a match at the start itself is what makes a function nullable
    by_contra hlen
    have hsame : c' = c := hahead.eq_of_length (by omega)
    exact hnull ⟨c, v, by rw [hresult, hsame]⟩
  | inspect p choose next ihp ihn =>
    rw [endingAt_inspect] at h
    rcases Ending.bind_eq_returned.1 h with ⟨outcome, hinner, hrest⟩
    rcases Ending.bind_eq_returned.1 hrest with ⟨chosen, hchosen, hgo⟩
    have hahead : ∀ c' v, outcome = .success c' v → c.Reaches c' := by
      rintro c' v rfl
      exact reaches_of_success hg hp.1 hinner
    -- going back to the start is allowed here; what counts is the parser that goes on
    have hresume : c.Reaches chosen.1 :=
      hp.2.2 c outcome hahead chosen (Ending.ofCallback_eq_returned.1 hchosen)
    have hnext : ¬ (next chosen.2).Nullable g.nullable := fun hn => hnull ⟨chosen.2, hn⟩
    exact lt_of_lt_of_le (ihn chosen.2 (hp.2.1 chosen.2) hnext chosen.1 c' v hgo)
      hresume.length_le

/-- A match of a parser that is not nullable leaves less text than there was. By induction on fuel:
a rule that is not nullable has a body that is not. -/
theorem shorter_of_success (hg : g.Forward) {p : Parser R α} (hp : p.Forward)
    (hnull : ¬ p.Nullable g.nullable) {c c' : Cursor} {v : α}
    (h : g.endingAt fuel p c = .returned (.success c' v)) : c'.rest.length < c.rest.length := by
  have hall : p.Forward → ¬ p.Nullable g.nullable → ∀ c c' v,
      g.endingAt fuel p c = .returned (.success c' v) → c'.rest.length < c.rest.length := by
    refine g.fuel_induction (P := fun n {α} (p : Parser R α) => p.Forward →
      ¬ p.Nullable g.nullable → ∀ c c' v, g.endingAt n p c = .returned (.success c' v) →
        c'.rest.length < c.rest.length) ?_ ?_ ?_ fuel p
    -- without fuel no rule matches at all
    · intro α r _ _ c c' v h
      cases h
    · intro n α r ih _ hr
      exact ih (hg r) fun hbody => hr (mem_nullable.2 hbody)
    · intro n hrules α p hp hnull
      exact shorter_over_rules hg (fun r hr => hrules r trivial hr) p hp hnull
  exact hall hp hnull c c' v h

end Grammar

end ParserCombinators
