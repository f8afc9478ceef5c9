import ParserCombinators.Proofs.Equations

/-!
# Progress — parsers only move forward

A match ends at a cursor that is reached from its start by reading: over the same text, and not
before the start. This holds of every form of parser, provided that the parsers which users write as
functions behave in the same way. The engine itself never breaks its promises: every panic comes
from a user's function.

- `Cursor.Spans`, `Cursor.Reaches`: reading leads from one cursor to another, over a text
- `Grammar.fuel_induction`: what holds of all parsers at all fuels
- `Parser.EveryClosure`: what holds of the parsers that users wrote as functions
- `Grammar.ForwardAt`, `Grammar.forwardAt_of_closures`: if those only move forward, so do all
  parsers
- `Parser.Forward`, `Grammar.Forward`: users' functions that only move forward
- `Grammar.reaches_of_success`: a match ends at a cursor that is reached from its start
- `Parser.MayRaise`, `Grammar.faultsIn_endingAt`: a panic is a fault of some function in the parser
- `Ending.Blameless`, `Grammar.blameless_endingAt`: no defect of the engine ever shows
-/

namespace ParserCombinators

namespace Cursor

/-- The text that was read on the way from the first cursor to the second. -/
def Spans (c : Cursor) (taken : List Char) (c' : Cursor) : Prop :=
  c.rest = taken ++ c'.rest ∧ c'.before = taken.reverse ++ c.before

theorem Spans.refl (c : Cursor) : c.Spans [] c :=
  ⟨rfl, rfl⟩

/-- Texts that are read one behind the other. -/
theorem Spans.trans {a b c : Cursor} {w w' : List Char} (hab : a.Spans w b) (hbc : b.Spans w' c) :
    a.Spans (w ++ w') c := by
  rcases hab with ⟨hrest, hbefore⟩
  rcases hbc with ⟨hrest', hbefore'⟩
  constructor
  · rw [hrest, hrest', List.append_assoc]
  · rw [hbefore', hbefore, List.reverse_append, List.append_assoc]

/-- The text that was read determines the cursor behind it. -/
theorem Spans.unique {a b b' : Cursor} {w : List Char} (h : a.Spans w b) (h' : a.Spans w b') :
    b' = b := by
  rcases b with ⟨before, rest⟩
  rcases b' with ⟨before', rest'⟩
  have hrest : rest' = rest := List.append_cancel_left (h'.1.symm.trans h.1)
  have hbefore : before' = before := h'.2.trans h.2.symm
  rw [hrest, hbefore]

theorem Spans.eq_of_append {before w rest : List Char} {c : Cursor}
    (h : Spans ⟨before, w ++ rest⟩ w c) : c = ⟨w.reverse ++ before, rest⟩ :=
  Spans.unique ⟨rfl, rfl⟩ h

theorem spans_nil {a b : Cursor} : a.Spans [] b ↔ b = a := by
  constructor
  · exact fun h => (Spans.refl a).unique h
  · rintro rfl
    exact .refl b

/-- A text in two parts is read by way of the cursor between them. -/
theorem spans_append {a c : Cursor} {w w' : List Char} :
    a.Spans (w ++ w') c ↔ ∃ b, a.Spans w b ∧ b.Spans w' c := by
  constructor
  · rintro ⟨hrest, hbefore⟩
    refine ⟨⟨w.reverse ++ a.before, w' ++ c.rest⟩, ⟨?_, rfl⟩, rfl, ?_⟩
    · rw [hrest, List.append_assoc]
    · rw [hbefore, List.reverse_append, List.append_assoc]
  · rintro ⟨b, hab, hbc⟩
    exact hab.trans hbc

theorem spans_cons {a c : Cursor} {ch : Char} {w : List Char} :
    a.Spans (ch :: w) c ↔ ∃ b, a.Spans [ch] b ∧ b.Spans w c :=
  spans_append (w := [ch])

/-- What can be read is what the unread text begins with. -/
theorem exists_spans_iff {a : Cursor} {w : List Char} : (∃ b, a.Spans w b) ↔ w <+: a.rest := by
  constructor
  · rintro ⟨b, hrest, -⟩
    exact ⟨b.rest, hrest.symm⟩
  · rintro ⟨rest, hrest⟩
    exact ⟨⟨w.reverse ++ a.before, rest⟩, hrest.symm, rfl⟩

/-- Reading leads from the first cursor to the second. -/
def Reaches (c c' : Cursor) : Prop :=
  ∃ taken, c.Spans taken c'

namespace Reaches

variable {a b c : Cursor}

protected theorem refl (c : Cursor) : c.Reaches c :=
  ⟨[], .refl c⟩

/-- `Reaches` is transitive; with `refl`, this is what `loopAt_rel` and `seqOf_rel` ask of a
relation. -/
protected theorem trans (hab : a.Reaches b) (hbc : b.Reaches c) : a.Reaches c := by
  rcases hab with ⟨w, hw⟩
  rcases hbc with ⟨w', hw'⟩
  exact ⟨w ++ w', hw.trans hw'⟩

/-- Past the characters of `taken`. -/
theorem append (before taken rest : List Char) :
    Reaches ⟨before, taken ++ rest⟩ ⟨taken.reverse ++ before, rest⟩ :=
  ⟨taken, rfl, rfl⟩

theorem cons (before : List Char) (ch : Char) (rest : List Char) :
    Reaches ⟨before, ch :: rest⟩ ⟨ch :: before, rest⟩ :=
  append before [ch] rest

/-- Reading leaves no more text than there was. -/
theorem length_le (h : a.Reaches b) : b.rest.length ≤ a.rest.length := by
  rcases h with ⟨w, hrest, -⟩
  rw [hrest, List.length_append]
  omega

/-- A cursor that is reached without making the text shorter is where the reading began. -/
theorem eq_of_length (h : a.Reaches b) (hlen : a.rest.length ≤ b.rest.length) : b = a := by
  rcases a with ⟨before, rest⟩
  rcases b with ⟨before', rest'⟩
  rcases h with ⟨w, hrest, hbefore⟩
  dsimp only at hrest hbefore hlen
  -- nothing was read in between, as there was no room for it
  have hnil : w = [] := by
    have : w.length + rest'.length ≤ rest'.length := by
      rw [← List.length_append, ← hrest]
      exact hlen
    exact List.eq_nil_of_length_eq_zero (by omega)
  subst hnil
  simp only [List.nil_append, List.reverse_nil] at hrest hbefore
  rw [hrest, hbefore]

/-- Less text left means a greater offset, since a character has at least one byte. -/
theorem offset_lt (h : a.Reaches b) (hlen : b.rest.length < a.rest.length) :
    a.offset < b.offset := by
  rcases h with ⟨w, hrest, hbefore⟩
  cases w with
  | nil =>
    rw [hrest, List.nil_append] at hlen
    omega
  | cons ch w =>
    -- a character takes at least one byte
    have hpos : 0 < ch.utf8Size := Char.utf8Size_pos ch
    simp only [offset, hbefore, List.reverse_cons, Text.byteSize_append, Text.byteSize_cons,
      Text.byteSize_nil]
    omega

end Reaches

end Cursor

variable {R : Type → Type} {α β : Type}

/-! ## Induction on fuel -/

/-- What holds of every parser at a fuel at which it holds of the rules, and passes from the bodies
to the rules at one unit of fuel more, holds of every parser at every fuel. -/
theorem Grammar.fuel_induction (g : Grammar R) {P : Nat → {α : Type} → Parser R α → Prop}
    (zero : ∀ {α : Type} (r : R α), P 0 (.rule r))
    (succ : ∀ (n : Nat) {α : Type} (r : R α), P n (g.body r) → P (n + 1) (.rule r))
    (parsers : ∀ n, (∀ {α : Type} (r : R α), P n (.rule r)) → ∀ {α : Type} (p : Parser R α), P n p)
    (n : Nat) (p : Parser R α) : P n p := by
  -- fuel is spent on calls of rules only, so the rules go first at each fuel
  have hrule : ∀ n {α : Type} (r : R α), P n (.rule r) := by
    intro n
    induction n with
    | zero => exact zero
    | succ n ih => exact fun r => succ n r (parsers n ih _)
  exact parsers n (hrule n) p

/-! ## Parsers that users wrote -/

/-- The statement `P` holds of every parser that a user wrote as a function, wherever it stands in
the parser. What such a parser is built from in turn is left to it. -/
def Parser.EveryClosure (P : {α : Type} → Parser R α → Prop) : {α : Type} → Parser R α → Prop
  | _, .ok | _, .endOfInput | _, .like _ | _, .char _ | _, .oneOf _ | _, .str _ => True
  | _, .succeed _ | _, .succeedWith _ | _, .rule _ => True
  | _, .seqOf n items => ∀ i : Fin n, (items i).EveryClosure P
  | _, .or left right => left.EveryClosure P ∧ right.EveryClosure P
  | _, .star p | _, .plus p | _, .option p | _, .map p _ => p.EveryClosure P
  | _, .named _ p | _, .boxed p | _, .deferred _ p => p.EveryClosure P
  | _, .chain p _ next => p.EveryClosure P ∧ ∀ v, (next v).EveryClosure P
  | _, .closure f => P (.closure f)
  | _, .inspect p choose next => P (.inspect p choose next)

/-- `EveryClosure` is monotone. By structural induction. -/
theorem Parser.EveryClosure.mono {P Q : {α : Type} → Parser R α → Prop}
    (hPQ : ∀ {α : Type} (p : Parser R α), P p → Q p) {p : Parser R α} (h : p.EveryClosure P) :
    p.EveryClosure Q := by
  induction p with
  | ok | endOfInput | like | char | oneOf | str | succeed | succeedWith | rule => trivial
  | seqOf n items ih => exact fun i => ih i (h i)
  | or left right ihl ihr => exact ⟨ihl h.1, ihr h.2⟩
  | star p ih | plus p ih | option p ih | map p f ih => exact ih h
  | named label p ih | boxed p ih | deferred factory p ih => exact ih h
  | chain p effect next ihp ihn => exact ⟨ihp h.1, fun v => ihn v (h.2 v)⟩
  | closure f => exact hPQ _ h
  | inspect p choose next => exact hPQ _ h

/-! ## Matches move forward -/

/-- The functions that users wrote as parsers move forward, everywhere in the parser; a parser
without such functions is forward by its form alone. A function that inspects an outcome has to move
forward as long as the outcome itself lies ahead. -/
def Parser.Forward : {α : Type} → Parser R α → Prop
  | _, .ok | _, .endOfInput | _, .like _ | _, .char _ | _, .oneOf _ | _, .str _ => True
  | _, .succeed _ | _, .succeedWith _ | _, .rule _ => True
  | _, .seqOf n items => ∀ i : Fin n, (items i).Forward
  | _, .or left right => left.Forward ∧ right.Forward
  | _, .star p | _, .plus p | _, .option p | _, .map p _ => p.Forward
  | _, .named _ p | _, .boxed p | _, .deferred _ p => p.Forward
  | _, .chain p _ next => p.Forward ∧ ∀ v, (next v).Forward
  | _, .closure f => ∀ c c' v, (f c).result = .ok (.success c' v) → c.Reaches c'
  | _, .inspect p choose next =>
    p.Forward ∧ (∀ v, (next v).Forward) ∧
      ∀ c outcome, (∀ c' v, outcome = .success c' v → c.Reaches c') →
        ∀ chosen, (choose c outcome).result = .ok chosen → c.Reaches chosen.1

def Grammar.Forward (g : Grammar R) : Prop :=
  ∀ {α : Type} (r : R α), (g.body r).Forward

/-- A call comes back if the user's function has a result. -/
theorem Ending.ofCallback_eq_returned {x : Callback α} {a : α} :
    Ending.ofCallback x = .returned a ↔ x.result = .ok a := by
  rcases x with ⟨events, fault | b⟩
  · simp [Ending.ofCallback]
  · simp [Ending.ofCallback]

namespace Grammar

variable {g : Grammar R} {fuel : Nat}

/-- Run lemma for loops: a preorder that holds along each round holds along the loop. By induction
on the rounds. -/
theorem loopAt_rel {rel : Cursor → Cursor → Prop} (hrefl : ∀ c, rel c c)
    (htrans : ∀ {a b c}, rel a b → rel b c → rel a c) {p : Parser R α}
    (hp : ∀ c c' v, g.endingAt fuel p c = .returned (.success c' v) → rel c c') {rounds : Nat}
    {c last : Cursor} {vs : List α} (h : g.loopAt fuel p rounds c = .returned (last, vs)) :
    rel c last := by
  -- the first round, and then the loop from where it stopped
  induction rounds generalizing c vs with
  | zero => simp at h
  | succ rounds ih =>
    rw [loopAt_succ] at h
    rcases Ending.bind_eq_returned.1 h with ⟨_ | ⟨next, v⟩, hround, hrest⟩
    · simp only [Ending.returned.injEq, Prod.mk.injEq] at hrest
      rw [← hrest.1]
      exact hrefl c
    · rcases Ending.bind_eq_returned.1 hrest with ⟨⟨last', vs'⟩, hloop, heq⟩
      simp only [Ending.returned.injEq, Prod.mk.injEq] at heq
      rw [heq.1] at hloop
      exact htrans (hp c next v hround) (ih hloop)

/-- Inversion: a match of a sequence is one of its first part and one of the others. -/
theorem seqOf_succ_eq_success {n : Nat} {items : Fin (n + 1) → Parser R α} {c c' : Cursor}
    {vs : List α} (h : g.endingAt fuel (.seqOf (n + 1) items) c = .returned (.success c' vs)) :
    ∃ next v vs', g.endingAt fuel (items 0) c = .returned (.success next v) ∧
      g.endingAt fuel (.seqOf n fun i => items i.succ) next = .returned (.success c' vs') := by
  rw [endingAt_seqOf_succ] at h
  rcases Ending.andThen_eq_success.1 h with ⟨next, v, hfirst, hrest⟩
  rcases Ending.andThen_eq_success.1 hrest with ⟨last, vs', hlater, heq⟩
  simp only [Ending.returned.injEq, Outcome.success.injEq] at heq
  rw [heq.1] at hlater
  exact ⟨next, v, vs', hfirst, hlater⟩

/-- Run lemma for sequences: a preorder that holds along each part holds along the sequence. -/
theorem seqOf_rel {rel : Cursor → Cursor → Prop} (hrefl : ∀ c, rel c c)
    (htrans : ∀ {a b c}, rel a b → rel b c → rel a c) {n : Nat} {items : Fin n → Parser R α}
    (hitems : ∀ i c c' v, g.endingAt fuel (items i) c = .returned (.success c' v) → rel c c')
    {c last : Cursor} {vs : List α}
    (h : g.endingAt fuel (.seqOf n items) c = .returned (.success last vs)) : rel c last := by
  induction n generalizing c vs with
  | zero =>
    rw [endingAt_seqOf_zero] at h
    cases h
    exact hrefl _
  | succ n ih =>
    rcases seqOf_succ_eq_success h with ⟨next, v, vs', hfirst, hlater⟩
    exact htrans (hitems 0 c next v hfirst) (ih (fun i => hitems i.succ) hlater)

/-- Inversion: a match of `plus p` is a first round and a loop. -/
theorem plus_eq_success {p : Parser R α} {c c' : Cursor} {vs : List α}
    (h : g.endingAt fuel (.plus p) c = .returned (.success c' vs)) :
    ∃ next v vs', g.endingAt fuel p c = .returned (.success next v) ∧
      g.loopAt fuel p fuel next = .returned (c', vs') := by
  rw [endingAt_plus] at h
  rcases Ending.andThen_eq_success.1 h with ⟨next, v, hfirst, hrest⟩
  rcases Ending.bind_eq_returned.1 hrest with ⟨⟨last, vs'⟩, hloop, heq⟩
  simp only [Ending.returned.injEq, Outcome.success.injEq] at heq
  rw [heq.1] at hloop
  exact ⟨next, v, vs', hfirst, hloop⟩

/-- Inversion: a match of `star p` is a loop. -/
theorem star_eq_success {p : Parser R α} {c c' : Cursor} {vs : List α}
    (h : g.endingAt fuel (.star p) c = .returned (.success c' vs)) :
    g.loopAt fuel p fuel c = .returned (c', vs) := by
  rw [endingAt_star] at h
  rcases Ending.bind_eq_returned.1 h with ⟨⟨last, vs'⟩, hloop, heq⟩
  simp only [Ending.returned.injEq, Outcome.success.injEq] at heq
  rw [hloop, heq.1, heq.2]

/-- Inversion: a match of `like` moves over the character that it gives as its value. -/
theorem like_eq_success {accepts : Char → Callback Bool} {c c' : Cursor} {ch : Char}
    (h : g.endingAt fuel (.like accepts) c = .returned (.success c' ch)) :
    ∃ before rest, c = ⟨before, ch :: rest⟩ ∧ c' = ⟨ch :: before, rest⟩ := by
  rcases c with ⟨before, _ | ⟨x, rest⟩⟩
  · simp at h
  · rw [endingAt_like_cons] at h
    rcases Ending.bind_eq_returned.1 h with ⟨_ | _, -, heq⟩
    · simp at heq
    · simp only [if_true, Ending.returned.injEq, Outcome.success.injEq] at heq
      exact ⟨before, rest, by rw [heq.2], by rw [← heq.1, heq.2]⟩

/-- The matches of a parser move forward, at a given fuel. -/
def ForwardAt (g : Grammar R) (fuel : Nat) {α : Type} (p : Parser R α) : Prop :=
  ∀ c c' v, g.endingAt fuel p c = .returned (.success c' v) → c.Reaches c'

/-- Over rules whose matches move forward, so do those of a parser, if its closures do. By
structural induction. -/
theorem forwardAt_over_rules (hrules : ∀ {α : Type} (r : R α), g.ForwardAt fuel (.rule r))
    (p : Parser R α) (hp : p.EveryClosure (g.ForwardAt fuel)) : g.ForwardAt fuel p := by
  intro c c' v h
  induction p generalizing c c' with
  | ok =>
    cases h
    exact .refl c
  | succeed =>
    cases h
    exact .refl c
  | succeedWith make =>
    rw [endingAt_succeedWith] at h
    rcases Ending.bind_eq_returned.1 h with ⟨v, -, heq⟩
    cases heq
    exact .refl c
  | endOfInput =>
    rcases c with ⟨before, _ | ⟨ch, rest⟩⟩
    · cases h
      exact .refl _
    · cases h
  | like accepts =>
    rcases like_eq_success h with ⟨before, rest, rfl, rfl⟩
    exact .cons before v rest
  | char ch =>
    rw [endingAt_char] at h
    rcases like_eq_success h with ⟨before, rest, rfl, rfl⟩
    exact .cons before v rest
  | oneOf set =>
    rw [endingAt_oneOf] at h
    rcases like_eq_success h with ⟨before, rest, rfl, rfl⟩
    exact .cons before v rest
  | str text =>
    rcases c with ⟨before, rest⟩
    rw [endingAt_str] at h
    by_cases hstarts : text.toList <+: rest
    · rcases hstarts with ⟨tail, rfl⟩
      simp only [List.prefix_append, if_true, List.drop_left, Ending.returned.injEq,
        Outcome.success.injEq] at h
      rw [← h.1]
      exact .append before text.toList tail
    · simp [hstarts] at h
  | seqOf n items ih =>
    exact seqOf_rel .refl .trans (fun i c c' w hw => ih i (hp i) c c' w hw) h
  | or left right ihl ihr =>
    rw [endingAt_or] at h
    rcases Ending.orElse_eq_success.1 h with hleft | ⟨-, hright⟩
    · exact ihl hp.1 c c' v hleft
    · exact ihr hp.2 c c' v hright
  | star p ih =>
    exact loopAt_rel .refl .trans (ih hp) (star_eq_success h)
  | plus p ih =>
    rcases plus_eq_success h with ⟨next, w, ws, hfirst, hloop⟩
    exact (ih hp c next w hfirst).trans (loopAt_rel .refl .trans (ih hp) hloop)
  | option p ih =>
    rw [endingAt_option] at h
    rcases Ending.orElse_eq_success.1 h with hsome | ⟨-, hnone⟩
    · rcases Ending.andThen_eq_success.1 hsome with ⟨after, w, hmatch, heq⟩
      cases heq
      exact ih hp c _ w hmatch
    · cases hnone
      exact .refl c
  | chain p effect next ihp ihn =>
    rw [endingAt_chain] at h
    rcases Ending.andThen_eq_success.1 h with ⟨after, w, hfirst, hrest⟩
    rcases Ending.bind_eq_returned.1 hrest with ⟨_, -, hnext⟩
    exact (ihp hp.1 c after w hfirst).trans (ihn w (hp.2 w) after c' v hnext)
  | map p f ih =>
    rw [endingAt_map] at h
    rcases Ending.andThen_eq_success.1 h with ⟨after, w, hmatch, hrest⟩
    rcases Ending.bind_eq_returned.1 hrest with ⟨w', -, heq⟩
    cases heq
    exact ih hp c _ w hmatch
  | named label p ih =>
    rw [endingAt_named] at h
    exact ih hp c c' v h
  | boxed p ih => exact ih hp c c' v h
  | deferred factory p ih =>
    rw [endingAt_deferred] at h
    rcases Ending.bind_eq_returned.1 h with ⟨_, -, hmatch⟩
    exact ih hp c c' v hmatch
  | rule r => exact hrules r c c' v h
  | closure f => exact hp c c' v h
  | inspect p choose next => exact hp c c' v h

/-- If the closures move forward at every fuel, so do all parsers. By induction on fuel. -/
theorem forwardAt_of_closures
    (hg : ∀ {α : Type} (r : R α), (g.body r).EveryClosure fun q => ∀ n, g.ForwardAt n q)
    {p : Parser R α} (hp : p.EveryClosure fun q => ∀ n, g.ForwardAt n q) :
    g.ForwardAt fuel p := by
  refine g.fuel_induction (P := fun n {α} (p : Parser R α) =>
    p.EveryClosure (fun q => ∀ n, g.ForwardAt n q) → g.ForwardAt n p) ?_ ?_ ?_ fuel p hp
  -- without fuel no rule matches
  · intro α r _ c c' v h
    cases h
  · intro n α r ih _
    exact ih (hg r)
  · intro n hrules α p hp
    exact forwardAt_over_rules (fun r => hrules r trivial) p (hp.mono fun q hq => hq n)

/-- `Forward` speaks of the functions in closures; they make closures that move forward. -/
theorem everyClosure_of_forward (hrules : ∀ {α : Type} (r : R α), g.ForwardAt fuel (.rule r))
    {p : Parser R α} (hp : p.Forward) : p.EveryClosure (g.ForwardAt fuel) := by
  induction p with
  | ok | endOfInput | like | char | oneOf | str | succeed | succeedWith | rule => trivial
  | seqOf n items ih => exact fun i => ih i (hp i)
  | or left right ihl ihr => exact ⟨ihl hp.1, ihr hp.2⟩
  | star p ih | plus p ih | option p ih | map p f ih => exact ih hp
  | named label p ih | boxed p ih | deferred factory p ih => exact ih hp
  | chain p effect next ihp ihn => exact ⟨ihp hp.1, fun v => ihn v (hp.2 v)⟩
  | closure f =>
    intro c c' v h
    rw [endingAt_closure] at h
    exact hp c c' v (Ending.ofCallback_eq_returned.1 h)
  | inspect p choose next ihp ihn =>
    rcases hp with ⟨hp, hnext, hchoose⟩
    intro c c' v h
    rw [endingAt_inspect] at h
    rcases Ending.bind_eq_returned.1 h with ⟨outcome, hinner, hrest⟩
    rcases Ending.bind_eq_returned.1 hrest with ⟨chosen, hchosen, hgo⟩
    -- what is chosen may be before the end of the match, but not before its start
    have hahead : ∀ c' v, outcome = .success c' v → c.Reaches c' := by
      rintro c' v rfl
      exact forwardAt_over_rules hrules p (ihp hp) c c' v hinner
    have hresume : c.Reaches chosen.1 :=
      hchoose c outcome hahead chosen (Ending.ofCallback_eq_returned.1 hchosen)
    have hlater : chosen.1.Reaches c' :=
      forwardAt_over_rules hrules _ (ihn chosen.2 (hnext chosen.2)) chosen.1 c' v hgo
    exact hresume.trans hlater

/-- A match ends at a cursor that is reached from its start. -/
theorem reaches_of_success (hg : g.Forward) {p : Parser R α} (hp : p.Forward) {c c' : Cursor}
    {v : α} (h : g.endingAt fuel p c = .returned (.success c' v)) : c.Reaches c' := by
  have hall : p.Forward → g.ForwardAt fuel p := by
    refine g.fuel_induction (P := fun n {α} (p : Parser R α) => p.Forward → g.ForwardAt n p)
      ?_ ?_ ?_ fuel p
    · intro α r _ c c' v h
      cases h
    · intro n α r ih _
      exact ih (hg r)
    · intro n hrules α p hp
      have hforward : ∀ {α : Type} (r : R α), g.ForwardAt n (.rule r) := fun r => hrules r trivial
      exact forwardAt_over_rules hforward p (everyClosure_of_forward hforward hp)
  exact hall hp c c' v h

end Grammar

/-! ## Panics come from users' functions -/

/-- A function in the parser, called on some argument, raises the fault. -/
def Parser.MayRaise (fault : Fault) : {α : Type} → Parser R α → Prop
  | _, .ok | _, .endOfInput | _, .char _ | _, .oneOf _ | _, .str _ => False
  | _, .succeed _ | _, .rule _ => False
  | _, .like accepts => ∃ ch, (accepts ch).result = .error fault
  | _, .succeedWith make => make.result = .error fault
  | _, .seqOf n items => ∃ i : Fin n, (items i).MayRaise fault
  | _, .or left right => left.MayRaise fault ∨ right.MayRaise fault
  | _, .star p | _, .plus p | _, .option p => p.MayRaise fault
  | _, .named _ p | _, .boxed p => p.MayRaise fault
  | _, .deferred factory p => factory.result = .error fault ∨ p.MayRaise fault
  | _, .chain p effect next =>
    p.MayRaise fault ∨ (∃ v, (effect v).result = .error fault) ∨ ∃ v, (next v).MayRaise fault
  | _, .map p f => p.MayRaise fault ∨ ∃ v, (f v).result = .error fault
  | _, .closure f => ∃ c, (f c).result = .error fault
  | _, .inspect p choose next =>
    p.MayRaise fault ∨ (∃ c outcome, (choose c outcome).result = .error fault) ∨
      ∃ v, (next v).MayRaise fault

namespace Parser

variable {fault : Fault}

@[simp] theorem not_mayRaise_satisfy (accepts : Char → Bool) :
    ¬ (satisfy accepts : Parser R Char).MayRaise fault := by
  rintro ⟨ch, h⟩
  cases h

@[simp] theorem mayRaise_bind {p : Parser R α} {next : α → Parser R β} :
    (p >>= next).MayRaise fault ↔ p.MayRaise fault ∨ ∃ v, (next v).MayRaise fault := by
  constructor
  · rintro (hp | ⟨v, h⟩ | hnext)
    · exact .inl hp
    · cases h
    · exact .inr hnext
  · rintro (hp | hnext)
    · exact .inl hp
    · exact .inr (.inr hnext)

@[simp] theorem mayRaise_mapValue {f : α → β} {p : Parser R α} :
    (f <$> p).MayRaise fault ↔ p.MayRaise fault := by
  constructor
  · rintro (hp | ⟨v, h⟩)
    · exact hp
    · cases h
  · exact .inl

@[simp] theorem mayRaise_seq {ps : List (Parser R α)} :
    (seq ps).MayRaise fault ↔ ∃ p ∈ ps, p.MayRaise fault := by
  show (∃ i : Fin ps.length, (ps.get i).MayRaise fault) ↔ _
  constructor
  · rintro ⟨i, h⟩
    exact ⟨_, ps.get_mem i, h⟩
  · rintro ⟨p, hp, h⟩
    rcases List.mem_iff_get.1 hp with ⟨i, rfl⟩
    exact ⟨i, h⟩

end Parser

def Grammar.MayRaise (g : Grammar R) (fault : Fault) : Prop :=
  ∃ (α : Type) (r : R α), (g.body r).MayRaise fault

namespace Ending

/-- The engine is not to blame: a panic, if there is one, came from a user's function. -/
def Blameless (e : Ending α) : Prop :=
  ∀ d, e ≠ .panicked (.defect d)

/-- A panic, if there is one, is a fault of a user's function and belongs to `F`. -/
def FaultsIn (F : Fault → Prop) (e : Ending α) : Prop :=
  ∀ panic, e = .panicked panic → ∃ fault, panic = .fault fault ∧ F fault

namespace FaultsIn

variable {F : Fault → Prop}

theorem returned (a : α) : (Ending.returned a).FaultsIn F := by
  intro panic h
  cases h

theorem exhausted : (Ending.exhausted : Ending α).FaultsIn F := by
  intro panic h
  cases h

/-- A call panics with the fault of the user's function. -/
theorem ofCallback {x : Callback α} (hx : ∀ fault, x.result = .error fault → F fault) :
    (Ending.ofCallback x).FaultsIn F := by
  rcases x with ⟨events, fault | a⟩
  · intro panic h
    cases h
    exact ⟨fault, rfl, hx fault rfl⟩
  · exact .returned a

/-- `FaultsIn F` is closed under sequels. -/
protected theorem bind {e : Ending α} {f : α → Ending β} (he : e.FaultsIn F)
    (hf : ∀ a, (f a).FaultsIn F) : (e >>= f).FaultsIn F := by
  intro panic h
  rcases bind_eq_panicked.1 h with hfirst | ⟨a, -, hlater⟩
  · exact he panic hfirst
  · exact hf a panic hlater

/-- `FaultsIn.bind` for sequels of a match. -/
theorem andThen {e : Ending (Outcome α)} {f : Cursor → α → Ending (Outcome β)}
    (he : e.FaultsIn F) (hf : ∀ c v, (f c v).FaultsIn F) : (e.andThen f).FaultsIn F := by
  refine he.bind fun outcome => ?_
  cases outcome with
  | failure => exact .returned _
  | success c v => exact hf c v

/-- `FaultsIn.bind` for second attempts after a failure. -/
theorem orElse {e e' : Ending (Outcome α)} (he : e.FaultsIn F) (he' : e'.FaultsIn F) :
    (e.orElse e').FaultsIn F := by
  refine he.bind fun outcome => ?_
  cases outcome with
  | failure => exact he'
  | success c v => exact .returned _

end FaultsIn

end Ending

namespace Grammar

open Ending (FaultsIn)

variable {g : Grammar R} {fuel : Nat} {F : Fault → Prop}

/-- Run lemma: a loop panics as one of its rounds does. By induction on the rounds. -/
theorem faultsIn_loopAt {p : Parser R α} (hp : ∀ c, (g.endingAt fuel p c).FaultsIn F)
    (rounds : Nat) (c : Cursor) : (g.loopAt fuel p rounds c).FaultsIn F := by
  induction rounds generalizing c with
  | zero => exact .exhausted
  | succ rounds ih =>
    rw [loopAt_succ]
    refine (hp c).bind fun outcome => ?_
    cases outcome with
    | failure => exact .returned _
    | success next v => exact (ih next).bind fun _ => .returned _

/-- `like` panics as its predicate does, on the character under the cursor. -/
theorem faultsIn_like {accepts : Char → Callback Bool}
    (h : ∀ fault, (.like accepts : Parser R Char).MayRaise fault → F fault) (c : Cursor) :
    (g.endingAt fuel (.like accepts) c).FaultsIn F := by
  rcases c with ⟨before, _ | ⟨ch, rest⟩⟩
  · exact .returned _
  · rw [endingAt_like_cons]
    exact (FaultsIn.ofCallback fun fault hfault => h fault ⟨ch, hfault⟩).bind fun _ => .returned _

theorem faultsIn_satisfy (accepts : Char → Bool) (c : Cursor) :
    (g.endingAt fuel (.satisfy accepts) c).FaultsIn F := by
  refine faultsIn_like (fun fault hfault => ?_) c
  rcases hfault with ⟨ch, hch⟩
  cases hch

/-- Over rules whose panics are faults in `F`, so are those of a parser whose functions raise no
others. The engine's own checks, of the end of the text before a read and of an optional parser
after it ran, never fail. -/
theorem faultsIn_over_rules
    (hrules : ∀ {α : Type} (r : R α) (c : Cursor), (g.endingAt fuel (.rule r) c).FaultsIn F)
    (p : Parser R α) (hp : ∀ fault, p.MayRaise fault → F fault) (c : Cursor) :
    (g.endingAt fuel p c).FaultsIn F := by
  induction p generalizing c with
  | ok | succeed | endOfInput => exact .returned _
  | succeedWith make =>
    rw [endingAt_succeedWith]
    exact (FaultsIn.ofCallback hp).bind fun _ => .returned _
  | like accepts => exact faultsIn_like hp c
  | char ch =>
    rw [endingAt_char]
    exact faultsIn_satisfy _ c
  | oneOf set =>
    rw [endingAt_oneOf]
    exact faultsIn_satisfy _ c
  | str text =>
    rcases c with ⟨before, rest⟩
    rw [endingAt_str]
    exact .returned _
  | seqOf n items ih =>
    induction n generalizing c with
    | zero =>
      rw [endingAt_seqOf_zero]
      exact .returned _
    | succ n ihn =>
      have hitems : ∀ i fault, (items i).MayRaise fault → F fault :=
        fun i fault hfault => hp fault ⟨i, hfault⟩
      rw [endingAt_seqOf_succ]
      refine (ih 0 (hitems 0) c).andThen fun next _ => FaultsIn.andThen ?_ fun _ _ => .returned _
      refine ihn (fun i => items i.succ) (fun i => ih i.succ) ?_ next
      rintro fault ⟨i, hi⟩
      exact hitems i.succ fault hi
  | or left right ihl ihr =>
    rw [endingAt_or]
    exact (ihl (fun fault hfault => hp fault (.inl hfault)) c).orElse
      (ihr (fun fault hfault => hp fault (.inr hfault)) c)
  | star p ih =>
    rw [endingAt_star]
    exact (faultsIn_loopAt (ih hp) fuel c).bind fun _ => .returned _
  | plus p ih =>
    rw [endingAt_plus]
    exact (ih hp c).andThen fun next _ =>
      (faultsIn_loopAt (ih hp) fuel next).bind fun _ => .returned _
  | option p ih =>
    rw [endingAt_option]
    exact ((ih hp c).andThen fun _ _ => .returned _).orElse (.returned _)
  | chain p effect next ihp ihn =>
    have heffect : ∀ v fault, (effect v).result = .error fault → F fault :=
      fun v fault hfault => hp fault (.inr (.inl ⟨v, hfault⟩))
    rw [endingAt_chain]
    refine (ihp (fun fault hfault => hp fault (.inl hfault)) c).andThen fun after v => ?_
    refine (FaultsIn.ofCallback (heffect v)).bind fun _ => ?_
    exact ihn v (fun fault hfault => hp fault (.inr (.inr ⟨v, hfault⟩))) after
  | map p f ih =>
    rw [endingAt_map]
    refine (ih (fun fault hfault => hp fault (.inl hfault)) c).andThen fun _ v => ?_
    exact (FaultsIn.ofCallback fun fault hfault => hp fault (.inr ⟨v, hfault⟩)).bind
      fun _ => .returned _
  | named label p ih =>
    rw [endingAt_named]
    exact ih hp c
  | boxed p ih => exact ih hp c
  | deferred factory p ih =>
    rw [endingAt_deferred]
    refine .bind (.ofCallback fun fault hfault => hp fault (.inl hfault)) fun _ => ?_
    exact ih (fun fault hfault => hp fault (.inr hfault)) c
  | rule r => exact hrules r c
  | closure f =>
    rw [endingAt_closure]
    exact .ofCallback fun fault hfault => hp fault ⟨c, hfault⟩
  | inspect p choose next ihp ihn =>
    have hchoose : ∀ outcome fault, (choose c outcome).result = .error fault → F fault :=
      fun outcome fault hfault => hp fault (.inr (.inl ⟨c, outcome, hfault⟩))
    rw [endingAt_inspect]
    refine (ihp (fun fault hfault => hp fault (.inl hfault)) c).bind fun outcome => ?_
    refine (FaultsIn.ofCallback (hchoose outcome)).bind fun chosen => ?_
    exact ihn chosen.2 (fun fault hfault => hp fault (.inr (.inr ⟨chosen.2, hfault⟩))) chosen.1

/-- A panic is a fault that some function in the parser, or in a rule, raises. By induction on
fuel. -/
theorem faultsIn_endingAt (p : Parser R α) (c : Cursor) :
    (g.endingAt fuel p c).FaultsIn fun fault => p.MayRaise fault ∨ g.MayRaise fault := by
  have hall : ∀ F : Fault → Prop, (∀ fault, g.MayRaise fault → F fault) →
      (∀ fault, p.MayRaise fault → F fault) → ∀ c, (g.endingAt fuel p c).FaultsIn F := by
    intro F hg
    refine g.fuel_induction (P := fun n {α} (p : Parser R α) =>
      (∀ fault, p.MayRaise fault → F fault) → ∀ c, (g.endingAt n p c).FaultsIn F) ?_ ?_ ?_ fuel p
    · exact fun r _ c => .exhausted
    · exact fun n α r ih _ => ih fun fault hfault => hg fault ⟨α, r, hfault⟩
    · exact fun n hrules α p => faultsIn_over_rules (fun r => hrules r fun _ h => h.elim) p
  exact hall _ (fun _ => .inr) (fun _ => .inl) c

/-- No defect of the engine shows, at any fuel. -/
theorem blameless_endingAt (p : Parser R α) (c : Cursor) : (g.endingAt fuel p c).Blameless := by
  intro defect h
  rcases faultsIn_endingAt p c _ h with ⟨fault, heq, -⟩
  cases heq

end Grammar

end ParserCombinators
