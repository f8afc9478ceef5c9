import ParserCombinators.Grammars.Json
import ParserCombinators.Proofs.LongestRuns
import ParserCombinators.Proofs.Repetition

/-!
# Separated lists — as many items as there are

A list of items with a separator between each two of them goes on as long as a separator and an item
follow. The item behind a separator may be missing; then the list ends before the separator, which
is left unread. Each round reads at least the separator, so that a list comes to its end even if its
items read nothing.

- `Cursor.Parts`: a separator, and all blanks behind it
- `Grammar.ending_star_eq_nil`, `Grammar.ending_star_eq_cons`: the matches of a repetition
- `Grammar.Listed`: items with separators between them
- `Grammar.ListStops`: nothing with which a list could go on
- `Grammar.ending_separated_eq_success`: lists are what is listed, up to where it stops
- `Grammar.exists_ending_laterItems`: the items behind the first come to an end
- `Grammar.separated_list_is_maximal`: both together
-/

namespace ParserCombinators

variable {R : Type → Type} {α : Type}

/-! ## Separators -/

namespace Cursor

variable {sep : Char} {a b : Cursor}

/-- Between the two cursors there is the separator, and the longest run of blanks behind it. -/
def Parts (sep : Char) (b a : Cursor) : Prop :=
  ∃ middle spaces, b.Spans [sep] middle ∧ middle.Takes Text.blanks spaces a

/-- `Parts` in terms of `skip`: there is one place behind a separator. -/
theorem parts_iff :
    b.Parts sep a ↔ ∃ before rest, b = ⟨before, sep :: rest⟩ ∧
      a = skip Text.isBlank ⟨sep :: before, rest⟩ := by
  constructor
  · rintro ⟨middle, spaces, hsep, hblanks⟩
    rcases b with ⟨before, rest⟩
    have hrest : rest = sep :: middle.rest := hsep.1
    subst hrest
    have hplace :
        (⟨before, sep :: middle.rest⟩ : Cursor).Spans [sep] ⟨sep :: before, middle.rest⟩ :=
      ⟨rfl, rfl⟩
    rw [hplace.unique hsep] at hblanks
    exact ⟨before, middle.rest, rfl, ((takes_runs _ _).unique hblanks).2⟩
  · rintro ⟨before, rest, rfl, rfl⟩
    exact ⟨⟨sep :: before, rest⟩, _, ⟨rfl, rfl⟩, takes_runs _ _⟩

/-- A separator is read, so that less is left behind it. -/
theorem Parts.reaches (h : b.Parts sep a) : b.Reaches a ∧ a.rest.length < b.rest.length := by
  rcases h with ⟨middle, spaces, hsep, hblanks⟩
  refine ⟨⟨_, hsep.trans hblanks.spans⟩, ?_⟩
  rw [hsep.1, hblanks.spans.1]
  simp only [List.length_append, List.length_singleton]
  omega

/-- The text of a separator is a word. -/
theorem Parts.exists_spans (h : b.Parts sep a) : ∃ text ∈ Text.words {[sep]}, b.Spans text a := by
  rcases h with ⟨middle, spaces, hsep, hblanks⟩
  exact ⟨sep :: spaces, Text.mem_words_singleton.2 ⟨spaces, hblanks.mem, rfl⟩,
    hsep.trans hblanks.spans⟩

/-- A word of the separator that no blank follows is a separator with all its blanks. -/
theorem parts_of_spans {text : List Char} (htext : text ∈ Text.words {[sep]})
    (hspans : b.Spans text a) (hclear : Text.Clear Text.isBlank a.rest) : b.Parts sep a := by
  rcases Text.mem_words_singleton.1 htext with ⟨spaces, hspaces, rfl⟩
  rcases spans_cons.1 hspans with ⟨middle, hsep, hlast⟩
  have htake : middle.rest.takeWhile Text.isBlank = spaces := by
    rw [hlast.1, Text.takeWhile_append hspaces hclear]
  have htakes := middle.takes_runs Text.isBlank
  rw [htake, skip_eq_of_spans hlast hspaces hclear] at htakes
  exact ⟨middle, spaces, hsep, htakes⟩

end Cursor

namespace Grammar

variable (g : Grammar R)

/-- `token (char sep)` matches where there is a separator. -/
theorem ending_token_char_of_parts {sep : Char} {a b : Cursor} (h : b.Parts sep a) :
    g.ending (Lexeme.token (.char sep)) b = .returned (.success a sep) := by
  rcases Cursor.parts_iff.1 h with ⟨before, rest, rfl, rfl⟩
  rw [ending_token, ending_char_self, Ending.success_andThen]

/-- Everywhere else it fails. -/
theorem ending_token_char_of_not_parts {sep : Char} {b : Cursor} (h : ¬ ∃ a, b.Parts sep a) :
    g.ending (Lexeme.token (.char sep)) b = .returned .failure := by
  apply ending_token_char_of_clear
  intro ch rest hrest
  rw [beq_eq_false_iff_ne]
  rintro rfl
  rcases b with ⟨before, _⟩
  rcases hrest with rfl
  exact h ⟨_, Cursor.parts_iff.2 ⟨before, rest, rfl, rfl⟩⟩

/-! ## Matches of a repetition -/

/-- Inversion: `star p` has no values where its first round fails. -/
theorem ending_star_eq_nil {p : Parser R α} {c last : Cursor} :
    g.ending p.star c = .returned (.success last []) ↔
      last = c ∧ g.ending p c = .returned .failure := by
  rw [ending_star, Ending.orElse_eq_success]
  constructor
  · rintro (hmore | ⟨hfirst, hnone⟩)
    · -- a round that matches has a value
      rcases Ending.andThen_eq_success.1 hmore with ⟨next, v, -, hrest⟩
      rcases Ending.andThen_eq_success.1 hrest with ⟨last', vs, -, heq⟩
      cases heq
    · cases hnone
      refine ⟨rfl, ?_⟩
      rcases hp : g.ending p c with (_ | ⟨next, v⟩) | panic | _
      · rfl
      · rw [hp, Ending.success_andThen] at hfirst
        rcases hlater : g.ending p.star next with (_ | ⟨last, vs⟩) | panic | _
        · exact absurd hlater (ending_star_ne_failure next)
        all_goals simp [hlater] at hfirst
      · simp [hp] at hfirst
      · simp [hp] at hfirst
  · rintro ⟨rfl, hp⟩
    exact .inr ⟨by rw [hp, Ending.failure_andThen], rfl⟩

/-- Inversion: the first value of `star p` is that of a round, and the others are those of `star p`
behind it. -/
theorem ending_star_eq_cons {p : Parser R α} {c last : Cursor} {v : α} {vs : List α} :
    g.ending p.star c = .returned (.success last (v :: vs)) ↔
      ∃ next, g.ending p c = .returned (.success next v) ∧
        g.ending p.star next = .returned (.success last vs) := by
  rw [ending_star, Ending.orElse_eq_success]
  constructor
  · rintro (hmore | ⟨-, hnone⟩)
    · rcases Ending.andThen_eq_success.1 hmore with ⟨next, w, hfirst, hrest⟩
      rcases Ending.andThen_eq_success.1 hrest with ⟨last', ws, hlater, heq⟩
      cases heq
      exact ⟨next, hfirst, hlater⟩
    · cases hnone
  · rintro ⟨next, hfirst, hlater⟩
    refine .inl ?_
    rw [hfirst, Ending.success_andThen, hlater, Ending.success_andThen]

/-- Repetitions of parsers that end in the same way match in the same way. By induction on the
values. -/
theorem ending_star_congr {p q : Parser R α} (h : ∀ c, g.ending p c = g.ending q c)
    {c last : Cursor} {vs : List α} :
    g.ending p.star c = .returned (.success last vs) ↔
      g.ending q.star c = .returned (.success last vs) := by
  induction vs generalizing c with
  | nil => rw [ending_star_eq_nil, ending_star_eq_nil, h]
  | cons v vs ih => simp only [ending_star_eq_cons, h, ih]

/-! ## Lists -/

section

variable (item : Parser R α) (sep : Char)

def laterItem : Parser R α := do
  let _ ← Lexeme.token (.char sep)
  item

/-- Items from the first cursor to the last, with a separator and all blanks behind it between each
two of them: the values of the items, in order. -/
inductive Listed : Cursor → List α → Cursor → Prop where
  | one {a b : Cursor} {v : α} (hitem : g.ending item a = .returned (.success b v)) :
      Listed a [v] b
  | more {a b next last : Cursor} {v : α} {vs : List α}
      (hitem : g.ending item a = .returned (.success b v)) (hsep : b.Parts sep next)
      (hrest : Listed next vs last) : Listed a (v :: vs) last

/-- A list cannot go on: there is no separator, or no item behind it. -/
def ListStops (b : Cursor) : Prop :=
  (¬ ∃ next, b.Parts sep next) ∨
    ∃ next, b.Parts sep next ∧ g.ending item next = .returned .failure

variable {item sep}

/-- Behind a separator, a later item is an item. -/
theorem ending_laterItem_of_parts {b next : Cursor} (h : b.Parts sep next) :
    g.ending (laterItem item sep) b = g.ending item next := by
  unfold laterItem
  rw [ending_bind, g.ending_token_char_of_parts h, Ending.success_andThen]

theorem ending_laterItem_of_not_parts {b : Cursor} (h : ¬ ∃ next, b.Parts sep next) :
    g.ending (laterItem item sep) b = .returned .failure := by
  unfold laterItem
  rw [ending_bind, g.ending_token_char_of_not_parts h, Ending.failure_andThen]

/-- A later item fails exactly where the list cannot go on. -/
theorem ending_laterItem_eq_failure {b : Cursor} :
    g.ending (laterItem item sep) b = .returned .failure ↔ g.ListStops item sep b := by
  by_cases hsep : ∃ next, b.Parts sep next
  · rcases hsep with ⟨next, hnext⟩
    rw [g.ending_laterItem_of_parts hnext]
    constructor
    · exact fun hitem => .inr ⟨next, hnext, hitem⟩
    · rintro (hnone | ⟨next', hnext', hitem⟩)
      · exact absurd ⟨next, hnext⟩ hnone
      · rwa [← g.ending_laterItem_of_parts hnext, g.ending_laterItem_of_parts hnext']
  · exact ⟨fun _ => .inl hsep, fun _ => g.ending_laterItem_of_not_parts hsep⟩

/-- A later item is a separator and an item. -/
theorem ending_laterItem_eq_success {b next : Cursor} {v : α} :
    g.ending (laterItem item sep) b = .returned (.success next v) ↔
      ∃ a, b.Parts sep a ∧ g.ending item a = .returned (.success next v) := by
  constructor
  · intro h
    by_cases hsep : ∃ a, b.Parts sep a
    · rcases hsep with ⟨a, ha⟩
      exact ⟨a, ha, by rwa [← g.ending_laterItem_of_parts ha]⟩
    · rw [g.ending_laterItem_of_not_parts hsep] at h
      cases h
  · rintro ⟨a, ha, hitem⟩
    rwa [g.ending_laterItem_of_parts ha]

/-- Soundness: behind an item, the repetition finds the rest of the list, up to where it stops. By
induction on its values. -/
theorem listed_of_ending {a b last : Cursor} {v : α} {vs : List α}
    (hitem : g.ending item a = .returned (.success b v))
    (hlater : g.ending (laterItem item sep).star b = .returned (.success last vs)) :
    g.Listed item sep a (v :: vs) last ∧ g.ListStops item sep last := by
  induction vs generalizing a b v with
  | nil =>
    rcases (g.ending_star_eq_nil).1 hlater with ⟨rfl, hstops⟩
    exact ⟨.one hitem, g.ending_laterItem_eq_failure.1 hstops⟩
  | cons w vs ih =>
    rcases (g.ending_star_eq_cons).1 hlater with ⟨b', hround, hrest⟩
    rcases g.ending_laterItem_eq_success.1 hround with ⟨a', hsep, hnext⟩
    rcases ih hnext hrest with ⟨hlisted, hstops⟩
    exact ⟨.more hitem hsep hlisted, hstops⟩

/-- Completeness: what is listed, up to where it stops, is an item and what the repetition finds
behind it. By induction on `Listed`. -/
theorem ending_of_listed {a last : Cursor} {vs : List α} (h : g.Listed item sep a vs last)
    (hstops : g.ListStops item sep last) :
    ∃ b v later, vs = v :: later ∧ g.ending item a = .returned (.success b v) ∧
      g.ending (laterItem item sep).star b = .returned (.success last later) := by
  induction h with
  | @one a b v hitem =>
    have hlater := (g.ending_star_eq_nil).2 ⟨rfl, g.ending_laterItem_eq_failure.2 hstops⟩
    exact ⟨b, v, [], rfl, hitem, hlater⟩
  | @more a b next last v vs hitem hsep _ ih =>
    rcases ih hstops with ⟨b', w, later, rfl, hnext, hrest⟩
    have hround := g.ending_laterItem_eq_success.2 ⟨next, hsep, hnext⟩
    exact ⟨b, v, w :: later, rfl, hitem, (g.ending_star_eq_cons).2 ⟨b', hround, hrest⟩⟩

/-- A list is its first item and the later ones, or nothing. -/
theorem ending_separated (c : Cursor) :
    g.ending (Json.separated item sep) c =
      ((g.ending item c).andThen fun b v =>
        (g.ending (laterItem item sep).star b).andThen fun last vs =>
          .returned (.success last (v :: vs))).orElse (.returned (.success c [])) := by
  have hunfold : Json.separated item sep = (fun found => found.getD []) <$>
      Parser.option (item >>= fun v => (v :: ·) <$> (laterItem item sep).star) := rfl
  rw [hunfold, ending_functor_map, ending_option, ending_bind]
  simp only [ending_functor_map]
  rcases g.ending item c with (_ | ⟨b, v⟩) | panic | _
  · rfl
  · simp only [Ending.success_andThen]
    rcases g.ending (laterItem item sep).star b with (_ | ⟨last, vs⟩) | panic | _ <;> rfl
  · rfl
  · rfl

/-- The matches of a list are what is listed up to where it stops, or nothing where there is no
first item. -/
theorem ending_separated_eq_success {c last : Cursor} {vs : List α} :
    g.ending (Json.separated item sep) c = .returned (.success last vs) ↔
      vs = [] ∧ last = c ∧ g.ending item c = .returned .failure ∨
        g.Listed item sep c vs last ∧ g.ListStops item sep last := by
  rw [ending_separated]
  constructor
  · intro h
    rcases hitem : g.ending item c with (_ | ⟨b, v⟩) | panic | _
    · rw [hitem] at h
      cases h
      exact .inl ⟨rfl, rfl, rfl⟩
    · rw [hitem, Ending.success_andThen, ending_star_loop] at h
      rcases hloop : g.loop (laterItem item sep) b with ⟨last', later⟩ | panic | _
      · have hlater : g.ending (laterItem item sep).star b = .returned (.success last' later) := by
          rw [ending_star_loop, hloop]
          rfl
        rw [hloop] at h
        cases h
        exact .inr (g.listed_of_ending hitem hlater)
      · rw [hloop] at h
        cases h
      · rw [hloop] at h
        cases h
    · simp [hitem] at h
    · simp [hitem] at h
  · rintro (⟨rfl, rfl, hitem⟩ | ⟨hlisted, hstops⟩)
    · rw [hitem, Ending.failure_andThen, Ending.failure_orElse]
    · rcases g.ending_of_listed hlisted hstops with ⟨b, v, later, rfl, hitem, hlater⟩
      rw [hitem, Ending.success_andThen, hlater, Ending.success_andThen, Ending.success_orElse]

/-! ## Lists come to an end -/

section

variable {c : Cursor} (hends : ∀ c', c.Reaches c' → g.ending item c' ≠ .exhausted)
  (hforward : ∀ c' next v, c.Reaches c' → g.ending item c' = .returned (.success next v) →
    c'.Reaches next)

include hends hforward

/-- The later items come to an end, with a match or with the panic of one of them. By induction on
the unread text. -/
theorem exists_ending_laterItems {b : Cursor} (hb : c.Reaches b) :
    (∃ last vs, g.ending (laterItem item sep).star b = .returned (.success last vs)) ∨
      ∃ panic c', c.Reaches c' ∧ g.ending item c' = .panicked panic ∧
        g.ending (laterItem item sep).star b = .panicked panic := by
  -- the separator makes each round read something, whatever the item does
  induction hlen : b.rest.length using Nat.strong_induction_on generalizing b with
  | _ length ih =>
    subst hlen
    by_cases hstops : g.ListStops item sep b
    · exact .inl ⟨b, [], (g.ending_star_eq_nil).2 ⟨rfl, g.ending_laterItem_eq_failure.2 hstops⟩⟩
    · rcases not_or.1 hstops with ⟨hsep, hmissing⟩
      rcases not_not.1 hsep with ⟨a, ha⟩
      rcases ha.reaches with ⟨hba, hshort⟩
      have hround : g.ending (laterItem item sep) b = g.ending item a :=
        g.ending_laterItem_of_parts ha
      rcases hitem : g.ending item a with (_ | ⟨next, v⟩) | panic | _
      · exact absurd ⟨a, ha, hitem⟩ hmissing
      · have hreach : a.Reaches next := hforward a next v (hb.trans hba) hitem
        rcases ih next.rest.length (hreach.length_le.trans_lt hshort)
          ((hb.trans hba).trans hreach) rfl with ⟨last, vs, hlater⟩ |
            ⟨panic, c', hc', hpanic, hlater⟩
        · exact .inl ⟨last, v :: vs, (g.ending_star_eq_cons).2 ⟨next, hround.trans hitem, hlater⟩⟩
        · refine .inr ⟨panic, c', hc', hpanic, ?_⟩
          rw [ending_star, hround, hitem, Ending.success_andThen, hlater]
          rfl
      · refine .inr ⟨panic, a, hb.trans hba, hitem, ?_⟩
        rw [ending_star, hround, hitem]
        rfl
      · exact absurd hitem (hends a (hb.trans hba))

/-- A list comes to an end, with a match or with the panic of an item. -/
theorem exists_ending_separated :
    (∃ last vs, g.ending (Json.separated item sep) c = .returned (.success last vs)) ∨
      ∃ panic c', c.Reaches c' ∧ g.ending item c' = .panicked panic ∧
        g.ending (Json.separated item sep) c = .panicked panic := by
  rw [ending_separated]
  rcases hitem : g.ending item c with (_ | ⟨b, v⟩) | panic | _
  · exact .inl ⟨c, [], rfl⟩
  · have hb : c.Reaches b := hforward c b v (.refl c) hitem
    rcases g.exists_ending_laterItems hends hforward hb with ⟨last, vs, hlater⟩ |
      ⟨panic, c', hc', hpanic, hlater⟩
    · refine .inl ⟨last, v :: vs, ?_⟩
      rw [Ending.success_andThen, hlater]
      rfl
    · refine .inr ⟨panic, c', hc', hpanic, ?_⟩
      rw [Ending.success_andThen, hlater]
      rfl
  · exact .inr ⟨panic, c, .refl c, hitem, rfl⟩
  · exact absurd hitem (hends c (.refl c))

end

end

/-- A separated list holds as many items as there are. If the item ends wherever it is tried, and
does not go back, so does the list: it never fails, and if it is cut short, then by a panic of the
item. It is empty where the item fails; otherwise its values are those of items with separators
between them, all blanks behind a separator read, up to a place where the list cannot go on. That is
where it ends: a separator without an item behind it is left unread. -/
theorem separated_list_is_maximal (item : Parser R α) (sep : Char) {c : Cursor}
    (hends : ∀ c', c.Reaches c' → g.ending item c' ≠ .exhausted)
    (hforward : ∀ c' next v, c.Reaches c' → g.ending item c' = .returned (.success next v) →
      c'.Reaches next) :
    ((∃ last vs, g.ending (Json.separated item sep) c = .returned (.success last vs)) ∨
      ∃ panic c', c.Reaches c' ∧ g.ending item c' = .panicked panic ∧
        g.ending (Json.separated item sep) c = .panicked panic) ∧
    ∀ last vs, g.ending (Json.separated item sep) c = .returned (.success last vs) ↔
      vs = [] ∧ last = c ∧ g.ending item c = .returned .failure ∨
        g.Listed item sep c vs last ∧ g.ListStops item sep last :=
  ⟨g.exists_ending_separated hends hforward, fun _ _ => g.ending_separated_eq_success⟩

/-- Items that read nothing, and are missing before a letter: two of them are found around a comma,
and the comma before the letter is left. -/
theorem separated_list_is_maximal_dangling :
    let item : Parser NoRule Unit := .closure fun c =>
      pure (if c.peek = some 'x' then .failure else .success c ())
    (∀ c', (⟨[], [',', ' ', ',', 'x']⟩ : Cursor).Reaches c' →
      Grammar.none.ending item c' ≠ .exhausted) ∧
    (∀ c' next v, (⟨[], [',', ' ', ',', 'x']⟩ : Cursor).Reaches c' →
      Grammar.none.ending item c' = .returned (.success next v) → c'.Reaches next) ∧
    Grammar.none.ending (Json.separated item ',') ⟨[], [',', ' ', ',', 'x']⟩ =
      .returned (.success ⟨[' ', ','], [',', 'x']⟩ [(), ()]) := by
  intro item
  have hitem : ∀ c, Grammar.none.ending item c =
      .returned (if c.peek = some 'x' then .failure else .success c ()) := fun c =>
    Grammar.none.ending_of_endingAt fun _ => Grammar.none.endingAt_closure _ _ c
  have hends : ∀ c', (⟨[], [',', ' ', ',', 'x']⟩ : Cursor).Reaches c' →
      Grammar.none.ending item c' ≠ .exhausted := by
    intro c' _
    rw [hitem]
    exact fun h => nomatch h
  have hforward : ∀ c' next v, (⟨[], [',', ' ', ',', 'x']⟩ : Cursor).Reaches c' →
      Grammar.none.ending item c' = .returned (.success next v) → c'.Reaches next := by
    intro c' next v _ h
    rw [hitem, Ending.returned.injEq] at h
    split at h
    · cases h
    · cases h
      exact .refl c'
  have hfirst : (⟨[], [',', ' ', ',', 'x']⟩ : Cursor).Parts ',' ⟨[' ', ','], [',', 'x']⟩ :=
    Cursor.parts_iff.2 ⟨[], [' ', ',', 'x'], rfl, rfl⟩
  have hdangling : (⟨[' ', ','], [',', 'x']⟩ : Cursor).Parts ',' ⟨[',', ' ', ','], ['x']⟩ :=
    Cursor.parts_iff.2 ⟨[' ', ','], ['x'], rfl, rfl⟩
  refine ⟨hends, hforward, ?_⟩
  refine ((separated_list_is_maximal Grammar.none item ',' hends hforward).2 _ _).2 (.inr ⟨?_, ?_⟩)
  · exact .more (hitem _) hfirst (.one (hitem _))
  · exact .inr ⟨_, hdangling, hitem _⟩

end Grammar

end ParserCombinators
