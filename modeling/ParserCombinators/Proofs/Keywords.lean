import ParserCombinators.Grammars.Color
import ParserCombinators.Proofs.Literals
import ParserCombinators.Proofs.Sequences

/-!
# Keywords — the first name of a list, and the longest

Names are tried in the order in which they are listed, and the first that the text starts with is
taken. Of two names that the text starts with, the shorter one is a start of the longer one; so if
no name stands in the list before a longer one that starts with it, then the first is the longest.

- `Text.Hides`, `Text.length_le_of_first`: where the first name in a list is the longest
- `Parser.alternatives`, `Grammar.unison_firstOf`: the first parser of a list that matches is what
  an ordered choice between them finds
- `Grammar.run_anyOf_of_spans`, `Grammar.run_anyOf_of_not_prefix`: the names that are tried
- `Grammar.endingAt_byName_eq_success`: what names stand for, found by them
- `Grammar.keywords_match_longest`: names, and colours by their names
-/

namespace ParserCombinators

variable {R : Type → Type} {α : Type}

/-! ## Names at the start of a text -/

namespace Text

/-- Either there is a first name that the text starts with, or there is none. -/
theorem first_or_none (names : List String) (text : List Char) :
    (∃ earlier name later, names = earlier ++ name :: later ∧
      (∀ other ∈ earlier, ¬ other.toList <+: text) ∧ name.toList <+: text) ∨
    ∀ name ∈ names, ¬ name.toList <+: text := by
  rcases hfind : names.find? fun name => decide (name.toList <+: text) with _ | name
  · exact .inr (by simpa using hfind)
  · rcases List.find?_eq_some_iff_append.1 hfind with ⟨hname, earlier, later, hnames, hearlier⟩
    exact .inl ⟨earlier, name, later, hnames, by simpa using hearlier, by simpa using hname⟩

/-- A name hides a longer one that starts with it, if that comes later in a list. -/
def Hides (name later : String) : Prop :=
  name ≠ later ∧ name.toList <+: later.toList

instance (name later : String) : Decidable (Hides name later) :=
  inferInstanceAs (Decidable (name ≠ later ∧ name.toList <+: later.toList))

/-- If no name of a list hides a later one, the first that a text starts with is the longest. -/
theorem length_le_of_first {earlier later : List String} {name other : String} {text : List Char}
    (hlist : (earlier ++ name :: later).Pairwise fun name later => ¬ Hides name later)
    (hearlier : ∀ other ∈ earlier, ¬ other.toList <+: text) (hname : name.toList <+: text)
    (hmem : other ∈ earlier ++ name :: later) (hother : other.toList <+: text) :
    other.length ≤ name.length := by
  rcases List.mem_append.1 hmem with hbefore | hbehind
  · exact absurd hother (hearlier other hbefore)
  · rcases List.mem_cons.1 hbehind with rfl | hlater
    · exact Nat.le_refl _
    · have hhides : ¬ Hides name other :=
        (List.pairwise_cons.1 (List.pairwise_append.1 hlist).2.1).1 other hlater
      -- a longer name at the same place would start with the first one
      refine Nat.le_of_not_lt fun hlonger => hhides ⟨?_, ?_⟩
      · rintro rfl
        exact Nat.lt_irrefl _ hlonger
      · refine List.prefix_of_prefix_length_le hname hother ?_
        simp only [String.length_toList]
        omega

end Text

/-! ## The first parser of a list that matches -/

/-- The ordered choice between the parsers of a list, nested to the left; without any it fails. -/
def Parser.alternatives : List (Parser R α) → Parser R α
  | [] => .fail
  | p :: ps => ps.foldl .or p

open Engine

namespace Grammar

section Runs

variable (g : Grammar R) (fuel : Nat)

/-- The parsers behind the first are run where it fails, from the same cursor. -/
theorem run_firstOf_cons (p : Parser R α) (ps : List (Parser R α)) (c : Cursor) :
    g.run fuel (.firstOf (p :: ps)) c = g.run fuel p c >>= fun
      | .failure => g.run fuel (.firstOf ps) c
      | .success next v => pure (.success next v) := by
  show (g.run fuel p c >>= _) = _
  refine bind_congr fun outcome => ?_
  cases outcome <;> rfl

/-- A choice of two at the head of a list counts as two parsers of it. -/
theorem unison_firstOf_or (p q : Parser R α) (ps : List (Parser R α)) (c : Cursor) :
    (g.run fuel (.firstOf (.or p q :: ps)) c).Unison (g.run fuel (.firstOf (p :: q :: ps)) c) := by
  have hchoice : g.run fuel (.or p q) c = g.run fuel p c >>= fun
      | .failure => trace c .choice .opened >>= fun _ => g.run fuel q c
      | .success next v => pure (.success next v) := by
    show (g.run fuel p c >>= _) = _
    refine bind_congr fun outcome => ?_
    cases outcome <;> rfl
  rw [run_firstOf_cons, run_firstOf_cons, hchoice, bind_assoc]
  refine .bind (.refl _) fun outcome => ?_
  cases outcome with
  | failure =>
    rw [run_firstOf_cons, bind_assoc]
    exact .trace_bind _ _ _ _
  | success next v =>
    rw [pure_bind]
    exact .refl _

/-- Left-nested choice against `firstOf`. Induction on the later parsers, for every first one. -/
theorem unison_foldl_or (p : Parser R α) (ps : List (Parser R α)) (c : Cursor) :
    (g.run fuel (.firstOf (p :: ps)) c).Unison (g.run fuel (ps.foldl .or p) c) := by
  -- one alternative after the other moves from the list into the choice at its head
  induction ps generalizing p with
  | nil =>
    have hrun : g.run fuel (.firstOf [p]) c = g.run fuel p c >>= pure := by
      rw [run_firstOf_cons]
      refine bind_congr fun outcome => ?_
      cases outcome <;> rfl
    rw [hrun, bind_pure]
    exact .refl _
  | cons q ps ih => exact (g.unison_firstOf_or fuel p q ps c).symm.trans (ih (.or p q))

/-- The first of a list that matches is found by the ordered choice as well. -/
theorem unison_firstOf (ps : List (Parser R α)) (c : Cursor) :
    (g.run fuel (.firstOf ps) c).Unison (g.run fuel (.alternatives ps) c) := by
  cases ps with
  | nil => exact .refl _
  | cons p ps => exact g.unison_foldl_or fuel p ps c

/-- Parsers that fail are passed over, and leave their journals in order. Induction on them. -/
theorem run_firstOf_append {earlier : List (Parser R α)} {c : Cursor} {level : Trace.Level}
    {label : String}
    (h : ∀ p ∈ earlier, (g.run fuel p c level label).ending = .returned .failure)
    (later : List (Parser R α)) :
    g.run fuel (.firstOf (earlier ++ later)) c level label =
      ⟨(g.run fuel (.firstOf later) c level label).ending,
        (g.run fuel (.firstOf later) c level label).label,
        (earlier.flatMap fun p => (g.run fuel p c level label).journal) ++
          (g.run fuel (.firstOf later) c level label).journal⟩ := by
  -- a parser that fails leaves the label as it was, so that the next one starts as the first did
  induction earlier with
  | nil => rfl
  | cons p earlier ih =>
    have hfirst := h p List.mem_cons_self
    have hothers := ih fun q hq => h q (List.mem_cons_of_mem p hq)
    rw [List.cons_append, run_firstOf_cons,
      bind_of_returned hfirst (g.label_run fuel p c level label)]
    simp only [hothers, List.flatMap_cons, List.append_assoc]

/-- Behind a parser that matches, no other of the list is run. -/
theorem run_firstOf_of_success {p : Parser R α} {c next : Cursor} {v : α} {level : Trace.Level}
    {label : String} (h : (g.run fuel p c level label).ending = .returned (.success next v))
    (later : List (Parser R α)) :
    g.run fuel (.firstOf (p :: later)) c level label =
      ⟨.returned (.success next v), label, (g.run fuel p c level label).journal⟩ := by
  rw [run_firstOf_cons, bind_of_returned h (g.label_run fuel p c level label)]
  show (⟨_, _, (g.run fuel p c level label).journal ++ []⟩ : Step (Outcome α)) = _
  rw [List.append_nil]
  rfl

/-! ## The first name that the text starts with -/

/-- What the trial of some names leaves behind, one after the other. -/
def trials (names : List String) (c : Cursor) (level : Trace.Level) (label : String) : Journal :=
  names.flatMap fun name => (g.run fuel (.str name) c level label).journal

/-- A name that the text does not start with fails as a literal. -/
theorem ending_eq_failure_of_mem {names : List String} {c : Cursor}
    (h : ∀ name ∈ names, ¬ name.toList <+: c.rest) (level : Trace.Level) (label : String) :
    ∀ p ∈ names.map Parser.str, (g.run fuel p c level label).ending = .returned .failure := by
  intro p hp
  rcases List.mem_map.1 hp with ⟨name, hname, rfl⟩
  rw [run_ending, endingAt_str, if_neg (h name hname)]

/-- The names before the first that the text starts with are tried, and those behind it are not. -/
theorem run_anyOf_of_spans {earlier : List String} {name : String} {c c' : Cursor}
    (hearlier : ∀ other ∈ earlier, ¬ other.toList <+: c.rest) (hspans : c.Spans name.toList c')
    (later : List String) (level : Trace.Level) (label : String) :
    g.run fuel (Color.anyOf (earlier ++ name :: later)) c level label =
      ⟨.returned (.success c' name), label,
        g.trials fuel (earlier ++ [name]) c level label⟩ := by
  have hfails := g.ending_eq_failure_of_mem fuel hearlier level label
  have hmatch : (g.run fuel (.str name) c level label).ending = .returned (.success c' name) := by
    rw [run_ending]
    exact (g.endingAt_str_eq_success fuel).2 ⟨hspans, rfl⟩
  unfold Color.anyOf trials
  rw [List.map_append, List.map_cons, run_firstOf_append g fuel hfails,
    run_firstOf_of_success g fuel hmatch]
  simp [List.flatMap_map]

/-- Where the text starts with none of the names, all of them are tried. -/
theorem run_anyOf_of_not_prefix {names : List String} {c : Cursor}
    (h : ∀ name ∈ names, ¬ name.toList <+: c.rest) (level : Trace.Level) (label : String) :
    g.run fuel (Color.anyOf names) c level label =
      ⟨.returned .failure, label, g.trials fuel names c level label⟩ := by
  have hrun := run_firstOf_append g fuel (g.ending_eq_failure_of_mem fuel h level label) []
  rw [List.append_nil] at hrun
  unfold Color.anyOf trials
  rw [hrun]
  show (⟨_, _, _ ++ []⟩ : Step (Outcome String)) = _
  rw [List.append_nil, List.flatMap_map]
  rfl

/-- A name is found exactly if it is the first of the list that the text starts with. -/
theorem endingAt_anyOf_eq_success {names : List String} {c c' : Cursor} {v : String} :
    g.endingAt fuel (Color.anyOf names) c = .returned (.success c' v) ↔
      ∃ earlier later, names = earlier ++ v :: later ∧
        (∀ other ∈ earlier, ¬ other.toList <+: c.rest) ∧ c.Spans v.toList c' := by
  rw [← run_ending g fuel (Color.anyOf names) c .off ""]
  constructor
  · intro hending
    rcases Text.first_or_none names c.rest with ⟨earlier, name, later, rfl, hearlier, hname⟩ | hnone
    · rcases Cursor.exists_spans_iff.2 hname with ⟨next, hspans⟩
      rw [g.run_anyOf_of_spans fuel hearlier hspans later] at hending
      cases hending
      exact ⟨earlier, later, rfl, hearlier, hspans⟩
    · rw [g.run_anyOf_of_not_prefix fuel hnone] at hending
      cases hending
  · rintro ⟨earlier, later, rfl, hearlier, hspans⟩
    rw [g.run_anyOf_of_spans fuel hearlier hspans later]

/-- No name is found exactly if the text starts with none of the list. -/
theorem endingAt_anyOf_eq_failure {names : List String} {c : Cursor} :
    g.endingAt fuel (Color.anyOf names) c = .returned .failure ↔
      ∀ name ∈ names, ¬ name.toList <+: c.rest := by
  rw [← run_ending g fuel (Color.anyOf names) c .off ""]
  constructor
  · intro hending
    rcases Text.first_or_none names c.rest with ⟨earlier, name, later, rfl, hearlier, hname⟩ | hnone
    · rcases Cursor.exists_spans_iff.2 hname with ⟨next, hspans⟩
      rw [g.run_anyOf_of_spans fuel hearlier hspans later] at hending
      cases hending
    · exact hnone
  · intro hnone
    rw [g.run_anyOf_of_not_prefix fuel hnone]

/-! ## What names stand for -/

section Variants

variable {variants : List α} {name : α → String} {c : Cursor}

/-- A name that was found is that of the first of the variants whose name the text starts with. -/
theorem exists_variant {after : Cursor} {text : String}
    (hfound : g.endingAt fuel (Color.anyOf (variants.map name)) c =
      .returned (.success after text)) :
    ∃ earlier v later, variants = earlier ++ v :: later ∧ text = name v ∧
      (∀ other ∈ earlier, ¬ (name other).toList <+: c.rest) ∧ c.Spans (name v).toList after := by
  rcases (g.endingAt_anyOf_eq_success fuel).1 hfound with ⟨_, _, hlist, hearlier, hspans⟩
  -- where the names are cut, the variants are
  rcases List.map_eq_append_iff.1 hlist with ⟨earlier, _, rfl, rfl, hrest⟩
  rcases List.map_eq_cons_iff.1 hrest with ⟨v, later, rfl, rfl, -⟩
  exact ⟨earlier, v, later, rfl, rfl, by simpa using hearlier, hspans⟩

variable {ofName? : String → Option α} (hnames : ∀ v ∈ variants, ofName? (name v) = some v)

include hnames

/-- If names can be turned back into what they stand for, then a parser for that finds the first of
the variants whose name the text starts with. -/
theorem endingAt_byName_eq_success {c' : Cursor} {v : α} :
    g.endingAt fuel (Color.byName variants name ofName?) c = .returned (.success c' v) ↔
      ∃ earlier later, variants = earlier ++ v :: later ∧
        (∀ other ∈ earlier, ¬ (name other).toList <+: c.rest) ∧ c.Spans (name v).toList c' := by
  unfold Color.byName
  rw [endingAt_bind, Ending.andThen_eq_success]
  constructor
  · rintro ⟨after, text, hfound, hvalue⟩
    rcases g.exists_variant fuel hfound with ⟨earlier, u, later, rfl, rfl, hearlier, hspans⟩
    rw [hnames u (by simp), endingAt_ofOption_some] at hvalue
    cases hvalue
    exact ⟨earlier, later, rfl, hearlier, hspans⟩
  · rintro ⟨earlier, later, rfl, hearlier, hspans⟩
    refine ⟨c', name v, ?_, ?_⟩
    · refine (g.endingAt_anyOf_eq_success fuel).2 ⟨earlier.map name, later.map name, ?_, ?_, hspans⟩
      · simp
      · simpa using hearlier
    · rw [hnames v (by simp), endingAt_ofOption_some]

/-- A name that is found always stands for something, by `hnames`, so the only failure is that none
is found. -/
theorem endingAt_byName_eq_failure :
    g.endingAt fuel (Color.byName variants name ofName?) c = .returned .failure ↔
      ∀ v ∈ variants, ¬ (name v).toList <+: c.rest := by
  have hnone : g.endingAt fuel (Color.anyOf (variants.map name)) c = .returned .failure ↔
      ∀ v ∈ variants, ¬ (name v).toList <+: c.rest := by
    rw [endingAt_anyOf_eq_failure, List.forall_mem_map]
  unfold Color.byName
  rw [endingAt_bind, ← hnone]
  constructor
  · intro h
    rcases hfound : g.endingAt fuel (Color.anyOf (variants.map name)) c with
      (_ | ⟨after, text⟩) | panic | _
    · rfl
    · -- a name that was found stands for something
      rcases g.exists_variant fuel hfound with ⟨earlier, u, later, rfl, rfl, -, -⟩
      rw [hfound, Ending.success_andThen, hnames u (by simp), endingAt_ofOption_some] at h
      cases h
    · rw [hfound] at h
      cases h
    · rw [hfound] at h
      cases h
  · intro h
    rw [h, Ending.failure_andThen]

end Variants

end Runs

end Grammar

/-! ## Colours -/

namespace Color

theorem mem_all (color : Color) : color ∈ all := by
  cases color <;> decide

/-- No name of a colour starts with that of another. By evaluation over all pairs. -/
theorem eq_of_prefix_name {color other : Color} (h : color.name.toList <+: other.name.toList) :
    color = other := by
  revert h
  cases color <;> cases other <;> decide

/-- At one place there is the name of one colour at most. -/
theorem eq_of_prefix_text {color other : Color} {text : List Char}
    (h : color.name.toList <+: text) (h' : other.name.toList <+: text) : color = other := by
  rcases List.prefix_or_prefix_of_prefix h h' with hstarts | hstarts
  · exact eq_of_prefix_name hstarts
  · exact (eq_of_prefix_name hstarts).symm

end Color

namespace Grammar

variable (g : Grammar R) (fuel : Nat)

/-- A colour is found exactly where its name is, and its name is what is read. -/
theorem endingAt_color_eq_success {c c' : Cursor} {color : Color} :
    g.endingAt fuel Color.parser c = .returned (.success c' color) ↔
      c.Spans color.name.toList c' := by
  have hnames : ∀ color ∈ Color.all, Color.ofName? color.name = some color := fun color _ =>
    Color.ofName?_name color
  refine (g.endingAt_byName_eq_success fuel hnames).trans
    ⟨fun ⟨_, _, _, _, hspans⟩ => hspans, fun hspans => ?_⟩
  rcases List.append_of_mem (Color.mem_all color) with ⟨earlier, later, hall⟩
  have hnodup : (earlier ++ color :: later).Nodup := hall ▸ (by decide : Color.all.Nodup)
  refine ⟨earlier, later, hall, fun other hother hstarts => ?_, hspans⟩
  -- it would be the same colour, which is not listed twice
  have hsame : other = color :=
    Color.eq_of_prefix_text hstarts (Cursor.exists_spans_iff.1 ⟨c', hspans⟩)
  exact (List.nodup_append.1 hnodup).2.2 other hother color List.mem_cons_self hsame

/-- The instance of `endingAt_byName_eq_failure`, with `Color.mem_all`. -/
theorem endingAt_color_eq_failure {c : Cursor} :
    g.endingAt fuel Color.parser c = .returned .failure ↔
      ¬ ∃ color : Color, color.name.toList <+: c.rest := by
  have hnames : ∀ color ∈ Color.all, Color.ofName? color.name = some color := fun color _ =>
    Color.ofName?_name color
  refine (g.endingAt_byName_eq_failure fuel hnames).trans ⟨?_, ?_⟩
  · rintro hnone ⟨color, hstarts⟩
    exact hnone color (Color.mem_all color) hstarts
  · exact fun hnone color _ hstarts => hnone ⟨color, hstarts⟩

/-- A list of names is in unison with the ordered choice between them. The names are tried one after
the other up to the first that the text starts with, which is the value and all that is read; where
there is none, the match fails after all of them. If no name hides a later one, then the name that
is found is the longest of the list that the text starts with. If names can be turned back into the
variants that they stand for, a variant is found exactly where its name is and those before it are
not. Of colours there is the name of one at most at each place, so that a colour is found exactly
where its name is. -/
theorem keywords_match_longest (level : Trace.Level) (label : String) (c : Cursor) :
    (∀ names, (g.run fuel (Color.anyOf names) c).Unison
      (g.run fuel (.alternatives (names.map .str)) c)) ∧
    (∀ earlier name later c', (∀ other ∈ earlier, ¬ other.toList <+: c.rest) →
      c.Spans name.toList c' →
        g.run fuel (Color.anyOf (earlier ++ name :: later)) c level label =
          ⟨.returned (.success c' name), label,
            g.trials fuel (earlier ++ [name]) c level label⟩) ∧
    (∀ names, (∀ name ∈ names, ¬ name.toList <+: c.rest) →
      g.run fuel (Color.anyOf names) c level label =
        ⟨.returned .failure, label, g.trials fuel names c level label⟩) ∧
    (∀ names : List String, names.Pairwise (fun name later => ¬ Text.Hides name later) →
      ∀ c' v, (g.run fuel (Color.anyOf names) c level label).ending = .returned (.success c' v) →
        v ∈ names ∧ c.Spans v.toList c' ∧
          ∀ other ∈ names, other.toList <+: c.rest → other.length ≤ v.length) ∧
    (∀ {β : Type} (variants : List β) (name : β → String) (ofName? : String → Option β),
      (∀ v ∈ variants, ofName? (name v) = some v) →
        (∀ c' v, (g.run fuel (Color.byName variants name ofName?) c level label).ending =
            .returned (.success c' v) ↔
          ∃ earlier later, variants = earlier ++ v :: later ∧
            (∀ other ∈ earlier, ¬ (name other).toList <+: c.rest) ∧
              c.Spans (name v).toList c') ∧
        ((g.run fuel (Color.byName variants name ofName?) c level label).ending =
            .returned .failure ↔
          ¬ ∃ v ∈ variants, (name v).toList <+: c.rest)) ∧
    (∀ c' color, (g.run fuel Color.parser c level label).ending = .returned (.success c' color) ↔
      c.Spans color.name.toList c') ∧
    ((g.run fuel Color.parser c level label).ending = .returned .failure ↔
      ¬ ∃ color : Color, color.name.toList <+: c.rest) := by
  simp only [run_ending]
  refine ⟨fun names => g.unison_firstOf fuel _ c, ?_, ?_, ?_, ?_, ?_, ?_⟩
  · exact fun earlier name later c' hearlier hspans =>
      g.run_anyOf_of_spans fuel hearlier hspans later level label
  · exact fun names hnone => g.run_anyOf_of_not_prefix fuel hnone level label
  · intro names hlist c' v hfound
    rcases (g.endingAt_anyOf_eq_success fuel).1 hfound with ⟨earlier, later, rfl, hearlier, hspans⟩
    have hstarts : v.toList <+: c.rest := Cursor.exists_spans_iff.1 ⟨c', hspans⟩
    refine ⟨by simp, hspans, fun other hmem hother => ?_⟩
    exact Text.length_le_of_first hlist hearlier hstarts hmem hother
  · intro β variants name ofName? hnames
    refine ⟨fun c' v => g.endingAt_byName_eq_success fuel hnames, ?_⟩
    rw [g.endingAt_byName_eq_failure fuel hnames]
    simp only [not_exists, not_and]
  · exact fun c' color => g.endingAt_color_eq_success fuel
  · exact g.endingAt_color_eq_failure fuel

/-- A longer name before one that it starts with: where the text goes on with the longer one, it is
found and the shorter one is not tried, and elsewhere the shorter one is found. Where the text goes
on with neither, both are tried and the match fails. What the names stand for is found by them. -/
theorem keywords_match_longest_shared_start :
    let names := ["int", "in"]
    let name : Bool → String := fun v => cond v "int" "in"
    let ofName? : String → Option Bool := fun text =>
      if text = "int" then some true else if text = "in" then some false else .none
    names.Pairwise (fun name later => ¬ Text.Hides name later) ∧
    Grammar.none.run 0 (Color.anyOf names) ⟨[], ['i', 'n', 't', '!']⟩ .trace "" =
      ⟨.returned (.success ⟨['t', 'n', 'i'], ['!']⟩ "int"), "",
        Grammar.none.trials 0 ["int"] ⟨[], ['i', 'n', 't', '!']⟩ .trace ""⟩ ∧
    "in".toList <+: ['i', 'n', 't', '!'] ∧ "in".length ≤ "int".length ∧
    (∀ other ∈ ["int"], ¬ other.toList <+: ['i', 'n', '!']) ∧
    Grammar.none.run 0 (Color.anyOf names) ⟨[], ['i', 'n', '!']⟩ .trace "" =
      ⟨.returned (.success ⟨['n', 'i'], ['!']⟩ "in"), "",
        Grammar.none.trials 0 names ⟨[], ['i', 'n', '!']⟩ .trace ""⟩ ∧
    (∀ name ∈ names, ¬ name.toList <+: ['i', '!']) ∧
    Grammar.none.run 0 (Color.anyOf names) ⟨[], ['i', '!']⟩ .trace "" =
      ⟨.returned .failure, "", Grammar.none.trials 0 names ⟨[], ['i', '!']⟩ .trace ""⟩ ∧
    (∀ v ∈ [true, false], ofName? (name v) = some v) ∧
    (Grammar.none.run 0 (Color.byName [true, false] name ofName?) ⟨[], ['i', 'n', '!']⟩ .trace
      "").ending = .returned (.success ⟨['n', 'i'], ['!']⟩ false) := by
  intro names name ofName?
  have hlist : names.Pairwise fun name later => ¬ Text.Hides name later := by decide
  have hshort : "in".toList <+: ['i', 'n', 't', '!'] := by decide
  have hearlier : ∀ other ∈ ["int"], ¬ other.toList <+: ['i', 'n', '!'] := by decide
  have hnone : ∀ name ∈ names, ¬ name.toList <+: ['i', '!'] := by decide
  have hnames : ∀ v ∈ [true, false], ofName? (name v) = some v := by decide
  have hspans : Cursor.Spans ⟨[], ['i', 'n', '!']⟩ "in".toList ⟨['n', 'i'], ['!']⟩ := ⟨rfl, rfl⟩
  rcases keywords_match_longest Grammar.none 0 .trace "" ⟨[], ['i', 'n', 't', '!']⟩ with
    ⟨-, hlong, -, hlongest, -, -, -⟩
  rcases keywords_match_longest Grammar.none 0 .trace "" ⟨[], ['i', 'n', '!']⟩ with
    ⟨-, hfirst, -, -, hvariants, -, -⟩
  rcases keywords_match_longest Grammar.none 0 .trace "" ⟨[], ['i', '!']⟩ with
    ⟨-, -, hfails, -, -, -, -⟩
  have hfound := hlong [] "int" ["in"] ⟨['t', 'n', 'i'], ['!']⟩ (by decide) ⟨rfl, rfl⟩
  refine ⟨hlist, hfound, hshort, ?_, hearlier, ?_, hnone, hfails names hnone, hnames, ?_⟩
  · exact (hlongest names hlist _ _ (congrArg Step.ending hfound)).2.2 "in" (by decide) hshort
  · exact hfirst ["int"] "in" [] _ hearlier hspans
  · refine ((hvariants [true, false] name ofName? hnames).1 _ _).2 ⟨[true], [], rfl, ?_, hspans⟩
    intro other hother
    rw [List.mem_singleton.1 hother]
    exact hearlier "int" List.mem_cons_self

end Grammar

end ParserCombinators
