import Mathlib.Tactic.IntervalCases
import ParserCombinators.Proofs.SeparatedLists
import ParserCombinators.Proofs.TimeFormats

/-!
# Time arrays — accepted exactly where their format says

The parser for arrays of times goes back silently: over a fraction that has too few digits, and over
a comma that no time follows. Neither hides a text of the format from it, nor lets it take another
one. Each part of the parser is described by the texts that it takes; a time can be told from what
comes behind it unless that is a point, and a list of times from what comes behind it unless that is
a comma.

- `Grammar.ending_digitSequence`: parsers for digits in a row
- `Clock.exists_of_ending_time`, `Clock.ending_time_of_spans`: times and their texts
- `Clock.ending_times`: one or more times are a list with commas between them
- `Clock.exists_of_listed`, `Clock.listed_of_spans`: such lists and their texts
- `Clock.tame_timeArray`, `Clock.not_mayRaise_timeArray`: arrays come to an outcome
- `Clock.ending_timeArray`: arrays and their texts
- `Grammar.time_array_accepts_exactly`: matches and failures of the parser
-/

namespace ParserCombinators

variable {R : Type → Type}

/-! ## Matches of the parts -/

namespace Grammar

variable (g : Grammar R) {a b : Cursor}

/-- Matches of `satisfy` as spans of one character. -/
theorem ending_satisfy_eq_success {kind : Char → Bool} {ch : Char} :
    g.ending (.satisfy kind) a = .returned (.success b ch) ↔ kind ch = true ∧ a.Spans [ch] b := by
  constructor
  · intro h
    -- at the end of the text there is no match; elsewhere the first character decides
    rcases a with ⟨before, _ | ⟨x, rest⟩⟩
    · rw [ending_satisfy_nil] at h
      cases h
    · rw [ending_satisfy_cons] at h
      by_cases hx : kind x = true
      · rw [if_pos hx] at h
        cases h
        exact ⟨hx, rfl, rfl⟩
      · rw [if_neg hx] at h
        cases h
  · rintro ⟨hch, hspans⟩
    rcases a with ⟨before, rest⟩
    have hrest : rest = [ch] ++ b.rest := hspans.1
    subst hrest
    rw [List.singleton_append, ending_satisfy_cons, if_pos hch, hspans.eq_of_append]
    rfl

theorem ending_char_eq_success {ch x : Char} :
    g.ending (.char ch) a = .returned (.success b x) ↔ x = ch ∧ a.Spans [ch] b := by
  rw [ending_char, ending_satisfy_eq_success, beq_iff_eq]
  constructor
  · rintro ⟨rfl, h⟩
    exact ⟨rfl, h⟩
  · rintro ⟨rfl, h⟩
    exact ⟨rfl, h⟩

/-- The limit form of `exists_outcome_of_no_rules`: no rules and no faults leave an outcome. -/
theorem exists_ending_of_no_rules {α : Type} {p : Parser R α}
    (hp : p.Tame (barren : Grammar R).nullable ∅) (hraise : ∀ fault, ¬ p.MayRaise fault)
    (c : Cursor) : ∃ outcome, g.ending p c = .returned outcome := by
  rcases exists_outcome_of_no_rules (g := g) hp hraise (Nat.lt_succ_self c.rest.length) with
    ⟨outcome, h⟩
  exact ⟨outcome, ending_eq_returned_iff.2 ⟨_, h⟩⟩

/-- Digits in a row, as many as there are parsers. By induction on the parsers. -/
theorem ending_digitSequence {ps : List (Parser R Char)}
    (hps : ∀ p ∈ ps, ∀ c, g.ending p c = g.ending Lexeme.digit c) {a b : Cursor}
    {digits : List Char} :
    g.ending (.seq ps) a = .returned (.success b digits) ↔
      digits ∈ Decimal.fixed ps.length ∧ a.Spans digits b := by
  induction ps generalizing a b digits with
  | nil =>
    have hnone : g.ending (.seq []) a = .returned (.success a []) :=
      g.ending_seqOf_zero ([] : List (Parser R Char)).get a
    rw [hnone]
    constructor
    · intro h
      cases h
      exact ⟨⟨rfl, nofun⟩, .refl a⟩
    · rintro ⟨⟨hlength, -⟩, hspans⟩
      rw [List.length_eq_zero_iff.1 hlength] at hspans ⊢
      rw [Cursor.spans_nil.1 hspans]
  | cons p ps ih =>
    rcases List.forall_mem_cons.1 hps with ⟨hp, hlater⟩
    -- the sequence is its first parser and the sequence of the others
    have hsplit : g.ending (.seq (p :: ps)) a = (g.ending p a).andThen fun next d =>
        (g.ending (.seq ps) next).andThen fun last ds => .returned (.success last (d :: ds)) :=
      g.ending_seqOf_succ ps.length (p :: ps).get a
    rw [hsplit, hp]
    simp only [Ending.andThen_eq_success, Lexeme.digit, ending_satisfy_eq_success, ih hlater]
    constructor
    · rintro ⟨next, d, ⟨hd, hfirst⟩, last, ds, ⟨⟨hlength, hdigits⟩, hrest⟩, heq⟩
      cases heq
      exact ⟨⟨congrArg _ hlength, List.forall_mem_cons.2 ⟨hd, hdigits⟩⟩, hfirst.trans hrest⟩
    · rintro ⟨⟨hlength, hdigits⟩, hspans⟩
      cases digits with
      | nil => cases hlength
      | cons d ds =>
        rcases List.forall_mem_cons.1 hdigits with ⟨hd, hds⟩
        rcases Cursor.spans_cons.1 hspans with ⟨next, hfirst, hrest⟩
        exact ⟨next, d, ⟨hd, hfirst⟩, b, ds, ⟨⟨Nat.succ.inj hlength, hds⟩, hrest⟩, rfl⟩

end Grammar

namespace Clock

open Grammar Text

variable (g : Grammar R) {a b : Cursor}

/-- Membership in the ten digits and the range test of `Char.isDigit` are one predicate. -/
theorem contains_eq_isDigit (ch : Char) : "0123456789".toList.contains ch = ch.isDigit := by
  rw [Bool.eq_iff_iff, List.contains_iff_mem]
  constructor
  · have hall : ("0123456789".toList.all fun d => d.isDigit) = true := by decide
    exact List.all_eq_true.1 hall ch
  · intro hdigit
    -- the other inclusion goes through the ten code points
    have hrange : 48 ≤ ch.toNat ∧ ch.toNat ≤ 57 := by
      simpa [Char.isDigit, UInt32.le_iff_toNat_le] using hdigit
    rw [← Char.ofNat_toNat ch]
    generalize ch.toNat = n at hrange
    rcases hrange with ⟨hlow, hhigh⟩
    interval_cases n <;> decide

/-- The digit of a fraction is `oneOf` over a set, yet it ends as `Lexeme.digit` does. -/
theorem ending_milliDigit (c : Cursor) : g.ending milliDigit c = g.ending Lexeme.digit c := by
  unfold milliDigit Lexeme.digit
  rw [ending_oneOf, funext contains_eq_isDigit]

/-- The instance of `ending_digitSequence` at two digits, with their value. -/
theorem ending_twoDigits {n : Nat} :
    g.ending twoDigits a = .returned (.success b n) ↔
      ∃ digits ∈ Decimal.padded 2 n, a.Spans digits b := by
  have hdigits : ∀ p ∈ [Lexeme.digit, Lexeme.digit], ∀ c,
      g.ending p c = g.ending Lexeme.digit c := by simp
  unfold twoDigits
  simp only [ending_functor_map, Ending.andThen_eq_success, ending_digitSequence g hdigits]
  constructor
  · rintro ⟨_, digits, ⟨hmem, hspans⟩, heq⟩
    cases heq
    exact ⟨digits, ⟨hmem, rfl⟩, hspans⟩
  · rintro ⟨digits, ⟨hmem, rfl⟩, hspans⟩
    exact ⟨b, digits, ⟨hmem, hspans⟩, rfl⟩

theorem millis_eq : (millis : Parser R String) = String.ofList <$> (Parser.char '.' >>= fun _ =>
    Parser.seq [milliDigit, milliDigit, milliDigit]) := rfl

/-- The instance of `ending_digitSequence` at three digits, behind a point. -/
theorem ending_millis {text : String} :
    g.ending millis a = .returned (.success b text) ↔
      ∃ digits ∈ Decimal.fixed 3, text = String.ofList digits ∧ a.Spans ('.' :: digits) b := by
  have hdigits : ∀ p ∈ [milliDigit, milliDigit, milliDigit], ∀ c,
      g.ending p c = g.ending Lexeme.digit c := by simp [ending_milliDigit]
  rw [millis_eq]
  simp only [ending_functor_map, ending_bind, Ending.andThen_eq_success, ending_char_eq_success,
    ending_digitSequence g hdigits]
  constructor
  · rintro ⟨_, digits, ⟨middle, _, ⟨-, hpoint⟩, hmem, hspans⟩, heq⟩
    cases heq
    exact ⟨digits, hmem, rfl, hpoint.trans hspans⟩
  · rintro ⟨digits, hmem, rfl, hspans⟩
    rcases Cursor.spans_cons.1 hspans with ⟨middle, hpoint, hdigits⟩
    exact ⟨b, digits, ⟨middle, '.', ⟨rfl, hpoint⟩, hmem, hdigits⟩, rfl⟩

theorem ending_millis_of_clear {c : Cursor} (h : Text.Clear (· == '.') c.rest) :
    g.ending millis c = .returned .failure := by
  rw [millis_eq, ending_functor_map, ending_bind, g.ending_char_of_clear h, Ending.failure_andThen,
    Ending.failure_andThen]

/-! ## Times -/

/-- Soundness: what is read as seconds is one of their texts. -/
theorem exists_of_ending_seconds {x : Binary64}
    (h : g.ending seconds a = .returned (.success b x)) :
    ∃ text ∈ secondsTexts x, a.Spans text b := by
  unfold seconds at h
  simp only [ending_functor_map, ending_bind, Ending.andThen_eq_success, ending_option,
    Ending.orElse_eq_success, ending_twoDigits] at h
  rcases h with ⟨middle, n, ⟨whole, hwhole, hspans⟩, last, found,
    ⟨_, _, hmillis, hfound⟩ | ⟨-, hfound⟩, heq⟩
  · cases hfound
    cases heq
    rcases (ending_millis g).1 hmillis with ⟨fraction, hfraction, rfl, hpoint⟩
    exact ⟨_, mem_secondsTexts.2 ⟨n, whole, hwhole, .inr ⟨fraction, hfraction, rfl, rfl⟩⟩,
      hspans.trans hpoint⟩
  · cases hfound
    cases heq
    exact ⟨whole, mem_secondsTexts.2 ⟨n, whole, hwhole, .inl ⟨rfl, rfl⟩⟩, hspans⟩

/-- Completeness, where no point follows: behind one, the option could take more than the text. -/
theorem ending_seconds_of_spans {x : Binary64} {text : List Char} (htext : text ∈ secondsTexts x)
    (hspans : a.Spans text b) (hclear : Text.Clear (· == '.') b.rest) :
    g.ending seconds a = .returned (.success b x) := by
  -- `seconds` as a combination of endings, so that the two kinds of text only rewrite
  have hunfold : g.ending seconds a = (g.ending twoDigits a).andThen fun middle n =>
      (((g.ending millis middle).andThen fun last m => .returned (.success last (some m))).orElse
        (.returned (.success middle .none))).andThen fun last found =>
          .returned (.success last (secondsOf n found)) := by
    unfold seconds
    simp only [ending_bind, ending_functor_map, ending_option]
  rw [hunfold]
  rcases mem_secondsTexts.1 htext with ⟨n, whole, hwhole, ⟨rfl, rfl⟩ |
    ⟨fraction, hfraction, rfl, rfl⟩⟩
  · have hpair := (ending_twoDigits g).2 ⟨text, hwhole, hspans⟩
    rw [hpair, Ending.success_andThen, ending_millis_of_clear g hclear, Ending.failure_andThen,
      Ending.failure_orElse, Ending.success_andThen]
  · rcases Cursor.spans_append.1 hspans with ⟨middle, hfirst, hpoint⟩
    have hpair := (ending_twoDigits g).2 ⟨whole, hwhole, hfirst⟩
    have hmillis := (ending_millis g).2 ⟨fraction, hfraction, rfl, hpoint⟩
    rw [hpair, Ending.success_andThen, hmillis, Ending.success_andThen, Ending.success_orElse,
      Ending.success_andThen]

/-- Hours and minutes are two digits each, with colons behind them; the seconds are left as they
are. -/
theorem ending_time {t : Time} :
    g.ending time a = .returned (.success b t) ↔
      ∃ hours ∈ Decimal.padded 2 t.hours, ∃ minutes ∈ Decimal.padded 2 t.minutes, ∃ middle,
        a.Spans (hours ++ ':' :: (minutes ++ [':'])) middle ∧
          g.ending seconds middle = .returned (.success b t.seconds) := by
  unfold time
  simp only [ending_functor_map, ending_bind, Ending.andThen_eq_success, ending_char_eq_success,
    ending_twoDigits]
  constructor
  · rintro ⟨_, _, ⟨hours, hhours, hspans⟩, _, _, ⟨-, hcolon⟩, _, _, ⟨minutes, hminutes, hspans'⟩,
      middle, _, ⟨-, hcolon'⟩, _, x, hseconds, heq⟩
    cases heq
    exact ⟨hours, hhours, minutes, hminutes, middle,
      hspans.trans (hcolon.trans (hspans'.trans hcolon')), hseconds⟩
  · rintro ⟨hours, hhours, minutes, hminutes, middle, hspans, hseconds⟩
    rcases Cursor.spans_append.1 hspans with ⟨_, hfirst, hmore⟩
    rcases Cursor.spans_cons.1 hmore with ⟨_, hcolon, hmore⟩
    rcases Cursor.spans_append.1 hmore with ⟨_, hsecond, hcolon'⟩
    exact ⟨_, _, ⟨hours, hhours, hfirst⟩, _, _, ⟨rfl, hcolon⟩, _, _, ⟨minutes, hminutes, hsecond⟩,
      middle, _, ⟨rfl, hcolon'⟩, b, _, hseconds, rfl⟩

/-- Soundness of `time`, from that of `seconds`. -/
theorem exists_of_ending_time {t : Time} (h : g.ending time a = .returned (.success b t)) :
    ∃ text ∈ timeTexts t, a.Spans text b := by
  rcases (ending_time g).1 h with ⟨hours, hhours, minutes, hminutes, middle, hspans, hseconds⟩
  rcases exists_of_ending_seconds g hseconds with ⟨text, htext, hspans'⟩
  refine ⟨_, mem_colons.2 ⟨hours, hhours, minutes, hminutes, text, htext, rfl⟩, ?_⟩
  have hall := hspans.trans hspans'
  simpa using hall

/-- Completeness of `time`, under the condition that `seconds` has. -/
theorem ending_time_of_spans {t : Time} {text : List Char} (htext : text ∈ timeTexts t)
    (hspans : a.Spans text b) (hclear : Text.Clear (· == '.') b.rest) :
    g.ending time a = .returned (.success b t) := by
  rcases mem_colons.1 htext with ⟨hours, hhours, minutes, hminutes, seconds, hseconds, rfl⟩
  -- the seconds are split off at the last colon
  have hsplit : hours ++ ':' :: (minutes ++ ':' :: seconds) =
      (hours ++ ':' :: (minutes ++ [':'])) ++ seconds := by simp
  rw [hsplit] at hspans
  rcases Cursor.spans_append.1 hspans with ⟨middle, hfirst, hlast⟩
  exact (ending_time g).2 ⟨hours, hhours, minutes, hminutes, middle, hfirst,
    ending_seconds_of_spans g hseconds hlast hclear⟩

/-! ## Times and the blanks behind them -/

def goesOn (ch : Char) : Bool :=
  isBlank ch || ch == '.'

/-- Soundness behind blanks: a token takes all that follow. -/
theorem exists_of_ending_token {t : Time}
    (h : g.ending (Lexeme.token time) a = .returned (.success b t)) :
    ∃ text ∈ words (timeTexts t), a.Spans text b := by
  rw [ending_token, Ending.andThen_eq_success] at h
  rcases h with ⟨middle, _, htime, heq⟩
  cases heq
  rcases exists_of_ending_time g htime with ⟨text, htext, hspans⟩
  have hblanks := middle.takes_runs isBlank
  exact ⟨_, Language.append_mem_mul htext hblanks.mem, hspans.trans hblanks.spans⟩

/-- Completeness behind blanks. The blanks have to end, and no point may follow them. -/
theorem ending_token_of_spans {t : Time} {text : List Char} (htext : text ∈ words (timeTexts t))
    (hspans : a.Spans text b) (hclear : Clear goesOn b.rest) :
    g.ending (Lexeme.token time) a = .returned (.success b t) := by
  rcases mem_words.1 htext with ⟨w, hw, spaces, hspaces, rfl⟩
  rcases Cursor.spans_append.1 hspans with ⟨middle, hfirst, hlast⟩
  have hblank : Clear isBlank b.rest := hclear.mono fun ch hch => by simp [goesOn, hch]
  -- behind the time there is one of its blanks, or what comes behind them
  have hpoint : Clear (· == '.') middle.rest := by
    rw [hlast.1]
    cases spaces with
    | nil => exact hclear.mono fun ch hch => by simp [goesOn, hch]
    | cons ch spaces =>
      refine clear_cons.2 (beq_eq_false_iff_ne.2 ?_)
      rintro rfl
      exact absurd (hspaces '.' List.mem_cons_self) (by decide)
  rw [ending_token, ending_time_of_spans g hw hfirst hpoint, Ending.success_andThen,
    Cursor.skip_eq_of_spans hlast hspaces hblank]

/-! ## Lists of times -/

theorem ending_gap (c : Cursor) :
    g.ending gap c = .returned (.success (c.skip isBlank) (c.rest.takeWhile isBlank)) :=
  g.ending_star_satisfy (fun _ => rfl) c

/-- `spacedTime` ends as the token of `time` does. -/
theorem ending_spacedTime (c : Cursor) :
    g.ending spacedTime c = g.ending (Lexeme.token time) c := by
  unfold spacedTime
  simp only [ending_bind, ending_functor_map, ending_gap, ending_token, Ending.success_andThen]

/-- `nextTime` is one round of a separated list. -/
theorem ending_nextTime (c : Cursor) :
    g.ending nextTime c = g.ending (laterItem (Lexeme.token time) ',') c := by
  unfold nextTime laterItem
  simp only [ending_bind, ending_gap, ending_spacedTime, ending_token, Ending.andThen_assoc,
    Ending.success_andThen]

/-- One or more times are a list with commas, up to where it stops. -/
theorem ending_times {ts : List Time} :
    g.ending times a = .returned (.success b ts) ↔
      g.Listed (Lexeme.token time) ',' a ts b ∧ g.ListStops (Lexeme.token time) ',' b := by
  unfold times
  simp only [ending_bind, ending_functor_map, Ending.andThen_eq_success, ending_spacedTime,
    g.ending_star_congr (ending_nextTime g)]
  constructor
  · rintro ⟨middle, t, hitem, _, later, hlater, heq⟩
    cases heq
    exact g.listed_of_ending hitem hlater
  · rintro ⟨hlisted, hstops⟩
    rcases g.ending_of_listed hlisted hstops with ⟨middle, t, later, rfl, hitem, hlater⟩
    exact ⟨middle, t, hitem, b, later, hlater, rfl⟩

/-- Soundness for lists. By induction on the list of matches. -/
theorem exists_of_listed {ts : List Time} (h : g.Listed (Lexeme.token time) ',' a ts b) :
    ∃ text ∈ entryTexts ts, a.Spans text b := by
  induction h with
  | @one a b t hitem =>
    rw [entryTexts_singleton]
    exact exists_of_ending_token g hitem
  | @more a b next last t ts hitem hsep hrest ih =>
    rcases exists_of_ending_token g hitem with ⟨first, hfirst, hspans⟩
    rcases hsep.exists_spans with ⟨comma, hcomma, hspans'⟩
    rcases ih with ⟨later, hlater, hspans''⟩
    -- no list of matches is empty
    cases ts with
    | nil => cases hrest
    | cons u ts =>
      rw [entryTexts_cons]
      exact ⟨first ++ (comma ++ later),
        Language.append_mem_mul hfirst (Language.append_mem_mul hcomma hlater),
        hspans.trans (hspans'.trans hspans'')⟩

/-- Completeness for lists. By induction on the times; each is followed by a comma or by the end. -/
theorem listed_of_spans {t : Time} {ts : List Time} {text : List Char}
    (htext : text ∈ entryTexts (t :: ts)) (hspans : a.Spans text b)
    (hclear : Clear goesOn b.rest) : g.Listed (Lexeme.token time) ',' a (t :: ts) b := by
  induction ts generalizing t a text with
  | nil =>
    rw [entryTexts_singleton] at htext
    exact .one (ending_token_of_spans g htext hspans hclear)
  | cons u ts ih =>
    rw [entryTexts_cons] at htext
    rcases Language.mem_mul.1 htext with ⟨first, hfirst, _, hmore, rfl⟩
    rcases Language.mem_mul.1 hmore with ⟨comma, hcomma, later, hlater, rfl⟩
    rcases Cursor.spans_append.1 hspans with ⟨middle, hspans, hrest⟩
    rcases Cursor.spans_append.1 hrest with ⟨next, hspans', hrest⟩
    -- each time is followed by a comma
    have hitem : Clear goesOn middle.rest := by
      rcases mem_words_singleton.1 hcomma with ⟨spaces, -, rfl⟩
      rw [hspans'.1]
      exact clear_cons.2 (by decide)
    -- and each comma by a digit, behind its blanks
    have hblank : Clear isBlank next.rest := by
      rcases exists_digit_of_entryTexts hlater with ⟨d, more, rfl, hd⟩
      rw [hrest.1]
      exact clear_cons.2 (isBlank_eq_false_of_isDigit hd)
    exact .more (ending_token_of_spans g hfirst hspans hitem)
      (Cursor.parts_of_spans hcomma hspans' hblank) (ih hlater hrest)

/-! ## Arrays end -/

section

open ParserCombinators.Parser (Solid Tame)

variable {N S : Set (AnyRule R)}

theorem solid_twoDigits : (twoDigits : Parser R Nat).Solid N S := by
  refine (Solid.seq (by simp) fun p hp => ?_).mapValue _
  rcases List.mem_pair.1 hp with rfl | rfl <;> exact .like _

/-- Every part of a time reads a character before it can end. -/
theorem solid_time : (time : Parser R Time).Solid N S := by
  -- a fraction is a sequence of three parsers that each read a character
  have hfraction : (Parser.seq [milliDigit, milliDigit, milliDigit] : Parser R (List Char)).Solid
      N S := Solid.seq (by simp) fun p hp => by
    rw [show p = milliDigit by simpa using hp]
    exact .oneOf _
  have hmillis : (millis : Parser R String).Solid N S :=
    ((Solid.char '.').bind fun _ => hfraction.toTame).mapValue _
  have hseconds : (seconds : Parser R Binary64).Solid N S :=
    solid_twoDigits.bind fun _ => hmillis.toTame.option.mapValue _
  exact solid_twoDigits.bind fun _ => (Solid.char ':').toTame.bind fun _ =>
    solid_twoDigits.toTame.bind fun _ => (Solid.char ':').toTame.bind fun _ =>
      hseconds.toTame.mapValue _

theorem tame_gap : (gap : Parser R (List Char)).Tame N S :=
  .star (.like _)

/-- The round of the star is solid, as `Tame.star` asks. -/
theorem solid_times : (times : Parser R (List Time)).Solid N S := by
  have hspaced : (spacedTime : Parser R Time).Solid N S :=
    solid_time.bind fun _ => tame_gap.mapValue _
  have hnext : (nextTime : Parser R Time).Solid N S :=
    (Solid.char ',').bind fun _ => tame_gap.bind fun _ => hspaced.toTame
  exact hspaced.bind fun _ => (Tame.star hnext).mapValue _

/-- The condition for termination, over any sets of nullable and callable rules. -/
theorem tame_timeArray : (timeArray : Parser R (List Time)).Tame N S :=
  (Solid.char _).toTame.bind fun _ => tame_gap.bind fun _ =>
    (solid_times.toTame.option.mapValue _).bind fun _ => (Solid.char _).toTame.mapValue _

end

theorem not_mayRaise_time (fault : Fault) : ¬ (time : Parser R Time).MayRaise fault := by
  have hmillis : ¬ (millis : Parser R String).MayRaise fault := by
    rw [millis_eq]
    simp [milliDigit, Parser.MayRaise]
  simp [time, seconds, hmillis, twoDigits, Lexeme.digit, Parser.MayRaise]

theorem not_mayRaise_times (fault : Fault) : ¬ (times : Parser R (List Time)).MayRaise fault := by
  simp [times, nextTime, spacedTime, gap, not_mayRaise_time, Parser.MayRaise]

/-- No closure of the parser raises, since all of them are pure. -/
theorem not_mayRaise_timeArray (fault : Fault) :
    ¬ (timeArray : Parser R (List Time)).MayRaise fault := by
  simp [timeArray, gap, not_mayRaise_times, Parser.MayRaise]

/-! ## Arrays -/

/-- A list of times begins with a digit, so anything else is a failure. -/
theorem ending_times_of_clear {c : Cursor} (h : Clear Char.isDigit c.rest) :
    g.ending times c = .returned .failure := by
  rcases g.exists_ending_of_no_rules solid_times.toTame not_mayRaise_times c with
    ⟨_ | ⟨c', ts⟩, houtcome⟩
  · exact houtcome
  · rcases (ending_times g).1 houtcome with ⟨hlisted, hstops⟩
    rcases g.ending_of_listed hlisted hstops with ⟨_, t, later, rfl, -, -⟩
    rcases exists_of_listed g hlisted with ⟨text, htext, hrest, -⟩
    rcases exists_digit_of_entryTexts htext with ⟨d, more, rfl, hd⟩
    have hnot : d.isDigit = false := h d _ hrest
    rw [hd] at hnot
    cases hnot

/-- Soundness: the array is a text of the values that it yields. -/
theorem exists_of_ending_timeArray {ts : List Time}
    (h : g.ending timeArray a = .returned (.success b ts)) :
    ∃ text ∈ arrayTexts ts, a.Spans text b := by
  unfold timeArray at h
  simp only [ending_functor_map, ending_bind, ending_gap, ending_option, Ending.andThen_eq_success,
    Ending.orElse_eq_success, ending_char_eq_success, ending_times] at h
  rcases h with ⟨middle, _, ⟨-, hopen⟩, start, _, hgap, last, _, ⟨_, found, hfound, hts⟩, _, _,
    ⟨-, hclose⟩, heq⟩
  cases hgap
  cases hts
  cases heq
  have hblanks := middle.takes_runs isBlank
  -- the entries between the braces, or none
  have hentries : ∃ text ∈ entryTexts (found.getD []), (middle.skip isBlank).Spans text last := by
    rcases hfound with ⟨_, ts, ⟨hlisted, -⟩, heq⟩ | ⟨-, heq⟩
    · cases heq
      exact exists_of_listed g hlisted
    · cases heq
      exact ⟨[], rfl, .refl _⟩
  rcases hentries with ⟨text, htext, hspans⟩
  exact ⟨_, Language.append_mem_mul (Language.append_mem_mul rfl hblanks.mem)
    (Language.append_mem_mul htext rfl), (hopen.trans hblanks.spans).trans (hspans.trans hclose)⟩

/-- Between braces, all entries are read: the closing brace stops the list. -/
theorem ending_entries_of_spans {ts : List Time} {entries rest : List Char}
    (hentries : entries ∈ entryTexts ts) (hspans : a.Spans entries b)
    (hclosing : b.rest = '\x7d' :: rest) :
    g.ending ((fun found => found.getD []) <$> times.option) a = .returned (.success b ts) := by
  rw [ending_functor_map, ending_option]
  cases ts with
  | nil =>
    rcases hentries with rfl
    rw [Cursor.spans_nil.1 hspans] at hclosing ⊢
    have hclear : Clear Char.isDigit a.rest := by
      rw [hclosing]
      exact clear_cons.2 (by decide)
    rw [ending_times_of_clear g hclear, Ending.failure_andThen, Ending.failure_orElse,
      Ending.success_andThen, Option.getD_none]
  | cons t ts =>
    have hclear : Clear goesOn b.rest := by
      rw [hclosing]
      exact clear_cons.2 (by decide)
    -- a list goes on with a comma, and there is the brace
    have hstops : g.ListStops (Lexeme.token time) ',' b := by
      refine .inl ?_
      rintro ⟨next, _, _, ⟨hcomma, -⟩, -⟩
      rw [hclosing] at hcomma
      cases hcomma
    have htimes := (ending_times g).2 ⟨listed_of_spans g hentries hspans hclear, hstops⟩
    rw [htimes, Ending.success_andThen, Ending.success_orElse, Ending.success_andThen,
      Option.getD_some]

/-- Completeness: a closing brace is in the text, so nothing is asked of what follows. -/
theorem ending_timeArray_of_spans {ts : List Time} {text : List Char} (htext : text ∈ arrayTexts ts)
    (hspans : a.Spans text b) : g.ending timeArray a = .returned (.success b ts) := by
  rcases Language.mem_mul.1 htext with ⟨_, hopened, _, hmore, rfl⟩
  rcases Language.mem_mul.1 hmore with ⟨entries, hentries, _, rfl, rfl⟩
  rcases mem_words_singleton.1 hopened with ⟨spaces, hspaces, rfl⟩
  rcases Cursor.spans_append.1 hspans with ⟨start, hfirst, hlater⟩
  rcases Cursor.spans_cons.1 hfirst with ⟨middle, hopen, hgap⟩
  rcases Cursor.spans_append.1 hlater with ⟨last, hinside, hclose⟩
  -- the gap ends at the first entry, or at the closing brace
  have hskip : middle.skip isBlank = start := by
    refine Cursor.skip_eq_of_spans hgap hspaces ?_
    rw [hinside.1, hclose.1]
    exact clear_of_entryTexts hentries
  have hbrace : g.ending (.char '\x7b') a = .returned (.success middle '\x7b') :=
    (ending_char_eq_success g).2 ⟨rfl, hopen⟩
  have hbrace' : g.ending (.char '\x7d') last = .returned (.success b '\x7d') :=
    (ending_char_eq_success g).2 ⟨rfl, hclose⟩
  unfold timeArray
  rw [ending_bind, hbrace, Ending.success_andThen, ending_bind, ending_gap, hskip,
    Ending.success_andThen, ending_bind, ending_entries_of_spans g hentries hinside hclose.1,
    Ending.success_andThen, ending_functor_map, hbrace', Ending.success_andThen]

/-- The characterisation of matches, from soundness and completeness. -/
theorem ending_timeArray {ts : List Time} :
    g.ending timeArray a = .returned (.success b ts) ↔ ∃ text ∈ arrayTexts ts, a.Spans text b := by
  constructor
  · exact exists_of_ending_timeArray g
  · rintro ⟨text, htext, hspans⟩
    exact ending_timeArray_of_spans g htext hspans

/-- The contrapositive of soundness, given that some outcome is reached. -/
theorem ending_timeArray_eq_failure {c : Cursor} (h : ∀ text ∈ arrayFormat, ¬ text <+: c.rest) :
    g.ending timeArray c = .returned .failure := by
  rcases g.exists_ending_of_no_rules tame_timeArray not_mayRaise_timeArray c with
    ⟨_ | ⟨c', ts⟩, houtcome⟩
  · exact houtcome
  · rcases exists_of_ending_timeArray g houtcome with ⟨text, htext, hspans⟩
    exact absurd (Cursor.exists_spans_iff.1 ⟨c', hspans⟩)
      (h text (mem_arrayFormat_iff.2 ⟨ts, htext⟩))

end Clock

namespace Grammar

open Clock

/-- The parser for arrays of times comes to an outcome on every text, given more units of fuel than
there are unread characters. It matches if and only if the unread text begins with a text of the
format, which it then takes as a whole; its values are the times that are written there. There is
one such text, and its only closing brace is its last character. So it fails without a closing
brace, at a comma that has only blanks before the first closing brace, and at a point before that
brace without three digits behind it. -/
theorem time_array_accepts_exactly (g : Grammar R) {c : Cursor} {fuel : Nat}
    (hfuel : c.rest.length < fuel) (level : Trace.Level) (label : String) :
    let result := (g.run fuel timeArray c level label).ending
    (∀ c' ts, result = .returned (.success c' ts) ↔ ∃ text ∈ arrayTexts ts, c.Spans text c') ∧
    (∀ text ∈ arrayFormat, text <+: c.rest →
      (∃ c' ts, text ∈ arrayTexts ts ∧ c.Spans text c' ∧ result = .returned (.success c' ts)) ∧
      (∃ inside, text = inside ++ ['\x7d'] ∧ '\x7d' ∉ inside) ∧
      ∀ other ∈ arrayFormat, other <+: c.rest → other = text) ∧
    ((∀ text ∈ arrayFormat, ¬ text <+: c.rest) → result = .returned .failure) ∧
    ('\x7d' ∉ c.rest → result = .returned .failure) ∧
    (∀ before spaces after, c.rest = before ++ ',' :: (spaces ++ '\x7d' :: after) →
      '\x7d' ∉ before → spaces ∈ Text.blanks → result = .returned .failure) ∧
    ∀ before after, c.rest = before ++ '.' :: after → '\x7d' ∉ before →
      (∀ fraction ∈ Decimal.fixed 3, ¬ fraction <+: after) → result = .returned .failure := by
  intro result
  -- enough fuel gives the limit
  have hresult : result = g.ending timeArray c := by
    have hends : g.endingAt fuel timeArray c ≠ .exhausted :=
      endingAt_ne_exhausted_of_no_rules tame_timeArray hfuel
    rw [ending_eq_of_ne hends, ← run_ending]
  have hfails : (∀ text ∈ arrayFormat, ¬ text <+: c.rest) → result = .returned .failure :=
    fun hnone => hresult.trans (ending_timeArray_eq_failure g hnone)
  refine ⟨fun c' ts => ?_, fun text htext hstarts => ⟨?_, ?_, fun other hother hstarts' => ?_⟩,
    hfails, fun hunclosed => hfails (not_prefix_of_unclosed hunclosed),
    fun before spaces after hrest hbefore hspaces =>
      hfails (not_prefix_of_trailing_comma hrest hbefore hspaces),
    fun before after hrest hbefore hafter =>
      hfails (not_prefix_of_short_fraction hrest hbefore hafter)⟩
  · rw [hresult]
    exact ending_timeArray g
  · rcases mem_arrayFormat_iff.1 htext with ⟨ts, hts⟩
    rcases Cursor.exists_spans_iff.2 hstarts with ⟨c', hspans⟩
    exact ⟨c', ts, hts, hspans, hresult.trans (ending_timeArray_of_spans g hts hspans)⟩
  · rcases exists_inside htext with ⟨inside, heq, hnone, -, -⟩
    exact ⟨inside, heq, hnone⟩
  · exact eq_of_prefix_of_arrayFormat htext hother hstarts hstarts'

/-- Two times, one of them with a fraction, are read up to the closing brace; a comma that no time
follows and a fraction of one digit are refused. -/
theorem time_array_accepts_exactly_two_times :
    let first := ['0', '1', ':', '0', '2', ':', '0', '3', '.', '3', '4', '5']
    let second := ['2', '3', ':', '0', '2', ':', '0', '3']
    let text := ['\x7b'] ++ ((first ++ ([',', '\t'] ++ (second ++ [' ']))) ++ ['\x7d'])
    (Grammar.none.run 27 timeArray ⟨[], text ++ ['x']⟩ .off "").ending =
      .returned (.success ⟨text.reverse, ['x']⟩
        [⟨1, 2, .ofDecimal false 3345 (-3)⟩, ⟨23, 2, .ofDecimal false 3 0⟩]) ∧
    (Grammar.none.run 13 timeArray ⟨[], '\x7b' :: (second ++ [',', ' ', '\x7d'])⟩ .off "").ending =
      .returned .failure ∧
    (Grammar.none.run 13 timeArray ⟨[], '\x7b' :: (second ++ ['.', '3', '\x7d'])⟩ .off "").ending =
      .returned .failure := by
  intro first second text
  have hdigits : ∀ digits : List Char, digits.all Char.isDigit = true →
      digits ∈ Decimal.padded digits.length (Nat.ofDigitChars 10 digits 0) :=
    fun digits h => ⟨⟨rfl, List.all_eq_true.1 h⟩, rfl⟩
  have hspaces : [' '] ∈ Text.blanks ∧ ['\t'] ∈ Text.blanks := by
    simp only [Text.mem_blanks, List.forall_mem_singleton]
    decide
  have hfraction := hdigits ['3', '4', '5'] rfl
  have hfirst : first ∈ Text.words (timeTexts ⟨1, 2, .ofDecimal false 3345 (-3)⟩) := by
    have hseconds := mem_secondsTexts.2 ⟨3, _, hdigits ['0', '3'] rfl,
      .inr ⟨_, hfraction.1, rfl, (secondsOf_fraction 3 hfraction).symm⟩⟩
    have htime := mem_colons.2
      ⟨_, hdigits ['0', '1'] rfl, _, hdigits ['0', '2'] rfl, _, hseconds, rfl⟩
    exact Language.append_mem_mul htime nofun
  have hsecond : second ++ [' '] ∈ Text.words (timeTexts ⟨23, 2, .ofDecimal false 3 0⟩) := by
    have hseconds := mem_secondsTexts.2 ⟨3, _, hdigits ['0', '3'] rfl, .inl ⟨rfl, rfl⟩⟩
    have htime := mem_colons.2
      ⟨_, hdigits ['2', '3'] rfl, _, hdigits ['0', '2'] rfl, _, hseconds, rfl⟩
    exact Language.append_mem_mul htime hspaces.1
  have htext : text ∈
      arrayTexts [⟨1, 2, .ofDecimal false 3345 (-3)⟩, ⟨23, 2, .ofDecimal false 3 0⟩] := by
    have hopened : ['\x7b'] ∈ Text.words {['\x7b']} := Text.mem_words_singleton.2 ⟨[], nofun, rfl⟩
    have hcomma : [',', '\t'] ∈ Text.words {[',']} :=
      Text.mem_words_singleton.2 ⟨['\t'], hspaces.2, rfl⟩
    rw [arrayTexts, entryTexts_cons, entryTexts_singleton]
    exact Language.append_mem_mul hopened (Language.append_mem_mul
      (Language.append_mem_mul hfirst (Language.append_mem_mul hcomma hsecond)) rfl)
  refine ⟨?_, ?_, ?_⟩
  · exact ((time_array_accepts_exactly Grammar.none (by decide) .off "").1 _ _).2
      ⟨text, htext, rfl, rfl⟩
  · exact (time_array_accepts_exactly Grammar.none (by decide) .off "").2.2.2.2.1
      ('\x7b' :: second) [' '] [] rfl (by decide) hspaces.1
  · refine (time_array_accepts_exactly Grammar.none (by decide) .off "").2.2.2.2.2
      ('\x7b' :: second) ['3', '\x7d'] rfl (by decide) ?_
    rintro fraction ⟨hlength, -⟩ hstarts
    exact absurd hstarts.length_le (by simp [hlength])

end Grammar

end ParserCombinators
