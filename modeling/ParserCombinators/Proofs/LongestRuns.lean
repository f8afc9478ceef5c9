import Mathlib.Data.List.DropRight
import ParserCombinators.Proofs.Numerals
import ParserCombinators.Proofs.Positions

/-!
# Longest runs — what scanners take

A scanner reads characters as long as they are of its kind. What it takes is the longest text of a
language with which the unread text begins: no text of the language that the unread text begins with
is longer. Digits, names and blanks are scanned in this way, and behind the longest run of blanks
there are none left, so that skipping them a second time changes nothing.

- `Text.runs`, `Lexeme.names`: the languages of runs of a kind, and of names
- `Cursor.Takes`: the longest text of a language, and the cursor behind it
- `Grammar.loopAt_like`: the loop over a predicate that always answers, by its number of rounds
- `Grammar.endingAt_star_like`, `Grammar.endingAt_plus_like`, `Grammar.endingAt_identifier`:
  scanners
- `Grammar.endingAt_token_token`: blanks are skipped once
- `Grammar.scanners_take_longest`: all of this together
-/

namespace ParserCombinators

variable {R : Type → Type} {α : Type}

/-! ## Languages -/

/-- Texts of characters of a kind only. -/
def Text.runs (kind : Char → Bool) : Language Char :=
  {text | ∀ ch ∈ text, kind ch = true}

namespace Lexeme

def OpensName (ch : Char) : Prop :=
  'a' ≤ ch ∧ ch ≤ 'z' ∨ 'A' ≤ ch ∧ ch ≤ 'Z' ∨ ch = '_'

/-- Texts of letters, digits and underscores that do not begin with a digit. -/
def names : Language Char :=
  {text | ∃ first later, text = first :: later ∧ OpensName first ∧
    ∀ ch ∈ later, OpensName ch ∨ '0' ≤ ch ∧ ch ≤ '9'}

/-- The test for the first character of a name decides `OpensName`. -/
theorem isIdentifierStart_iff {ch : Char} : isIdentifierStart ch = true ↔ OpensName ch := by
  have hupper : ch.isUpper = decide ('A' ≤ ch ∧ ch ≤ 'Z') := rfl
  have hlower : ch.isLower = ('a' ≤ ch && ch ≤ 'z') := rfl
  have hletter : ch.isAlpha = (ch.isUpper || ch.isLower) := rfl
  simp only [isIdentifierStart, hletter, hupper, hlower, OpensName, Bool.or_eq_true,
    Bool.and_eq_true, decide_eq_true_eq, beq_iff_eq]
  tauto

/-- The test for the later characters of a name, which may be digits too. -/
theorem isIdentifierPart_iff {ch : Char} :
    isIdentifierPart ch = true ↔ OpensName ch ∨ '0' ≤ ch ∧ ch ≤ '9' := by
  have hdigit : ch.isDigit = ('0' ≤ ch && ch ≤ '9') := rfl
  rw [isIdentifierPart, Bool.or_eq_true, isIdentifierStart_iff, hdigit, Bool.and_eq_true,
    decide_eq_true_eq, decide_eq_true_eq]

end Lexeme

/-! ## The longest text -/

/-- The text `w` is the longest of the language with which the unread text begins, and the second
cursor stands behind it. -/
structure Cursor.Takes (c : Cursor) (L : Language Char) (w : List Char) (c' : Cursor) : Prop where
  mem : w ∈ L
  starts : w <+: c.rest
  longest : ∀ w' ∈ L, w' <+: c.rest → w'.length ≤ w.length
  input_eq : c'.input = c.input
  offset_eq : c'.offset = c.offset + Text.byteSize w

namespace Cursor

variable {c c' : Cursor} {L : Language Char} {w : List Char}

/-- A span of the language that no other text of it exceeds is what is taken. -/
theorem Spans.takes (h : c.Spans w c') (hmem : w ∈ L)
    (hlongest : ∀ w' ∈ L, w' <+: c.rest → w'.length ≤ w.length) : c.Takes L w c' := by
  rcases spans_iff.1 h with ⟨hstarts, hinput, hoffset⟩
  exact ⟨hmem, hstarts, hlongest, hinput, hoffset⟩

theorem Takes.spans (h : c.Takes L w c') : c.Spans w c' :=
  spans_iff.2 ⟨h.starts, h.input_eq, h.offset_eq⟩

/-- At a cursor, a language determines the text that is taken and the cursor behind it. -/
theorem Takes.unique {w' : List Char} {c'' : Cursor} (h : c.Takes L w c') (h' : c.Takes L w' c'') :
    w' = w ∧ c'' = c' := by
  have hle : w.length ≤ w'.length := h'.longest w h.mem h.starts
  have hprefix : w' <+: w :=
    List.prefix_of_prefix_length_le h'.starts h.starts (h.longest w' h'.mem h'.starts)
  have hw : w' = w := hprefix.eq_of_length_le hle
  subst hw
  exact ⟨rfl, h.spans.unique h'.spans⟩

end Cursor

namespace Text

variable {kind : Char → Bool}

/-- No run at the start of `text` is longer than `text.takeWhile kind`. -/
theorem length_le_takeWhile {w text : List Char} (hw : w ∈ runs kind) (h : w <+: text) :
    w.length ≤ (text.takeWhile kind).length := by
  rcases h with ⟨more, rfl⟩
  rw [List.takeWhile_append_of_pos hw, List.length_append]
  exact Nat.le_add_right _ _

theorem takeWhile_dropWhile (kind : Char → Bool) (text : List Char) :
    (text.dropWhile kind).takeWhile kind = [] := by
  have hrun : ∀ ch ∈ ([] : List Char), kind ch = true := nofun
  exact takeWhile_append hrun (clear_dropWhile text)

end Text

namespace Cursor

/-- `skip kind` stands behind the longest run of the kind, which may be empty. -/
theorem takes_runs (kind : Char → Bool) (c : Cursor) :
    c.Takes (Text.runs kind) (c.rest.takeWhile kind) (c.skip kind) :=
  (spans_takeWhile.2 rfl).takes (fun _ => List.mem_takeWhile_imp) fun _ hw hstarts =>
    Text.length_le_takeWhile hw hstarts

/-- Behind a first character of a name, the longest name goes on to the end of the run. -/
theorem takes_names {before rest : List Char} {first : Char} (hfirst : Lexeme.OpensName first) :
    Takes ⟨before, first :: rest⟩ Lexeme.names (first :: rest.takeWhile Lexeme.isIdentifierPart)
      (skip Lexeme.isIdentifierPart ⟨first :: before, rest⟩) := by
  have hlater : (⟨first :: before, rest⟩ : Cursor).Spans
      (rest.takeWhile Lexeme.isIdentifierPart) _ := spans_takeWhile.2 rfl
  have hspans : (⟨before, first :: rest⟩ : Cursor).Spans [first] ⟨first :: before, rest⟩ :=
    ⟨rfl, rfl⟩
  refine (hspans.trans hlater).takes ⟨first, _, rfl, hfirst, fun ch hch => ?_⟩ ?_
  · exact Lexeme.isIdentifierPart_iff.1 (List.mem_takeWhile_imp hch)
  · rintro _ ⟨x, later, rfl, -, hpart⟩ hstarts
    -- both texts begin with the same character, and behind it are runs of one kind
    have hrun : later ∈ Text.runs Lexeme.isIdentifierPart :=
      fun ch hch => Lexeme.isIdentifierPart_iff.2 (hpart ch hch)
    have hle := Text.length_le_takeWhile hrun (List.cons_prefix_cons.1 hstarts).2
    simpa using hle

/-- A run of the kind that no character of the kind follows is the one that `skip` takes. -/
theorem skip_eq_of_spans {kind : Char → Bool} {a b : Cursor} {run : List Char} (h : a.Spans run b)
    (hrun : ∀ ch ∈ run, kind ch = true) (hclear : Text.Clear kind b.rest) : a.skip kind = b := by
  rcases a with ⟨before, rest⟩
  have hrest : rest = run ++ b.rest := h.1
  subst hrest
  rw [skip_append hrun hclear, h.eq_of_append]

/-- `skip kind` is idempotent. -/
theorem skip_skip (kind : Char → Bool) (c : Cursor) : (c.skip kind).skip kind = c.skip kind := by
  -- behind a run there is no character of its kind
  simp only [skip, Text.takeWhile_dropWhile, List.dropWhile_idempotent, List.reverse_nil,
    List.nil_append]

end Cursor

/-! ## Scanners -/

namespace Grammar

variable (g : Grammar R) (fuel : Nat)

section

variable {accepts : Char → Callback Bool} {kind : Char → Bool}
  (haccepts : ∀ ch, (accepts ch).result = .ok (kind ch))

include haccepts

/-- `like accepts` at a character, where `accepts` answers without a fault. -/
theorem endingAt_like_cons_of_total (before : List Char) (ch : Char) (rest : List Char) :
    g.endingAt fuel (.like accepts) ⟨before, ch :: rest⟩ =
      .returned (if kind ch then .success ⟨ch :: before, rest⟩ ch else .failure) := by
  rw [endingAt_like_cons, Ending.ofCallback_eq_returned.2 (haccepts ch), Ending.returned_bind]

/-- Run lemma: the loop over `like accepts` ends after one round for each character of the run, and
one more. By induction on the rounds. -/
theorem loopAt_like (rounds : Nat) (c : Cursor) :
    g.loopAt fuel (.like accepts) rounds c =
      if (c.rest.takeWhile kind).length < rounds then
        .returned (c.skip kind, c.rest.takeWhile kind)
      else .exhausted := by
  -- a round takes one character off the run, and one round off those that are left
  induction rounds generalizing c with
  | zero => rw [loopAt_zero, if_neg (Nat.not_lt_zero _)]
  | succ rounds ih =>
    rw [loopAt_succ]
    rcases c with ⟨before, _ | ⟨ch, rest⟩⟩
    · simp [Cursor.skip]
    · rw [endingAt_like_cons_of_total g fuel haccepts]
      by_cases hch : kind ch = true
      · by_cases hlen : (rest.takeWhile kind).length < rounds <;>
          simp [hch, ih, hlen, Cursor.skip]
      · simp [hch, Cursor.skip]

/-- `star (like accepts)` takes the longest run, given fuel for all of it. -/
theorem endingAt_star_like (c : Cursor) :
    g.endingAt fuel (.star (.like accepts)) c =
      if (c.rest.takeWhile kind).length < fuel then
        .returned (.success (c.skip kind) (c.rest.takeWhile kind))
      else .exhausted := by
  rw [endingAt_star, loopAt_like g fuel haccepts]
  split <;> rfl

/-- `plus (like accepts)` does too, and fails if the run is empty. -/
theorem endingAt_plus_like {c : Cursor} (h : (c.rest.takeWhile kind).length < fuel) :
    g.endingAt fuel (.plus (.like accepts)) c =
      .returned (if c.rest.takeWhile kind = [] then .failure
        else .success (c.skip kind) (c.rest.takeWhile kind)) := by
  rw [endingAt_plus]
  rcases c with ⟨before, _ | ⟨ch, rest⟩⟩
  · simp
  · rw [endingAt_like_cons_of_total g fuel haccepts]
    by_cases hch : kind ch = true
    · -- the first round is not the loop's, which is left with a shorter run
      have hlen : (rest.takeWhile kind).length < fuel := by
        simp only [hch, List.takeWhile_cons_of_pos, List.length_cons] at h
        omega
      simp [hch, loopAt_like g fuel haccepts, hlen, Cursor.skip]
    · simp [hch]

end

/-- `digits` at fuel beyond the unread text. -/
theorem endingAt_digits {c : Cursor} (h : c.rest.length < fuel) :
    g.endingAt fuel Lexeme.digits c =
      .returned (if c.rest.takeWhile Char.isDigit = [] then .failure
        else .success (c.skip Char.isDigit) (String.ofList (c.rest.takeWhile Char.isDigit))) := by
  rw [← ending_digits, ending_eq_of_ne (g.endingAt_digits_ne_exhausted fuel h)]

/-- `identifier` is a first character and the longest run behind it. -/
theorem endingAt_identifier {c : Cursor} (h : c.rest.length < fuel) :
    g.endingAt fuel Lexeme.identifier c =
      .returned (match c.rest with
        | [] => .failure
        | ch :: rest =>
          if Lexeme.isIdentifierStart ch then
            .success (Cursor.skip Lexeme.isIdentifierPart ⟨ch :: c.before, rest⟩)
              (String.ofList (ch :: rest.takeWhile Lexeme.isIdentifierPart))
          else .failure) := by
  unfold Lexeme.identifier
  rw [endingAt_bind]
  rcases c with ⟨before, _ | ⟨ch, rest⟩⟩
  · simp
  · have hlen : (rest.takeWhile Lexeme.isIdentifierPart).length < fuel := by
      have hle := (List.takeWhile_prefix (l := rest) Lexeme.isIdentifierPart).length_le
      simp only [List.length_cons] at h
      omega
    have htail :
        g.endingAt fuel (.star (.satisfy Lexeme.isIdentifierPart)) ⟨ch :: before, rest⟩ = _ :=
      endingAt_star_like g fuel (fun _ => rfl) _
    rw [endingAt_satisfy_cons]
    by_cases hch : Lexeme.isIdentifierStart ch = true
    · simp [hch, htail, hlen]
    · simp [hch]

/-- `blanks` skips the longest run of blanks and never fails. -/
theorem endingAt_blanks (c : Cursor) :
    g.endingAt fuel Lexeme.blanks c =
      if (c.rest.takeWhile Text.isBlank).length < fuel then
        .returned (.success (c.skip Text.isBlank) ())
      else .exhausted := by
  unfold Lexeme.blanks
  rw [endingAt_functor_map]
  have hstar : g.endingAt fuel (.star (.satisfy Text.isBlank)) c = _ :=
    endingAt_star_like g fuel (fun _ => rfl) c
  rw [hstar]
  split <;> rfl

/-! ## Words -/

/-- `token p` is `p` with `blanks` behind it, at every fuel. -/
theorem endingAt_token (p : Parser R α) (c : Cursor) :
    g.endingAt fuel (Lexeme.token p) c =
      (g.endingAt fuel p c).andThen fun after v =>
        (g.endingAt fuel Lexeme.blanks after).andThen fun last _ =>
          .returned (.success last v) := by
  unfold Lexeme.token
  simp only [endingAt_bind, endingAt_functor_map]

/-- `token` is idempotent: `skip_skip` behind the same match of `p`. -/
theorem endingAt_token_token (p : Parser R α) (c : Cursor) :
    g.endingAt fuel (Lexeme.token (Lexeme.token p)) c = g.endingAt fuel (Lexeme.token p) c := by
  rw [endingAt_token g fuel (Lexeme.token p), endingAt_token g fuel p]
  rcases g.endingAt fuel p c with (_ | ⟨after, v⟩) | panic | _
  · rfl
  · simp only [Ending.success_andThen, endingAt_blanks]
    split
    · next hlen =>
      -- the second `blanks` finds an empty run, for which any fuel suffices but none at all
      have hnone : ((after.skip Text.isBlank).rest.takeWhile Text.isBlank).length < fuel := by
        have hnil : (after.skip Text.isBlank).rest.takeWhile Text.isBlank = [] :=
          Text.takeWhile_dropWhile _ _
        rw [hnil]
        exact Nat.zero_lt_of_lt hlen
      rw [Ending.success_andThen, Ending.success_andThen, if_pos hnone, Cursor.skip_skip,
        Ending.success_andThen]
    · rfl
  · rfl
  · rfl

/-- `token` matches where `p` does, with the value of `p`. -/
theorem exists_ending_token_iff {p : Parser R α} {c : Cursor} {v : α} :
    (∃ c', g.ending (Lexeme.token p) c = .returned (.success c' v)) ↔
      ∃ c', g.ending p c = .returned (.success c' v) := by
  simp only [ending_token, Ending.andThen_eq_success]
  constructor
  · rintro ⟨c', after, w, hp, hskip⟩
    cases hskip
    exact ⟨after, hp⟩
  · rintro ⟨after, hp⟩
    exact ⟨_, after, v, hp, rfl⟩

/-! ## All scanners -/

/-- Scanners take the longest text of their kind. Over a predicate that always answers, a repetition
takes the longest run of accepted characters and hands on the cursor behind it; asked for at least
one character, it fails where that run is empty. So digits are the longest run of digits, or fail; a
name is taken where a letter or an underscore comes next, and is then the longest one; and behind
the blanks that are skipped there is the end of the text, or a character that is not blank. Skipping
blanks behind a parser a second time changes nothing, and it matches where the parser does, with its
value. -/
theorem scanners_take_longest (level : Trace.Level) (label : String) :
    (∀ (accepts : Char → Callback Bool) (kind : Char → Bool),
      (∀ ch, (accepts ch).result = .ok (kind ch)) → ∀ (c : Cursor) (fuel : Nat),
        c.rest.length < fuel → ∃ w c', c.Takes (Text.runs kind) w c' ∧
          (g.run fuel (.star (.like accepts)) c level label).ending =
            .returned (.success c' w) ∧
          (g.run fuel (.plus (.like accepts)) c level label).ending =
            .returned (if w = [] then .failure else .success c' w)) ∧
    (∀ (c : Cursor) (fuel : Nat), c.rest.length < fuel →
      (∃ w c', c.Takes (Text.runs fun ch => '0' ≤ ch && ch ≤ '9') w c' ∧
        (g.run fuel Lexeme.digits c level label).ending =
          .returned (if w = [] then .failure else .success c' (.ofList w))) ∧
      ((∃ ch, c.peek = some ch ∧ Lexeme.OpensName ch) → ∃ w c', c.Takes Lexeme.names w c' ∧
        (g.run fuel Lexeme.identifier c level label).ending =
          .returned (.success c' (.ofList w))) ∧
      ((¬ ∃ ch, c.peek = some ch ∧ Lexeme.OpensName ch) →
        (g.run fuel Lexeme.identifier c level label).ending = .returned .failure) ∧
      ∃ w c', c.Takes Text.blanks w c' ∧
        (g.run fuel Lexeme.blanks c level label).ending = .returned (.success c' ()) ∧
        (c'.atEnd = true ∨ ∃ ch, c'.peek = some ch ∧ Text.isBlank ch = false)) ∧
    ∀ {α : Type} (p : Parser R α) (c : Cursor),
      (∀ fuel, (g.run fuel (Lexeme.token (Lexeme.token p)) c level label).ending =
        (g.run fuel (Lexeme.token p) c level label).ending) ∧
      ∀ v, (∃ c', g.ending (Lexeme.token p) c = .returned (.success c' v)) ↔
        ∃ c', g.ending p c = .returned (.success c' v) := by
  simp only [run_ending]
  refine ⟨fun accepts kind haccepts c fuel hfuel => ?_, fun c fuel hfuel => ⟨?_, ?_, ?_, ?_⟩,
    fun p c => ⟨fun fuel => g.endingAt_token_token fuel p c, fun v => g.exists_ending_token_iff⟩⟩
  · have hlen : (c.rest.takeWhile kind).length < fuel :=
      (List.takeWhile_prefix kind).length_le.trans_lt hfuel
    refine ⟨_, _, c.takes_runs kind, ?_, endingAt_plus_like g fuel haccepts hlen⟩
    rw [endingAt_star_like g fuel haccepts, if_pos hlen]
  · exact ⟨_, _, c.takes_runs Char.isDigit, g.endingAt_digits fuel hfuel⟩
  · rintro ⟨ch, hpeek, hch⟩
    rcases c with ⟨before, rest⟩
    rcases List.head?_eq_some_iff.1 hpeek with ⟨behind, rfl⟩
    refine ⟨_, _, Cursor.takes_names hch, ?_⟩
    rw [g.endingAt_identifier fuel hfuel]
    simp [Lexeme.isIdentifierStart_iff.2 hch]
  · intro hnone
    rw [g.endingAt_identifier fuel hfuel]
    rcases c with ⟨before, _ | ⟨ch, rest⟩⟩
    · rfl
    · have hch : ¬ Lexeme.isIdentifierStart ch = true :=
        fun hstart => hnone ⟨ch, rfl, Lexeme.isIdentifierStart_iff.1 hstart⟩
      simp [hch]
  · have hlen : (c.rest.takeWhile Text.isBlank).length < fuel :=
      (List.takeWhile_prefix _).length_le.trans_lt hfuel
    refine ⟨_, _, c.takes_runs Text.isBlank, ?_, ?_⟩
    · rw [endingAt_blanks, if_pos hlen]
    · have hclear : Text.Clear Text.isBlank (c.skip Text.isBlank).rest := Text.clear_dropWhile _
      generalize c.skip Text.isBlank = last at hclear ⊢
      rcases last with ⟨before, _ | ⟨ch, rest⟩⟩
      · exact .inl rfl
      · exact .inr ⟨ch, rfl, Text.clear_cons.1 hclear⟩

/-- A predicate that announces each question, and accepts what lies beyond ASCII: behind a letter,
it takes two characters of two bytes each. Behind those, a name is taken up to the blank. -/
theorem scanners_take_longest_two_bytes :
    let asked : Char → Callback Bool := fun ch => do
      Callback.announce "asked"
      pure (127 < ch.toNat)
    (∀ ch, (asked ch).result = .ok (decide (127 < ch.toNat))) ∧
    (∃ w c', Cursor.Takes ⟨['a'], ['é', 'ü', 'x']⟩ (Text.runs fun ch => 127 < ch.toNat) w c' ∧
      (Grammar.none.run 4 (.plus (.like asked)) ⟨['a'], ['é', 'ü', 'x']⟩ .off "").ending =
        .returned (.success c' w) ∧ w = ['é', 'ü'] ∧ c'.offset = 5) ∧
    ∃ w c', Cursor.Takes ⟨['ü'], ['x', '_', '1', ' ']⟩ Lexeme.names w c' ∧
      (Grammar.none.run 5 Lexeme.identifier ⟨['ü'], ['x', '_', '1', ' ']⟩ .off "").ending =
        .returned (.success c' (.ofList w)) := by
  intro asked
  have hasked : ∀ ch, (asked ch).result = .ok (decide (127 < ch.toNat)) := fun _ => rfl
  have hrun : (Grammar.none.run 4 (.star (.like asked)) ⟨['a'], ['é', 'ü', 'x']⟩ .off "").ending =
      .returned (.success ⟨['ü', 'é', 'a'], ['x']⟩ ['é', 'ü']) := by decide
  rcases scanners_take_longest Grammar.none .off "" with ⟨hpredicates, hwords, -⟩
  refine ⟨hasked, ?_, ?_⟩
  · rcases hpredicates asked _ hasked ⟨['a'], ['é', 'ü', 'x']⟩ 4 (by decide) with
      ⟨w, c', htakes, hstar, hplus⟩
    rw [hrun] at hstar
    cases hstar
    exact ⟨_, _, htakes, hplus, rfl, rfl⟩
  · have hopens : Lexeme.OpensName 'x' := by
      unfold Lexeme.OpensName
      decide
    exact (hwords ⟨['ü'], ['x', '_', '1', ' ']⟩ 5 (by decide)).2.1 ⟨'x', rfl, hopens⟩

end Grammar

end ParserCombinators
