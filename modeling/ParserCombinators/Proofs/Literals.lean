import ParserCombinators.Proofs.Equations
import ParserCombinators.Proofs.Positions

/-!
# Literals — a text is matched where the unread text starts with it

A text is matched by trying its characters one after the other. As a whole this is a test whether
the unread text starts with it, in characters and in bytes alike. Where it does not, the records
tell how far the two texts agree: the characters are tried up to the first that is not there, and
the sequence of them stops at its place.

- `Text.commonPrefix`: the characters that two texts have in common at their start
- `Journal.tried`, `Journal.stops`: the characters that were tried, and where sequences stopped
- `Action.tried_seqFrom_char`, `Action.tried_str`: what characters in a row leave behind
- `Grammar.str_is_prefix_test`: how the parser for a text ends, and what it leaves behind
-/

namespace ParserCombinators

variable {R : Type → Type}

/-! ## Common prefixes -/

namespace Text

/-- The characters that two texts have in common at their start. -/
def commonPrefix : List Char → List Char → List Char
  | x :: xs, y :: ys => if x = y then x :: commonPrefix xs ys else []
  | [], _ | _, [] => []

/-- `commonPrefix s t` is the longest text with which `s` and `t` begin. By its own induction on
both texts. -/
theorem prefix_commonPrefix_iff {w s t : List Char} :
    w <+: commonPrefix s t ↔ w <+: s ∧ w <+: t := by
  induction s, t using commonPrefix.induct generalizing w with
  | case1 xs y ys ih =>
    rw [commonPrefix, if_pos rfl]
    cases w with
    | nil => simp
    | cons c w =>
      rw [List.cons_prefix_cons, List.cons_prefix_cons, List.cons_prefix_cons, ih]
      exact and_and_left
  | case2 x xs y ys hne =>
    rw [commonPrefix, if_neg hne]
    cases w with
    | nil => simp
    | cons c w =>
      -- a first character would be that of both texts
      have hfirst : ¬ (c :: w <+: x :: xs ∧ c :: w <+: y :: ys) := by
        rw [List.cons_prefix_cons, List.cons_prefix_cons]
        rintro ⟨⟨rfl, -⟩, rfl, -⟩
        exact hne rfl
      simpa using fun hs ht => hfirst ⟨hs, ht⟩
  | case3 t =>
    rw [commonPrefix]
    exact ⟨fun h => ⟨h, h.trans List.nil_prefix⟩, And.left⟩
  | case4 s hs =>
    rw [commonPrefix]
    · exact ⟨fun h => ⟨h.trans List.nil_prefix, h⟩, And.right⟩
    · exact hs

/-- Texts that differ in their first character have nothing in common. -/
theorem commonPrefix_of_not_prefix {ch : Char} {t : List Char} (h : ¬ [ch] <+: t)
    (chars : List Char) : commonPrefix (ch :: chars) t = [] := by
  cases t with
  | nil => rfl
  | cons x t =>
    have hne : ¬ ch = x := by
      rintro rfl
      exact h (List.prefix_append [ch] t)
    rw [commonPrefix, if_neg hne]

/-- If `t` does not begin with `s`, some of `s` is left behind their common prefix. -/
theorem length_commonPrefix_lt {s t : List Char} (h : ¬ s <+: t) :
    (commonPrefix s t).length < s.length := by
  rcases prefix_commonPrefix_iff.1 (List.prefix_refl (commonPrefix s t)) with ⟨hs, ht⟩
  -- were it all of `s`, then `t`, which begins with it, would begin with `s`
  refine Nat.lt_of_not_le fun hlen => h ?_
  have hwhole : commonPrefix s t = s := hs.eq_of_length_le hlen
  rwa [hwhole] at ht

end Text

/-! ## What is tried, and where it stops -/

/-- The character that is tried, in a record that opens such a trial. -/
def Trace.Record.tried? : Trace.Record → Option Char
  | .step _ _ (.char ch) .opened => some ch
  | _ => none

/-- The number of parts before the one that failed, in a record of a sequence that did. -/
def Trace.Record.stop? : Trace.Record → Option Nat
  | .step _ _ (.seq place) .noMatch => some place
  | _ => none

namespace Journal

def tried (journal : Journal) : List Char :=
  journal.records.filterMap Trace.Record.tried?

def stops (journal : Journal) : List Nat :=
  journal.records.filterMap Trace.Record.stop?

@[simp] theorem tried_append (j k : Journal) :
    Journal.tried (j ++ k) = Journal.tried j ++ Journal.tried k := by
  simp [tried]

@[simp] theorem stops_append (j k : Journal) :
    Journal.stops (j ++ k) = Journal.stops j ++ Journal.stops k := by
  simp [stops]

end Journal

open Engine

namespace Action

/-- `readIf` at a character, for a test without effects: one record before the test and one after
it. -/
theorem readIf_of_pure {op : Trace.Operation} {accepts : Char → Callback Bool} {ch : Char}
    {b : Bool} (h : accepts ch = pure b) (before rest : List Char) (label : String) :
    let outcome : Outcome Char := if b then .success ⟨ch :: before, rest⟩ ch else .failure
    readIf op accepts ⟨before, ch :: rest⟩ .trace label =
      ⟨.returned outcome, label, [.record (.step (ch :: rest) label op .opened),
        .record (.step (ch :: rest) label op (noteOf .char outcome))]⟩ := by
  intro outcome
  show (Engine.trace _ op .opened >>= fun _ => Engine.call (accepts ch) >>= _) _ _ = _
  rw [h]
  rfl

/-- `readIf_of_pure` for `char ch` at the character `ch`. -/
theorem char_of_eq (ch : Char) (before rest : List Char) (label : String) :
    char ch ⟨before, ch :: rest⟩ .trace label =
      ⟨.returned (.success ⟨ch :: before, rest⟩ ch), label,
        [.record (.step (ch :: rest) label (.char ch) .opened),
          .record (.step (ch :: rest) label (.char ch) (.value (.char ch)))]⟩ :=
  readIf_of_pure (b := true) (by simp) before rest label

/-- `char ch` anywhere else, the end of the input included, where nothing is read. -/
theorem char_of_not_prefix {ch : Char} {c : Cursor} (h : ¬ [ch] <+: c.rest) (label : String) :
    char ch c .trace label =
      ⟨.returned .failure, label, [.record (.step c.rest label (.char ch) .opened),
        .record (.step c.rest label (.char ch) .noMatch)]⟩ := by
  rcases c with ⟨before, _ | ⟨x, rest⟩⟩
  · rfl
  · have hx : (x == ch) = false := by
      rw [beq_eq_false_iff_ne]
      rintro rfl
      exact h (List.prefix_append [x] rest)
    exact readIf_of_pure (b := false) (congrArg pure hx) before rest label

/-- Step lemma: at a character that is there, `seqFrom` goes on with the later ones. -/
theorem journal_seqFrom_of_eq (done : Nat) (ch : Char) (ps : List (Action Char))
    (before rest : List Char) (label : String) :
    (seqFrom done (char ch :: ps) ⟨before, ch :: rest⟩ .trace label).journal =
      .record (.step (ch :: rest) label (.char ch) .opened) ::
        .record (.step (ch :: rest) label (.char ch) (.value (.char ch))) ::
          (seqFrom (done + 1) ps ⟨ch :: before, rest⟩ .trace label).journal := by
  rw [seqFrom, journal_bind, char_of_eq]
  exact congrArg (_ :: _ :: ·) (journal_bind_pure _ _ .trace label)

/-- Step lemma: at a character that is not there, `seqFrom` stops and records how many are done. -/
theorem journal_seqFrom_of_not_prefix (done : Nat) {ch : Char} {c : Cursor}
    (h : ¬ [ch] <+: c.rest) (ps : List (Action Char)) (label : String) :
    (seqFrom done (char ch :: ps) c .trace label).journal =
      [.record (.step c.rest label (.char ch) .opened),
        .record (.step c.rest label (.char ch) .noMatch),
        .record (.step c.rest label (.seq done) .noMatch)] := by
  -- nothing of `ps` is run, so the records of the failure are all there is
  rw [seqFrom, journal_bind, char_of_not_prefix h]
  rfl

/-- Run lemma: `seqFrom` tries `chars` up to the first that is not there, and stops at the place of
that one. By induction on `chars`. -/
theorem tried_seqFrom_char {chars rest : List Char} (h : ¬ chars <+: rest) (done : Nat)
    (before : List Char) (label : String) :
    let shared := Text.commonPrefix chars rest
    let journal := (seqFrom done (chars.map char) ⟨before, rest⟩ .trace label).journal
    journal.tried = chars.take (shared.length + 1) ∧ journal.stops = [done + shared.length] := by
  -- one character less for each that is there, while the count of those before goes up
  induction chars generalizing done before rest with
  | nil => exact absurd List.nil_prefix h
  | cons ch chars ih =>
    intro shared journal
    by_cases hfirst : [ch] <+: rest
    · rcases hfirst with ⟨later, rfl⟩
      have hlater : ¬ chars <+: later := fun hchars => h (by simpa using hchars)
      have hshared : shared = ch :: Text.commonPrefix chars later := by
        simp [shared, Text.commonPrefix]
      have hjournal : journal = _ := journal_seqFrom_of_eq done ch _ before later label
      rcases ih hlater (done + 1) (ch :: before) with ⟨htried, hstops⟩
      rw [hjournal, hshared]
      constructor
      · exact congrArg (ch :: ·) htried
      · have hplace : done + 1 + (Text.commonPrefix chars later).length =
            done + (ch :: Text.commonPrefix chars later).length := by
          rw [List.length_cons]
          omega
        exact hstops.trans (congrArg (fun place => [place]) hplace)
    · have hshared : shared = [] := Text.commonPrefix_of_not_prefix hfirst chars
      have hjournal : journal = _ := journal_seqFrom_of_not_prefix done hfirst _ label
      rw [hjournal, hshared]
      exact ⟨rfl, rfl⟩

/-- The records that `str` adds around its sequence are neither trials nor stops. -/
theorem tried_str (text : String) (c : Cursor) (label : String) :
    (str text c .trace label).journal.tried =
        (seq (text.toList.map char) c .trace label).journal.tried ∧
      (str text c .trace label).journal.stops =
        (seq (text.toList.map char) c .trace label).journal.stops := by
  unfold str
  rw [journal_bind, Journal.tried_append, Journal.stops_append]
  cases (seq (text.toList.map char) c .trace label).ending with
  | returned | panicked | exhausted => exact ⟨List.append_nil _, List.append_nil _⟩

end Action

/-! ## Texts -/

/-- The prefix test on characters, said of strings. -/
theorem Cursor.prefix_rest_iff {text : String} {c : Cursor} :
    text.toList <+: c.rest ↔ ∃ after, c.remaining = text ++ after := by
  unfold Cursor.remaining
  constructor
  · rintro ⟨after, hrest⟩
    refine ⟨String.ofList after, String.toList_injective ?_⟩
    rw [String.toList_ofList, String.toList_append, String.toList_ofList, hrest]
  · rintro ⟨after, hremaining⟩
    refine ⟨after.toList, ?_⟩
    rw [← String.toList_append, ← hremaining, String.toList_ofList]

namespace Grammar

variable (g : Grammar R) (fuel : Nat)

/-- `str text` matches exactly the span `text`. -/
theorem endingAt_str_eq_success {text v : String} {c c' : Cursor} :
    g.endingAt fuel (.str text) c = .returned (.success c' v) ↔
      c.Spans text.toList c' ∧ v = text := by
  rcases c with ⟨before, rest⟩
  rw [endingAt_str]
  constructor
  · intro h
    by_cases hstarts : text.toList <+: rest
    · rcases hstarts with ⟨after, rfl⟩
      simp only [List.prefix_append, if_true, List.drop_left, Ending.returned.injEq,
        Outcome.success.injEq] at h
      rcases h with ⟨rfl, rfl⟩
      exact ⟨⟨rfl, rfl⟩, rfl⟩
    · simp [hstarts] at h
  · rintro ⟨hspans, rfl⟩
    rcases hspans.1 with rfl
    rw [hspans.eq_of_append]
    simp

/-- A text is matched exactly where the unread text starts with it, and then it is the value and the
cursor moves on by its bytes; everywhere else the match fails. There the characters that are tried
are those that the two texts have in common at their start, and one more, and the sequence of them
stops at the place of that one. -/
theorem str_is_prefix_test (text : String) (c : Cursor) (label : String) :
    (∀ level c' v, (g.run fuel (.str text) c level label).ending = .returned (.success c' v) ↔
      (∃ after, c.remaining = text ++ after) ∧ v = text ∧ c'.input = c.input ∧
        c'.offset = c.offset + text.utf8ByteSize) ∧
    (∀ level, (g.run fuel (.str text) c level label).ending = .returned .failure ↔
      ¬ ∃ after, c.remaining = text ++ after) ∧
    ((¬ ∃ after, c.remaining = text ++ after) →
      ∃ shared, (∀ w, w <+: shared ↔ w <+: text.toList ∧ w <+: c.rest) ∧
        (g.run fuel (.str text) c .trace label).journal.tried =
          text.toList.take (shared.length + 1) ∧
        (g.run fuel (.str text) c .trace label).journal.tried.length = shared.length + 1 ∧
        (g.run fuel (.str text) c .trace label).journal.stops = [shared.length]) := by
  simp only [run_ending, ← Cursor.prefix_rest_iff]
  refine ⟨fun _ c' v => ?_, fun _ => ?_, fun hnot => ?_⟩
  · rw [endingAt_str_eq_success, Cursor.spans_iff, Text.byteSize_toList]
    simp only [and_comm, and_left_comm]
  · rw [endingAt_str]
    by_cases hstarts : text.toList <+: c.rest <;> simp [hstarts]
  · have hrun := Action.tried_str text c label
    have hchars := Action.tried_seqFrom_char hnot 0 c.before label
    have htried : (g.run fuel (.str text) c .trace label).journal.tried = _ :=
      hrun.1.trans hchars.1
    have hstops : (g.run fuel (.str text) c .trace label).journal.stops = _ :=
      hrun.2.trans hchars.2
    have hshort : (Text.commonPrefix text.toList c.rest).length < text.toList.length :=
      Text.length_commonPrefix_lt hnot
    refine ⟨_, fun w => Text.prefix_commonPrefix_iff, htried, ?_, ?_⟩
    · rw [htried, List.length_take]
      omega
    · rw [hstops, Nat.zero_add]

/-- A text whose first character, of two bytes, is there and whose second is not: both are tried,
and the sequence stops behind the one that they have in common. -/
theorem str_is_prefix_test_two_bytes :
    (¬ ∃ after, (⟨['x'], "éa".toList⟩ : Cursor).remaining = "ébc" ++ after) ∧
    (Grammar.none.run 0 (.str "ébc") ⟨['x'], "éa".toList⟩ .trace "").ending = .returned .failure ∧
    (Grammar.none.run 0 (.str "ébc") ⟨['x'], "éa".toList⟩ .trace "").journal.tried = ['é', 'b'] ∧
    ∃ shared, (∀ w, w <+: shared ↔ w <+: "ébc".toList ∧ w <+: "éa".toList) ∧ shared.length = 1 ∧
      (Grammar.none.run 0 (.str "ébc") ⟨['x'], "éa".toList⟩ .trace "").journal.stops =
        [shared.length] := by
  have hnot : ¬ ∃ after, (⟨['x'], "éa".toList⟩ : Cursor).remaining = "ébc" ++ after := by
    rw [← Cursor.prefix_rest_iff]
    decide
  have htwo : (Grammar.none.run 0 (.str "ébc") ⟨['x'], "éa".toList⟩ .trace "").journal.tried =
      ['é', 'b'] := by decide
  rcases str_is_prefix_test Grammar.none 0 "ébc" ⟨['x'], "éa".toList⟩ "" with ⟨-, hfails, htrace⟩
  rcases htrace hnot with ⟨shared, hshared, -, hlength, hstops⟩
  rw [htwo] at hlength
  exact ⟨hnot, (hfails .trace).2 hnot, htwo, shared, hshared, (Nat.succ.inj hlength).symm, hstops⟩

end Grammar

end ParserCombinators
