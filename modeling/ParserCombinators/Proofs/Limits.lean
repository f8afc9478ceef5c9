import Mathlib.Data.Nat.Find
import ParserCombinators.Proofs.Equations

/-!
# Limits — endings without fuel

More fuel never changes a run that came to its end. So the endings of a parser at growing fuel
settle: either all of them are out of fuel, and the run goes on forever, or from some fuel on they
are one and the same. `Grammar.ending` is what they settle at. It obeys the equations of
`Grammar.endingAt` with the fuel left out; a rule ends as its body does, and a repetition ends as
one round and the repetition after it.

- `Ending.Settles`, `Ending.limit`: sequences of endings that settle, and where
- `Ending.limit_bind`: limits commute with sequels
- `Grammar.ending`: the ending of a parser, with its equations
- `Grammar.ending_eq_iff`, `Grammar.ending_eq_exhausted_iff`: ending and divergence, by fuel
-/

namespace ParserCombinators

variable {α β : Type}

namespace Ending

/-- Once the ending is not out of fuel, it stays what it is. -/
def Settles (e : Nat → Ending α) : Prop :=
  ∀ n n', n ≤ n' → e n ≠ .exhausted → e n' = e n

open Classical in
/-- The first ending that is not out of fuel, if there is one. -/
noncomputable def limit (e : Nat → Ending α) : Ending α :=
  if h : ∃ n, e n ≠ .exhausted then e (Nat.find h) else .exhausted

/-- The limit is the ending at any fuel that suffices. -/
theorem limit_eq_of_ne {e : Nat → Ending α} (he : Settles e) {n : Nat} (h : e n ≠ .exhausted) :
    limit e = e n := by
  classical
  have hex : ∃ n, e n ≠ .exhausted := ⟨n, h⟩
  -- the fuel in the definition is the least that suffices, so `n` is above it
  have hle : Nat.find hex ≤ n := Nat.find_min' hex h
  rw [limit, dif_pos hex]
  exact (he _ _ hle (Nat.find_spec hex)).symm

/-- The limit is out of fuel if every ending is. -/
theorem limit_eq_exhausted_iff {e : Nat → Ending α} (he : Settles e) :
    limit e = .exhausted ↔ ∀ n, e n = .exhausted := by
  constructor
  · intro h n
    by_contra hn
    exact hn ((limit_eq_of_ne he hn).symm.trans h)
  · intro h
    rw [limit, dif_neg (by simpa using h)]

/-- From some fuel on, `e` is `limit e`. -/
theorem exists_eq_limit {e : Nat → Ending α} (he : Settles e) :
    ∃ n, ∀ n', n ≤ n' → e n' = limit e := by
  by_cases h : ∃ n, e n ≠ .exhausted
  · rcases h with ⟨n, hn⟩
    exact ⟨n, fun n' hle => by rw [limit_eq_of_ne he hn, he n n' hle hn]⟩
  -- out of fuel from the very beginning, and for good
  · have hall : ∀ n, e n = .exhausted := by simpa using h
    exact ⟨0, fun n' _ => by rw [(limit_eq_exhausted_iff he).2 hall, hall n']⟩

/-- What `e` is from some fuel on, that is its limit. -/
theorem limit_eq_of_eventually {e : Nat → Ending α} (he : Settles e) {x : Ending α}
    (h : ∃ n, ∀ n', n ≤ n' → e n' = x) : limit e = x := by
  rcases exists_eq_limit he with ⟨n, hn⟩
  rcases h with ⟨m, hm⟩
  have hlimit : e (max n m) = limit e := hn _ (le_max_left n m)
  have hx : e (max n m) = x := hm _ (le_max_right n m)
  exact hlimit.symm.trans hx

theorem settles_const (x : Ending α) : Settles fun _ => x :=
  fun _ _ _ _ => rfl

@[simp] theorem limit_const (x : Ending α) : limit (fun _ => x) = x :=
  limit_eq_of_eventually (settles_const x) ⟨0, fun _ _ => rfl⟩

/-- Endings with sequels settle if the endings and the sequels do. -/
theorem Settles.bind {e : Nat → Ending α} (he : Settles e) {f : Nat → α → Ending β}
    (hf : ∀ a, Settles fun n => f n a) : Settles fun n => e n >>= f n := by
  intro n n' hle hne
  show (e n' >>= f n') = (e n >>= f n)
  rcases hn : e n with a | p | _
  -- the first part keeps its value when fuel is added, so it is the same sequel that settles
  · have hn' : e n' = .returned a := by rw [he n n' hle (by simp [hn]), hn]
    have hfa : f n a ≠ .exhausted := by simpa [hn] using hne
    rw [hn']
    exact hf a n n' hle hfa
  · have hn' : e n' = .panicked p := by rw [he n n' hle (by simp [hn]), hn]
    rw [hn']
    rfl
  · simp [hn] at hne

/-- The limit of `e n >>= f n` is the limit of `e` with the limits of the sequels behind it. -/
theorem limit_bind {e : Nat → Ending α} (he : Settles e) {f : Nat → α → Ending β}
    (hf : ∀ a, Settles fun n => f n a) :
    limit (fun n => e n >>= f n) = limit e >>= fun a => limit fun n => f n a := by
  apply limit_eq_of_eventually (he.bind hf)
  rcases exists_eq_limit he with ⟨n, hn⟩
  rcases hlim : limit e with a | p | _
  -- the sequel is known once the first half is; it settles at the later of the two fuels
  · rcases exists_eq_limit (hf a) with ⟨m, hm⟩
    refine ⟨max n m, fun k hk => ?_⟩
    have hek : e k = .returned a := by rw [hn k (by omega), hlim]
    have hfk : f k a = limit fun n => f n a := hm k (by omega)
    rw [hek]
    exact hfk
  · exact ⟨n, fun k hk => by rw [hn k hk, hlim]; rfl⟩
  · exact ⟨n, fun k hk => by rw [hn k hk, hlim]; rfl⟩

/-- `limit_bind` for a sequel that takes no fuel itself. -/
theorem limit_bind_const {e : Nat → Ending α} (he : Settles e) (f : α → Ending β) :
    limit (fun n => e n >>= f) = limit e >>= f := by
  rw [limit_bind he fun a => settles_const (f a)]
  simp only [limit_const]

/-- Shifting the fuel by one does not move the limit. -/
theorem limit_succ {e : Nat → Ending α} (he : Settles e) :
    limit (fun n => e (n + 1)) = limit e := by
  have hshift : Settles fun n => e (n + 1) := fun n n' hle => he (n + 1) (n' + 1) (by omega)
  rcases exists_eq_limit he with ⟨n, hn⟩
  exact limit_eq_of_eventually hshift ⟨n, fun k hk => hn (k + 1) (by omega)⟩

/-- `Settles.bind` for sequels of a match. -/
theorem Settles.andThen {e : Nat → Ending (Outcome α)} (he : Settles e)
    {f : Nat → Cursor → α → Ending (Outcome β)} (hf : ∀ c v, Settles fun n => f n c v) :
    Settles fun n => (e n).andThen (f n) := by
  refine he.bind fun outcome => ?_
  cases outcome with
  | failure => exact settles_const _
  | success c v => exact hf c v

/-- `limit_bind` for sequels of a match. -/
theorem limit_andThen {e : Nat → Ending (Outcome α)} (he : Settles e)
    {f : Nat → Cursor → α → Ending (Outcome β)} (hf : ∀ c v, Settles fun n => f n c v) :
    limit (fun n => (e n).andThen (f n)) = (limit e).andThen fun c v => limit fun n => f n c v := by
  unfold Ending.andThen
  rw [limit_bind he]
  · refine congrArg (Ending.bind _) (funext fun outcome => ?_)
    cases outcome with
    | failure => exact limit_const _
    | success c v => rfl
  · intro outcome
    cases outcome with
    | failure => exact settles_const _
    | success c v => exact hf c v

theorem limit_andThen_const {e : Nat → Ending (Outcome α)} (he : Settles e)
    (f : Cursor → α → Ending (Outcome β)) :
    limit (fun n => (e n).andThen f) = (limit e).andThen f :=
  limit_bind_const he _

/-- `limit_bind` for second attempts after a failure. -/
theorem limit_orElse {e e' : Nat → Ending (Outcome α)} (he : Settles e) (he' : Settles e') :
    limit (fun n => (e n).orElse (e' n)) = (limit e).orElse (limit e') := by
  unfold Ending.orElse
  rw [limit_bind he]
  · refine congrArg (Ending.bind _) (funext fun outcome => ?_)
    cases outcome with
    | failure => rfl
    | success c v => exact limit_const _
  · intro outcome
    cases outcome with
    | failure => exact he'
    | success c v => exact settles_const _

end Ending

open Engine Ending

variable {R : Type → Type}

namespace Grammar

/-- The endings of `p` at growing fuel settle, as `Approximates` says of its runs. -/
theorem settles_endingAt (g : Grammar R) (p : Parser R α) (c : Cursor) :
    Settles fun n => g.endingAt n p c := by
  intro n n' hle hne
  exact congrArg Step.ending (g.run_eq_of_le hle p c .off "" hne)

/-- How a parser ends at a cursor; out of fuel at every fuel means that it does not end. -/
noncomputable def ending (g : Grammar R) (p : Parser R α) (c : Cursor) : Ending (Outcome α) :=
  limit fun n => g.endingAt n p c

section Fuel

variable {g : Grammar R} {p : Parser R α} {c : Cursor}

/-- An ending at some fuel that is not out of fuel is the ending of `p`. -/
theorem ending_eq_of_ne {n : Nat} (h : g.endingAt n p c ≠ .exhausted) :
    g.ending p c = g.endingAt n p c :=
  limit_eq_of_ne (g.settles_endingAt p c) h

/-- `p` does not end at `c` if its runs are out of fuel at every fuel. -/
theorem ending_eq_exhausted_iff :
    g.ending p c = .exhausted ↔ ∀ n, g.endingAt n p c = .exhausted :=
  limit_eq_exhausted_iff (g.settles_endingAt p c)

/-- `p` ends as `e` if it does so at some fuel. -/
theorem ending_eq_iff {e : Ending (Outcome α)} (he : e ≠ .exhausted) :
    g.ending p c = e ↔ ∃ n, g.endingAt n p c = e := by
  constructor
  · intro h
    rcases exists_eq_limit (g.settles_endingAt p c) with ⟨n, hn⟩
    exact ⟨n, (hn n le_rfl).trans h⟩
  · rintro ⟨n, rfl⟩
    exact ending_eq_of_ne he

/-- `ending_eq_iff` for a run that comes back with an outcome. -/
theorem ending_eq_returned_iff {outcome : Outcome α} :
    g.ending p c = .returned outcome ↔ ∃ n, g.endingAt n p c = .returned outcome := by
  refine ending_eq_iff fun h => ?_
  cases h

end Fuel

variable (g : Grammar R)

/-! ## Equations -/

/-- The ending of a parser that takes no fuel. The equations of the primitives are instances. -/
theorem ending_of_endingAt {p : Parser R α} {c : Cursor} {e : Ending (Outcome α)}
    (h : ∀ n, g.endingAt n p c = e) : g.ending p c = e := by
  unfold ending
  simp only [h, limit_const]

@[simp] theorem ending_ok (c : Cursor) : g.ending .ok c = .returned (.success c ()) :=
  g.ending_of_endingAt fun n => g.endingAt_ok n c

@[simp] theorem ending_succeed (v : α) (c : Cursor) :
    g.ending (.succeed v) c = .returned (.success c v) :=
  g.ending_of_endingAt fun n => g.endingAt_succeed n v c

@[simp] theorem ending_endOfInput_nil (before : List Char) :
    g.ending .endOfInput ⟨before, []⟩ = .returned (.success ⟨before, []⟩ ()) :=
  g.ending_of_endingAt fun n => g.endingAt_endOfInput_nil n before

@[simp] theorem ending_endOfInput_cons (before : List Char) (ch : Char) (rest : List Char) :
    g.ending .endOfInput ⟨before, ch :: rest⟩ = .returned .failure :=
  g.ending_of_endingAt fun n => g.endingAt_endOfInput_cons n before ch rest

@[simp] theorem ending_like_nil (accepts : Char → Callback Bool) (before : List Char) :
    g.ending (.like accepts) ⟨before, []⟩ = .returned .failure :=
  g.ending_of_endingAt fun n => g.endingAt_like_nil n accepts before

@[simp] theorem ending_like_cons (accepts : Char → Callback Bool) (before : List Char)
    (ch : Char) (rest : List Char) :
    g.ending (.like accepts) ⟨before, ch :: rest⟩ =
      Ending.ofCallback (accepts ch) >>= fun accepted =>
        .returned (if accepted then .success ⟨ch :: before, rest⟩ ch else .failure) :=
  g.ending_of_endingAt fun n => g.endingAt_like_cons n accepts before ch rest

@[simp] theorem ending_satisfy_nil (accepts : Char → Bool) (before : List Char) :
    g.ending (.satisfy accepts) ⟨before, []⟩ = .returned .failure :=
  g.ending_of_endingAt fun n => g.endingAt_satisfy_nil n accepts before

@[simp] theorem ending_satisfy_cons (accepts : Char → Bool) (before : List Char)
    (ch : Char) (rest : List Char) :
    g.ending (.satisfy accepts) ⟨before, ch :: rest⟩ =
      .returned (if accepts ch then .success ⟨ch :: before, rest⟩ ch else .failure) :=
  g.ending_of_endingAt fun n => g.endingAt_satisfy_cons n accepts before ch rest

theorem ending_char (ch : Char) (c : Cursor) :
    g.ending (.char ch) c = g.ending (.satisfy (· == ch)) c := by
  unfold ending
  simp only [endingAt_char]

theorem ending_oneOf (set : String) (c : Cursor) :
    g.ending (.oneOf set) c = g.ending (.satisfy set.toList.contains) c := by
  unfold ending
  simp only [endingAt_oneOf]

/-- `str text` is a test for a prefix. -/
theorem ending_str (text : String) (before rest : List Char) :
    g.ending (.str text) ⟨before, rest⟩ =
      .returned (if text.toList <+: rest then
        .success ⟨text.toList.reverse ++ before, rest.drop text.toList.length⟩ text
        else .failure) :=
  g.ending_of_endingAt fun n => g.endingAt_str n text before rest

@[simp] theorem ending_ofOption_none (c : Cursor) :
    g.ending (.ofOption (.none : Option α)) c = .returned .failure :=
  g.ending_of_endingAt fun n => g.endingAt_ofOption_none n c

@[simp] theorem ending_ofOption_some (v : α) (c : Cursor) :
    g.ending (.ofOption (some v)) c = .returned (.success c v) :=
  g.ending_of_endingAt fun n => g.endingAt_ofOption_some n v c

@[simp] theorem ending_seqOf_zero (items : Fin 0 → Parser R α) (c : Cursor) :
    g.ending (.seqOf 0 items) c = .returned (.success c []) :=
  g.ending_of_endingAt fun n => g.endingAt_seqOf_zero n items c

/-- A sequence of `k + 1` items is the first of them and the sequence of the others. -/
theorem ending_seqOf_succ (k : Nat) (items : Fin (k + 1) → Parser R α) (c : Cursor) :
    g.ending (.seqOf (k + 1) items) c =
      (g.ending (items 0) c).andThen fun next v =>
        (g.ending (.seqOf k fun i => items i.succ) next).andThen fun last vs =>
          .returned (.success last (v :: vs)) := by
  have hrest : ∀ next (v : α), Settles fun n =>
      (g.endingAt n (.seqOf k fun i => items i.succ) next).andThen fun last vs =>
        .returned (.success last (v :: vs)) :=
    fun next v => (g.settles_endingAt _ next).andThen fun _ _ => settles_const _
  unfold ending
  simp only [endingAt_seqOf_succ]
  rw [limit_andThen (g.settles_endingAt _ c) hrest]
  refine congrArg (Ending.andThen _) (funext fun next => funext fun v => ?_)
  exact limit_andThen_const (g.settles_endingAt _ next) _

/-- `or` is `orElse` on endings. -/
theorem ending_or (left right : Parser R α) (c : Cursor) :
    g.ending (.or left right) c = (g.ending left c).orElse (g.ending right c) := by
  unfold ending
  simp only [endingAt_or]
  exact limit_orElse (g.settles_endingAt left c) (g.settles_endingAt right c)

/-- `>>=` of parsers is `andThen` on endings. -/
@[simp] theorem ending_bind (p : Parser R α) (next : α → Parser R β) (c : Cursor) :
    g.ending (p >>= next) c =
      (g.ending p c).andThen fun after v => g.ending (next v) after := by
  unfold ending
  simp only [endingAt_bind]
  exact limit_andThen (g.settles_endingAt p c) fun after v => g.settles_endingAt (next v) after

/-- `map` calls its function on the value of a match; a fault of the function ends the run. -/
theorem ending_map (p : Parser R α) (f : α → Callback β) (c : Cursor) :
    g.ending (.map p f) c =
      (g.ending p c).andThen fun after v =>
        Ending.ofCallback (f v) >>= fun w => .returned (.success after w) := by
  unfold ending
  simp only [endingAt_map]
  exact limit_andThen_const (g.settles_endingAt p c) _

@[simp] theorem ending_functor_map (f : α → β) (p : Parser R α) (c : Cursor) :
    g.ending (f <$> p) c =
      (g.ending p c).andThen fun after v => .returned (.success after (f v)) :=
  g.ending_map p _ c

/-- `option p` never fails: where `p` does, it matches nothing. -/
theorem ending_option (p : Parser R α) (c : Cursor) :
    g.ending (.option p) c =
      ((g.ending p c).andThen fun after v => .returned (.success after (some v))).orElse
        (.returned (.success c .none)) := by
  have hsome : Settles fun n =>
      (g.endingAt n p c).andThen fun after v => .returned (.success after (some v)) :=
    (g.settles_endingAt p c).andThen fun _ _ => settles_const _
  unfold ending
  simp only [endingAt_option]
  rw [limit_orElse hsome (settles_const _), limit_andThen_const (g.settles_endingAt p c),
    limit_const]

@[simp] theorem ending_named (label : String) (p : Parser R α) (c : Cursor) :
    g.ending (.named label p) c = g.ending p c := by
  unfold ending
  simp only [endingAt_named]

@[simp] theorem ending_boxed (p : Parser R α) (c : Cursor) :
    g.ending (.boxed p) c = g.ending p c := rfl

/-- A deferred parser runs its factory first, which may raise a fault. -/
theorem ending_deferred (factory : Callback Unit) (p : Parser R α) (c : Cursor) :
    g.ending (.deferred factory p) c = Ending.ofCallback factory >>= fun _ => g.ending p c := by
  unfold ending
  simp only [endingAt_deferred]
  rw [limit_bind (settles_const _) fun _ => g.settles_endingAt p c, limit_const]

/-- A rule ends as its body does: the unit of fuel of the call does not move the limit. -/
@[simp] theorem ending_rule (r : R α) (c : Cursor) :
    g.ending (.rule r) c = g.ending (g.body r) c := by
  unfold ending
  rw [← limit_succ (g.settles_endingAt (.rule r) c)]
  simp only [endingAt_rule_succ]

/-! ## Repetition -/

/-- More fuel for the rounds and more rounds do not change a loop that came to its end. -/
theorem loopAt_eq_of_le (p : Parser R α) {n n' k k' : Nat} (hn : n ≤ n') (hk : k ≤ k')
    (c : Cursor) (h : g.loopAt n p k c ≠ .exhausted) :
    g.loopAt n' p k' c = g.loopAt n p k c := by
  have hrun : ∀ c, Approximates (g.run n p c) (g.run n' p c) := fun c =>
    Parser.approximates_eval hn (fun r c => g.approximates_call hn r c) p c
  exact congrArg Step.ending ((Action.approximates_many hrun hk c).eq_of_ne .off "" h)

theorem settles_loopAt (p : Parser R α) (c : Cursor) : Settles fun n => g.loopAt n p n c :=
  fun _ _ hle => g.loopAt_eq_of_le p hle hle c

/-- Where the loop behind a repetition ends. -/
noncomputable def loop (p : Parser R α) (c : Cursor) : Ending (Cursor × List α) :=
  limit fun n => g.loopAt n p n c

theorem settles_loopAt_succ (p : Parser R α) (c : Cursor) :
    Settles fun n => g.loopAt (n + 1) p n c :=
  fun _ _ hle => g.loopAt_eq_of_le p (by omega) hle c

/-- The limit of the loop off its diagonal, with one unit of fuel more than rounds. -/
theorem limit_loopAt_succ (p : Parser R α) (c : Cursor) :
    limit (fun n => g.loopAt (n + 1) p n c) = g.loop p c := by
  apply limit_eq_of_eventually (g.settles_loopAt_succ p c)
  rcases exists_eq_limit (g.settles_loopAt p c) with ⟨n, hn⟩
  refine ⟨n, fun k hk => ?_⟩
  by_cases h : g.loopAt (k + 1) p k c = .exhausted
  · -- out of fuel off the diagonal, hence on it, which is from here on the limit
    have hdiag : g.loopAt k p k c = .exhausted := by
      by_contra hne
      exact hne ((g.loopAt_eq_of_le p (Nat.le_succ k) le_rfl c hne).symm.trans h)
    exact h.trans (hdiag.symm.trans (hn k hk))
  · have hdiag : g.loopAt (k + 1) p (k + 1) c = g.loopAt (k + 1) p k c :=
      g.loopAt_eq_of_le p le_rfl (Nat.le_succ k) c h
    exact hdiag.symm.trans (hn (k + 1) (by omega))

/-- The equation of the loop: one round of `p`, then the loop from where it ended. -/
theorem loop_eq (p : Parser R α) (c : Cursor) :
    g.loop p c =
      g.ending p c >>= fun
        | .failure => .returned (c, [])
        | .success next v => g.loop p next >>= fun found => .returned (found.1, v :: found.2) := by
  have hshift : g.loop p c = limit fun n => g.loopAt (n + 1) p (n + 1) c :=
    (limit_succ (g.settles_loopAt p c)).symm
  have hp : Settles fun n => g.endingAt (n + 1) p c :=
    fun n n' hle => g.settles_endingAt p c (n + 1) (n' + 1) (by omega)
  -- at the next fuel there is one more round; what is left to do after it runs at that fuel with
  -- one round less, off the diagonal on which the loop is defined
  rw [hshift]
  simp only [loopAt_succ]
  rw [limit_bind hp]
  · rw [limit_succ (g.settles_endingAt p c)]
    refine congrArg (Ending.bind _) (funext fun outcome => ?_)
    cases outcome with
    | failure => exact limit_const _
    | success next v =>
      show limit (fun n => g.loopAt (n + 1) p n next >>= _) = _
      rw [limit_bind_const (g.settles_loopAt_succ p next), limit_loopAt_succ]
  · intro outcome
    cases outcome with
    | failure => exact settles_const _
    | success next v => exact (g.settles_loopAt_succ p next).bind fun _ => settles_const _

/-- `star p` matches the values that the loop has found, and never fails. -/
theorem ending_star_loop (p : Parser R α) (c : Cursor) :
    g.ending (.star p) c = g.loop p c >>= fun found => .returned (.success found.1 found.2) := by
  unfold ending
  simp only [endingAt_star]
  exact limit_bind_const (g.settles_loopAt p c) _

/-- `star p` is one round and `star p` after it, or nothing. -/
theorem ending_star (p : Parser R α) (c : Cursor) :
    g.ending (.star p) c =
      ((g.ending p c).andThen fun next v =>
        (g.ending (.star p) next).andThen fun last vs =>
          .returned (.success last (v :: vs))).orElse (.returned (.success c [])) := by
  simp only [ending_star_loop]
  rw [loop_eq]
  -- both sides are read off the ending of the first round
  rcases g.ending p c with (_ | ⟨next, v⟩) | _ | _
  · rfl
  · rw [success_andThen]
    show ((g.loop p next >>= _) >>= _) = _
    rcases g.loop p next with ⟨last, vs⟩ | _ | _ <;> rfl
  · rfl
  · rfl

/-- `plus p` is one round and `star p` after it. -/
theorem ending_plus (p : Parser R α) (c : Cursor) :
    g.ending (.plus p) c =
      (g.ending p c).andThen fun next v =>
        (g.ending (.star p) next).andThen fun last vs => .returned (.success last (v :: vs)) := by
  have hrest : ∀ next (v : α), Settles fun n =>
      g.loopAt n p n next >>= fun found => .returned (Outcome.success found.1 (v :: found.2)) :=
    fun next v => (g.settles_loopAt p next).bind fun _ => settles_const _
  have hplus : g.ending (.plus p) c =
      limit fun n => (g.endingAt n p c).andThen fun next v =>
        g.loopAt n p n next >>= fun found => .returned (.success found.1 (v :: found.2)) := by
    unfold ending
    simp only [endingAt_plus]
  -- the loop behind the first round is a repetition of its own
  rw [hplus, limit_andThen (g.settles_endingAt p c) hrest]
  refine congrArg (Ending.andThen _) (funext fun next => funext fun v => ?_)
  rw [limit_bind_const (g.settles_loopAt p next), ending_star_loop]
  show (g.loop p next >>= _) = _
  rcases g.loop p next with _ | _ | _ <;> rfl

end Grammar

end ParserCombinators
