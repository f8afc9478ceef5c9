import ParserCombinators.Proofs.Expressions
import ParserCombinators.Proofs.Matches
import ParserCombinators.Proofs.Termination

/-!
# Evaluation — the arithmetic grammar reads expression trees

The parsers of the three levels take exactly the texts of the trees of their level, and compute what
the evaluation of the tree computes. The parsers never look back over what they took; that they lose
no tree by it is because the character behind an operand tells whether it goes on.

- `Ending.ofCheck`: the ending of a parser that evaluates
- `Level.parser`, `Level.continues`: the parser of a level, and what can follow its trees only as a
  part of them
- `Arithmetic.ending_rendering`: each text of a tree is taken, and evaluated as the tree is
- `Arithmetic.ensures_expression`: what is taken is a text of a tree that evaluates to the result
- `Arithmetic.evaluate_decides`: the two together, for whole texts
-/

namespace ParserCombinators

variable {α β : Type}

/-! ## Evaluations as endings -/

namespace Ending

/-- The ending of a parser that stands at `c` and evaluates. -/
def ofCheck (c : Cursor) : Except Fault α → Ending (Outcome α)
  | .ok v => .returned (.success c v)
  | .error fault => .panicked (.fault fault)

/-- `ofCheck` turns `>>=` of checks into `andThen` of endings: a fault stops both at the same
place. -/
theorem ofCheck_andThen {c c' : Cursor} {x : Except Fault α} {f : α → Except Fault β}
    {next : Cursor → α → Ending (Outcome β)} (h : ∀ v, next c v = ofCheck c' (f v)) :
    (ofCheck c x).andThen next = ofCheck c' (x >>= f) := by
  cases x with
  | error fault => rfl
  | ok v => exact h v

/-- A check matches or panics; it never fails, so no alternative is tried. -/
theorem ofCheck_orElse (c : Cursor) (x : Except Fault α) (alternative : Ending (Outcome α)) :
    (ofCheck c x).orElse alternative = ofCheck c x := by
  cases x with
  | error fault => rfl
  | ok v => rfl

/-- A call on the value of a match, as a check. -/
theorem ofCallback_bind_success (c : Cursor) (callback : Callback α) :
    (ofCallback callback >>= fun v => .returned (.success c v)) = ofCheck c callback.result := by
  rcases callback with ⟨events, fault | v⟩
  · rfl
  · rfl

end Ending

namespace Callback

/-- The result of a call in two steps does not depend on the events of the first. -/
theorem result_bind (x : Callback α) (f : α → Callback β) :
    (x >>= f).result = x.result >>= fun a => (f a).result := by
  rcases x with ⟨events, fault | a⟩
  · rfl
  · rfl

/-- The results of a fold of calls are the fold of their results. Induction on the list. -/
theorem result_foldlM {step : β → α → Callback β} {step' : β → α → Except Fault β}
    (hstep : ∀ b a, (step b a).result = step' b a) (as : List α) (b : β) :
    (as.foldlM step b).result = as.foldlM step' b := by
  induction as generalizing b with
  | nil => rfl
  | cons a as ih =>
    rw [List.foldlM_cons, List.foldlM_cons, result_bind, hstep]
    exact congrArg _ (funext fun b => ih b)

end Callback

open Cursor (Between)

namespace Arithmetic

/-- The range of `represent` is the range of `Decimal.fit?`. -/
theorem represent_eq (overflow : Fault) (exact : Int) :
    represent overflow exact =
      match Decimal.fit? exact with
      | some n => .ok n
      | none => .error overflow := by
  by_cases hrange : -2 ^ 63 ≤ exact ∧ exact < 2 ^ 63
  · have hin : Decimal.inRange exact = true := by
      rw [Decimal.inRange, Bool.and_eq_true, decide_eq_true_eq, decide_eq_true_eq]
      exact hrange
    rw [represent, if_pos hrange, Decimal.fit?, if_pos hin]
  · have hout : ¬ Decimal.inRange exact = true := by
      rw [Decimal.inRange, Bool.and_eq_true, decide_eq_true_eq, decide_eq_true_eq]
      exact hrange
    rw [represent, if_neg hrange, Decimal.fit?, if_neg hout]

/-- `Callback.add` announces nothing and computes `checkedSum`. -/
theorem result_add (a b : Int64) : (Callback.add a b).result = checkedSum a b := by
  rw [checkedSum, represent_eq, Callback.add, Decimal.add?]
  cases Decimal.fit? (a.toInt + b.toInt) with
  | none => rfl
  | some n => rfl

theorem result_mul (a b : Int64) : (Callback.mul a b).result = checkedProduct a b := by
  rw [checkedProduct, represent_eq, Callback.mul, Decimal.mul?]
  cases Decimal.fit? (a.toInt * b.toInt) with
  | none => rfl
  | some n => rfl

/-- A term multiplies from the left, beginning with its first factor. -/
theorem result_product (a : Int64) (bs : List Int64) :
    (product a bs).result = bs.foldlM checkedProduct a :=
  Callback.result_foldlM result_mul bs a

/-- An expression sums the later terms from zero and adds the first one last, as `Tree.check`
does. -/
theorem result_total (a : Int64) (bs : List Int64) :
    (total a bs).result = bs.foldlM checkedSum 0 >>= checkedSum a := by
  have hlater : (bs.foldlM Callback.add 0).result = bs.foldlM checkedSum 0 :=
    Callback.result_foldlM result_add bs 0
  rw [total, Callback.result_bind, hlater]
  exact congrArg _ (funext fun later => result_add a later)

/-! ## The parsers of the levels -/

def Level.parser : Level → Parser Rule Int64
  | .factor => Arithmetic.factor (.rule .expression)
  | .term => Arithmetic.term (.rule .expression)
  | .expression => Arithmetic.expression (.rule .expression)

/-- The one rule, unfolded once. -/
theorem ending_rule_expression (c : Cursor) :
    grammar.ending (.rule .expression) c = grammar.ending Level.expression.parser c :=
  grammar.ending_rule .expression c

/-- An integer, or else brackets around an expression of any value. -/
theorem ending_factor (c : Cursor) :
    grammar.ending Level.factor.parser c =
      (grammar.ending (Lexeme.token Lexeme.integer) c).orElse
        ((grammar.ending (Lexeme.token (.char '(')) c).andThen fun opened _ =>
          (grammar.ending Level.expression.parser opened).andThen fun inside v =>
            (grammar.ending (Lexeme.token (.char ')')) inside).andThen fun closed _ =>
              .returned (.success closed v)) := by
  show grammar.ending (factor (.rule .expression)) c = _
  unfold factor
  simp only [Grammar.ending_boxed, Grammar.ending_or, Grammar.ending_bind,
    Grammar.ending_functor_map, ending_rule_expression]

/-- A factor, the later factors, and then what they come to; the product is computed last. -/
theorem ending_term (c : Cursor) :
    grammar.ending Level.term.parser c =
      (grammar.ending Level.factor.parser c).andThen fun after a =>
        (grammar.ending (operands '*' Level.factor.parser) after).andThen fun last bs =>
          Ending.ofCheck last (bs.foldlM checkedProduct a) := by
  show grammar.ending (term (.rule .expression)) c = _
  unfold term
  simp only [Grammar.ending_boxed, Grammar.ending_named, Grammar.ending_bind, Grammar.ending_map,
    Ending.ofCallback_bind_success, result_product]
  rfl

/-- The same with terms and sums. -/
theorem ending_expression (c : Cursor) :
    grammar.ending Level.expression.parser c =
      (grammar.ending Level.term.parser c).andThen fun after a =>
        (grammar.ending (operands '+' Level.term.parser) after).andThen fun last bs =>
          Ending.ofCheck last (bs.foldlM checkedSum 0 >>= checkedSum a) := by
  show grammar.ending (expression (.rule .expression)) c = _
  unfold expression
  simp only [Grammar.ending_boxed, Grammar.ending_named, Grammar.ending_bind, Grammar.ending_map,
    Ending.ofCallback_bind_success, result_total]
  rfl

/-! ## Every text of a tree is taken -/

/-- The characters that stand behind a tree of the level only as a part of it. -/
def Level.continues : Level → Char → Bool
  | .factor, ch => Text.isBlank ch || ch.isDigit
  | .term, ch => Text.isBlank ch || ch.isDigit || ch == '*'
  | .expression, ch => Text.isBlank ch || ch.isDigit || ch == '*' || ch == '+'

variable {level : Level}

/-- Blanks go with the word before them at every level. -/
theorem clear_isBlank {after : List Char} (h : Text.Clear level.continues after) :
    Text.Clear Text.isBlank after := by
  refine h.mono fun ch hch => ?_
  cases level <;> simp [Level.continues, hch]

/-- Behind a tree of operands, neither its last operand goes on nor does the next operator stand. -/
theorem clear_operand {above : Level} {sign : Char}
    (habove : ∀ ch, above.continues ch = (level.continues ch || ch == sign)) {after : List Char}
    (h : Text.Clear above.continues after) :
    Text.Clear level.continues after ∧ Text.Clear (· == sign) after := by
  constructor
  · refine h.mono fun ch hch => ?_
    rw [habove, hch, Bool.true_or]
  · refine h.mono fun ch hch => ?_
    rw [habove, hch, Bool.or_true]

/-- A numeral begins with a digit or a minus sign. -/
theorem unindented_of_numerals {n : Int64} {w : List Char} (h : w ∈ Lexeme.numerals n) :
    Text.Unindented w := by
  rcases h with ⟨digits, ⟨hnil, hdigits⟩, ⟨rfl, -⟩ | ⟨rfl, -⟩⟩
  · cases w with
    | nil => exact absurd rfl hnil
    | cons d ds => exact ⟨d, ds, rfl, Text.isBlank_eq_false_of_isDigit (hdigits d (by simp))⟩
  · exact ⟨'-', digits, rfl, by decide⟩

/-- The texts of a tree begin with a character that is not blank. Induction over the tree. -/
theorem Tree.unindented (t : Tree level) {text : List Char} (h : text ∈ t.renderings) :
    Text.Unindented text := by
  induction t using Tree.induct generalizing text with
  | number n =>
    rw [renderings] at h
    exact Text.unindented_of_mem_words (fun _ => unindented_of_numerals) h
  | bracketed inside ih =>
    rw [renderings, mul_assoc] at h
    rcases Language.mem_mul.1 h with ⟨opened, hopened, more, -, rfl⟩
    rcases Text.mem_words_singleton.1 hopened with ⟨spaces, -, rfl⟩
    exact ⟨'(', spaces ++ more, rfl, by decide⟩
  | product first rest ihfirst ihrest | sum first rest ihfirst ihrest =>
    rw [renderings] at h
    rcases Language.mem_mul.1 h with ⟨w, hw, more, -, rfl⟩
    exact (ihfirst hw).append more

theorem Tree.clear_rendering (t : Tree level) {text : List Char} (h : text ∈ t.renderings)
    (after : List Char) : Text.Clear Text.isBlank (text ++ after) :=
  ((t.unindented h).append after).clear

def laterRenderings (sign : Char) (ts : List (Tree level)) : Language Char :=
  (ts.map fun t => Text.words {[sign]} * t.renderings).prod

/-- Later operands begin with their operator, which is not of the kind, so they do not go on what is
before. -/
theorem clear_laterRenderings {sign : Char} {kind : Char → Bool} (hsign : kind sign = false)
    {ts : List (Tree level)} {text after : List Char} (h : text ∈ laterRenderings sign ts)
    (hafter : Text.Clear kind after) : Text.Clear kind (text ++ after) := by
  cases ts with
  | nil =>
    have hnil : text = [] := h
    rw [hnil]
    exact hafter
  | cons t ts =>
    rw [laterRenderings, List.map_cons, List.prod_cons, mul_assoc] at h
    rcases Language.mem_mul.1 h with ⟨w, hw, more, -, rfl⟩
    rcases Text.mem_words_singleton.1 hw with ⟨spaces, -, rfl⟩
    exact Text.clear_cons.2 hsign

/-- The parser of the level takes each text of the tree, where the tree cannot go on, and evaluates
it as the tree is evaluated. -/
def Tree.IsRead (t : Tree level) : Prop :=
  ∀ text ∈ t.renderings, ∀ after, Text.Clear level.continues after → ∀ before,
    grammar.ending level.parser ⟨before, text ++ after⟩ =
      Ending.ofCheck ⟨text.reverse ++ before, after⟩ t.check

/-- Later operands are taken one after the other, up to where no operator follows. Induction on the
trees. -/
theorem ending_operands_rendering {sign : Char} (hsign : level.continues sign = false)
    {ts : List (Tree level)} (hts : ∀ t ∈ ts, t.IsRead) {text after : List Char}
    (htext : text ∈ laterRenderings sign ts) (hafter : Text.Clear level.continues after)
    (hstop : Text.Clear (· == sign) after) (before : List Char) :
    grammar.ending (operands sign level.parser) ⟨before, text ++ after⟩ =
      Ending.ofCheck ⟨text.reverse ++ before, after⟩ (ts.mapM fun t => t.check) := by
  induction ts generalizing text before with
  | nil =>
    -- no operator follows, so the loop stops where it stands
    have hnil : text = [] := htext
    subst hnil
    unfold operands
    rw [Grammar.ending_star, Grammar.ending_bind, List.nil_append,
      grammar.ending_token_char_of_clear hstop]
    rfl
  | cons t ts ih =>
    rw [laterRenderings, List.map_cons, List.prod_cons, mul_assoc] at htext
    rcases Language.mem_mul.1 htext with ⟨w, hw, more, hmore, rfl⟩
    rcases Text.mem_words_singleton.1 hw with ⟨spaces, hspaces, rfl⟩
    rcases Language.mem_mul.1 hmore with ⟨operand, hoperand, later, hlater, rfl⟩
    -- no blank begins an operand, so all blanks behind the operator go with it; behind the operand
    -- is the next operator, or what is behind all of them
    have hclear : Text.Clear Text.isBlank (operand ++ (later ++ after)) :=
      t.clear_rendering hoperand _
    have hfirst : ∀ before, grammar.ending level.parser ⟨before, operand ++ (later ++ after)⟩ =
        Ending.ofCheck ⟨operand.reverse ++ before, later ++ after⟩ t.check :=
      hts t (by simp) operand hoperand _ (clear_laterRenderings hsign hlater hafter)
    have hrest : ∀ before, grammar.ending (operands sign level.parser) ⟨before, later ++ after⟩ =
        Ending.ofCheck ⟨later.reverse ++ before, after⟩ (ts.mapM fun t => t.check) :=
      ih (fun t ht => hts t (by simp [ht])) hlater
    have htake : sign :: spaces ++ (operand ++ later) ++ after =
        sign :: (spaces ++ (operand ++ (later ++ after))) := by simp
    unfold operands at hrest ⊢
    rw [Grammar.ending_star, Grammar.ending_bind, htake,
      Grammar.ending_token_char grammar hspaces hclear, Ending.success_andThen, hfirst,
      List.mapM_cons]
    have hcursor : ∀ before, (⟨later.reverse ++ (operand.reverse ++ ((sign :: spaces).reverse ++
        before)), after⟩ : Cursor) =
        ⟨(sign :: spaces ++ (operand ++ later)).reverse ++ before, after⟩ := by simp
    -- the operand, then the later ones, in the order in which a list is evaluated
    rw [Ending.ofCheck_andThen fun v => ?_, Ending.ofCheck_orElse]
    rw [hrest, hcursor]
    exact Ending.ofCheck_andThen fun vs => rfl

/-- Both joining levels at once: `hp` is `ending_term` or `ending_expression`, and `fold` what it
computes. -/
theorem ending_joined_rendering {p : Parser Rule Int64} {sign : Char}
    {fold : Int64 → List Int64 → Except Fault Int64}
    (hp : ∀ c, grammar.ending p c =
      (grammar.ending level.parser c).andThen fun after a =>
        (grammar.ending (operands sign level.parser) after).andThen fun last bs =>
          Ending.ofCheck last (fold a bs))
    (hsign : level.continues sign = false) {first : Tree level} {rest : List (Tree level)}
    (hfirst : first.IsRead) (hrest : ∀ t ∈ rest, t.IsRead) {text after : List Char}
    (htext : text ∈ first.renderings * laterRenderings sign rest)
    (hafter : Text.Clear level.continues after) (hstop : Text.Clear (· == sign) after)
    (before : List Char) :
    grammar.ending p ⟨before, text ++ after⟩ =
      Ending.ofCheck ⟨text.reverse ++ before, after⟩ (do
        let a ← first.check
        let bs ← rest.mapM fun t => t.check
        fold a bs) := by
  rcases Language.mem_mul.1 htext with ⟨operand, hoperand, later, hlater, rfl⟩
  have hread : grammar.ending level.parser ⟨before, operand ++ (later ++ after)⟩ =
      Ending.ofCheck ⟨operand.reverse ++ before, later ++ after⟩ first.check :=
    hfirst operand hoperand _ (clear_laterRenderings hsign hlater hafter) before
  have hmore : ∀ before, grammar.ending (operands sign level.parser) ⟨before, later ++ after⟩ =
      Ending.ofCheck ⟨later.reverse ++ before, after⟩ (rest.mapM fun t => t.check) :=
    ending_operands_rendering hsign hrest hlater hafter hstop
  have hcursor : (operand ++ later).reverse ++ before =
      later.reverse ++ (operand.reverse ++ before) := by simp
  rw [hp, List.append_assoc, hread, hcursor]
  refine Ending.ofCheck_andThen fun a => ?_
  rw [hmore]
  exact Ending.ofCheck_andThen fun bs => rfl

/-- The first alternative of a factor fails on a bracket. -/
theorem ending_integer_bracket (before rest : List Char) :
    grammar.ending (Lexeme.token Lexeme.integer) ⟨before, '(' :: rest⟩ = .returned .failure := by
  have hinteger : grammar.ending Lexeme.integer ⟨before, '(' :: rest⟩ = .returned .failure := by
    rw [Grammar.ending_integer]
    simp [Lexeme.integerAt]
  rw [Grammar.ending_token, hinteger, Ending.failure_andThen]

/-- The digits end where no digit follows; the blanks behind them go with the token. -/
theorem isRead_number (n : Int64) : (Tree.number n).IsRead := by
  intro text htext after hafter before
  rw [Tree.renderings] at htext
  rcases Text.mem_words.1 htext with ⟨w, hw, spaces, hspaces, rfl⟩
  have hdigit : Text.Clear Char.isDigit after :=
    hafter.mono fun ch hch => by simp [Level.continues, hch]
  have hblank : Text.Clear Text.isBlank after := clear_isBlank hafter
  have hkind : ∀ ch, Text.isBlank ch = true → ch.isDigit = false := by
    intro ch hch
    by_contra hne
    simp [Text.isBlank_eq_false_of_isDigit (by simpa using hne)] at hch
  have htoken : grammar.ending (Lexeme.token Lexeme.integer) ⟨before, (w ++ spaces) ++ after⟩ =
      .returned (.success ⟨(w ++ spaces).reverse ++ before, after⟩ n) :=
    Grammar.Reads.token hspaces hkind (fun rest => grammar.ending_integer_numeral hw) after
      ⟨hdigit, hblank⟩ before
  rw [ending_factor, htoken, Ending.success_orElse, Tree.check]
  rfl

/-- Brackets are transparent for the evaluation. -/
theorem isRead_bracketed {inside : Tree .expression} (hinside : inside.IsRead) :
    (Tree.bracketed inside).IsRead := by
  intro text htext after hafter before
  rw [Tree.renderings, mul_assoc] at htext
  rcases Language.mem_mul.1 htext with ⟨opened, hopened, more, hmore, rfl⟩
  rcases Text.mem_words_singleton.1 hopened with ⟨spaces, hspaces, rfl⟩
  rcases Language.mem_mul.1 hmore with ⟨body, hbody, closed, hclosed, rfl⟩
  rcases Text.mem_words_singleton.1 hclosed with ⟨spaces', hspaces', rfl⟩
  have htake : '(' :: spaces ++ (body ++ ')' :: spaces') ++ after =
      '(' :: (spaces ++ (body ++ ')' :: (spaces' ++ after))) := by simp
  have hclear : Text.Clear Text.isBlank (body ++ ')' :: (spaces' ++ after)) :=
    inside.clear_rendering hbody _
  have hblank : Text.Clear Text.isBlank after := clear_isBlank hafter
  have hread : ∀ before, grammar.ending Level.expression.parser
      ⟨before, body ++ ')' :: (spaces' ++ after)⟩ =
        Ending.ofCheck ⟨body.reverse ++ before, ')' :: (spaces' ++ after)⟩ inside.check :=
    hinside body hbody _ (Text.clear_cons.2 (by decide))
  -- a bracket begins no integer, so the first alternative fails
  rw [htake, ending_factor, ending_integer_bracket, Ending.failure_orElse,
    Grammar.ending_token_char grammar hspaces hclear, Ending.success_andThen, hread, Tree.check]
  -- what the brackets hold may fault; if it does not, its value goes through unchanged
  cases inside.check with
  | error fault => rfl
  | ok v =>
    show ((grammar.ending (Lexeme.token (.char ')')) _).andThen _) = _
    rw [Grammar.ending_token_char grammar hspaces' hblank]
    simp [Ending.ofCheck]

/-- Every text of a tree is taken and evaluated as the tree is. Induction over the tree. -/
theorem ending_rendering (t : Tree level) : t.IsRead := by
  induction t using Tree.induct with
  | number n => exact isRead_number n
  | bracketed inside ih => exact isRead_bracketed ih
  | product first rest ihfirst ihrest =>
    intro text htext after hafter before
    rw [Tree.renderings] at htext
    rw [Tree.check]
    have hclear : Text.Clear Level.factor.continues after ∧ Text.Clear (· == '*') after :=
      clear_operand (fun _ => rfl) hafter
    exact ending_joined_rendering ending_term (by decide) ihfirst ihrest htext hclear.1 hclear.2
      before
  | sum first rest ihfirst ihrest =>
    intro text htext after hafter before
    rw [Tree.renderings] at htext
    rw [Tree.check]
    have hclear : Text.Clear Level.term.continues after ∧ Text.Clear (· == '+') after :=
      clear_operand (fun _ => rfl) hafter
    exact ending_joined_rendering ending_expression (by decide) ihfirst ihrest htext hclear.1
      hclear.2 before

/-! ## Only texts of trees are taken -/

def spellings (level : Level) (v : Int64) : Language Char :=
  {text | ∃ t : Tree level, text ∈ t.renderings ∧ t.check = .ok v}

/-- The panic is an overflow in the evaluation of a tree that is written somewhere in the text. -/
def OverflowIn (text : List Char) (panic : Panic) : Prop :=
  ∃ fault, panic = .fault fault ∧ ∃ (level : Level) (t : Tree level), ∃ part ∈ t.renderings,
    part <:+: text ∧ t.check = .error fault

/-- An overflow in what is left of a text is one in the text. -/
theorem OverflowIn.of_suffix {text text' : List Char} {panic : Panic} (h : text' <:+ text)
    (hpanic : OverflowIn text' panic) : OverflowIn text panic := by
  rcases hpanic with ⟨fault, rfl, level, t, part, hpart, hin, hcheck⟩
  exact ⟨fault, rfl, level, t, part, hpart, hin.trans h.isInfix, hcheck⟩

/-- The parser of the level takes only texts of trees at the cursor. -/
def SoundAt (level : Level) (c : Cursor) : Prop :=
  (grammar.ending level.parser c).Ensures (fun c' v => Between (spellings level v) c c')
    (OverflowIn c.rest)

/-- Texts of later operands with their values are texts of trees that evaluate to them. Induction on
the values. -/
theorem exists_laterRenderings {sign : Char} {bs : List Int64} {text : List Char}
    (h : text ∈ (bs.map fun b => Text.words {[sign]} * spellings level b).prod) :
    ∃ ts : List (Tree level), text ∈ laterRenderings sign ts ∧
      (ts.mapM fun t => t.check) = .ok bs := by
  induction bs generalizing text with
  | nil => exact ⟨[], h, rfl⟩
  | cons b bs ih =>
    rw [List.map_cons, List.prod_cons, mul_assoc] at h
    rcases Language.mem_mul.1 h with ⟨opened, hopened, more, hmore, rfl⟩
    rcases Language.mem_mul.1 hmore with ⟨operand, ⟨t, ht, hcheck⟩, later, hlater, rfl⟩
    rcases ih hlater with ⟨ts, hts, hchecks⟩
    refine ⟨t :: ts, ?_, ?_⟩
    · rw [laterRenderings, List.map_cons, List.prod_cons, mul_assoc]
      exact Language.append_mem_mul hopened (Language.append_mem_mul ht hts)
    · rw [List.mapM_cons, hcheck, hchecks]
      rfl

/-- What the loop takes are later operands. `hoperand` is asked on texts up to length `n` only, as
the loop never reads more. -/
theorem ensures_operands (sign : Char) {n : Nat}
    (hoperand : ∀ c : Cursor, c.rest.length ≤ n → SoundAt level c) (c : Cursor)
    (hc : c.rest.length ≤ n) :
    (grammar.ending (operands sign level.parser) c).Ensures
      (fun c' bs => ∃ ts : List (Tree level), Between (laterRenderings sign ts) c c' ∧
        (ts.mapM fun t => t.check) = .ok bs) (OverflowIn c.rest) := by
  have hround : ∀ c : Cursor, c.rest.length ≤ n →
      (grammar.ending (do
        let _ ← Lexeme.token (.char sign)
        level.parser) c).Ensures
        (fun c' b => Between (Text.words {[sign]} * spellings level b) c c')
        (OverflowIn c.rest) := by
    intro c hc
    rw [Grammar.ending_bind]
    refine (grammar.ensures_token_char sign _ c).andThen fun opened _ hopened => ?_
    have hlen : opened.rest.length ≤ n := hopened.suffix.length_le.trans hc
    exact (hoperand opened hlen).mono (fun c' b hb => hopened.append hb)
      fun _ => OverflowIn.of_suffix hopened.suffix
  have hstar := grammar.ensures_star (P := fun c => OverflowIn c.rest)
    (fun _ => Text.nil_notMem_words_mul) OverflowIn.of_suffix hround c hc
  -- the values come with languages; the trees behind them have to be collected
  refine hstar.mono (fun c' bs hbs => ?_) fun _ h => h
  rcases hbs with ⟨text, htext, hrest⟩
  rcases exists_laterRenderings htext with ⟨ts, hts, hchecks⟩
  exact ⟨ts, ⟨text, hts, hrest⟩, hchecks⟩

/-- Operands between operators are a tree of the level above, for both joining levels: `node` is the
constructor. -/
theorem soundAt_joined {above : Level} {sign : Char}
    {fold : Int64 → List Int64 → Except Fault Int64}
    (hp : ∀ c, grammar.ending above.parser c =
      (grammar.ending level.parser c).andThen fun after a =>
        (grammar.ending (operands sign level.parser) after).andThen fun last bs =>
          Ending.ofCheck last (fold a bs))
    {node : Tree level → List (Tree level) → Tree above}
    (hrenderings : ∀ first rest,
      (node first rest).renderings = first.renderings * laterRenderings sign rest)
    (hcheck : ∀ first rest, (node first rest).check = do
      let a ← first.check
      let bs ← rest.mapM fun t => t.check
      fold a bs)
    {n : Nat} (hoperand : ∀ c : Cursor, c.rest.length ≤ n → SoundAt level c) (c : Cursor)
    (hc : c.rest.length ≤ n) : SoundAt above c := by
  unfold SoundAt
  rw [hp]
  refine (hoperand c hc).andThen fun after a ha => ?_
  have hlen : after.rest.length ≤ n := ha.suffix.length_le.trans hc
  have hlater := (ensures_operands sign hoperand after hlen).mono (fun _ _ h => h)
    fun _ => OverflowIn.of_suffix ha.suffix
  refine hlater.andThen fun last bs hbs => ?_
  rcases ha with ⟨text, ⟨first, htext, hfirst⟩, hrest⟩
  rcases hbs with ⟨ts, ⟨more, hmore, hrest'⟩, hchecks⟩
  have hwhole : c.rest = (text ++ more) ++ last.rest := by
    rw [hrest, hrest', List.append_assoc]
  have hmem : text ++ more ∈ (node first ts).renderings := by
    rw [hrenderings]
    exact Language.append_mem_mul htext hmore
  have heval : (node first ts).check = fold a bs := by
    rw [hcheck, hfirst, hchecks]
    rfl
  -- the fold runs after all operands were read, so its overflow is one of this very tree
  cases hfold : fold a bs with
  | ok v => exact .returned ⟨text ++ more, ⟨node first ts, hmem, heval.trans hfold⟩, hwhole⟩
  | error fault =>
    refine .panicked ⟨fault, rfl, above, node first ts, text ++ more, hmem, ?_, heval.trans hfold⟩
    rw [hwhole]
    exact (List.prefix_append _ _).isInfix

/-- A factor, given that expressions are sound on shorter texts. -/
theorem soundAt_factor (c : Cursor)
    (hinner : ∀ c' : Cursor, c'.rest.length < c.rest.length → SoundAt .expression c') :
    SoundAt .factor c := by
  unfold SoundAt
  rw [ending_factor]
  refine .orElse ?_ ?_
  · have hinteger := grammar.ensures_token (grammar.ensures_integer (OverflowIn c.rest) c)
    refine hinteger.mono (fun c' n hn => ?_) fun _ h => h
    refine hn.mono fun text htext => ⟨.number n, ?_, ?_⟩
    · rwa [Tree.renderings]
    · rw [Tree.check]
  · refine (grammar.ensures_token_char '(' _ c).andThen fun opened _ hopened => ?_
    have hshort : opened.rest.length < c.rest.length := hopened.length_lt Text.nil_notMem_words
    have hbody := (hinner opened hshort).mono (fun _ _ h => h)
      fun _ => OverflowIn.of_suffix hopened.suffix
    refine hbody.andThen fun inside v hv => ?_
    refine (grammar.ensures_token_char ')' _ inside).andThen fun closed _ hclosed => .returned ?_
    refine ((hopened.append hv).append hclosed).mono fun text htext => ?_
    rcases Language.mem_mul.1 htext with ⟨most, hmost, last, hlast, rfl⟩
    rcases Language.mem_mul.1 hmost with ⟨start, hstart, body, ⟨t, ht, hcheck⟩, rfl⟩
    refine ⟨.bracketed t, ?_, ?_⟩
    · rw [Tree.renderings]
      exact Language.append_mem_mul (Language.append_mem_mul hstart ht) hlast
    · rwa [Tree.check]

/-- What is taken as an expression is a text of a tree that evaluates to the result, and an overflow
is one of a tree that is written in the text. Strong induction on the length of the unread text. -/
theorem ensures_expression (c : Cursor) : SoundAt .expression c := by
  -- an expression between brackets is shorter than the brackets with it
  induction hlen : c.rest.length using Nat.strong_induction_on generalizing c with
  | _ n ih =>
    have hfactor : ∀ c : Cursor, c.rest.length ≤ n → SoundAt .factor c := fun c hc =>
      soundAt_factor c fun c' hc' => ih _ (hc'.trans_le hc) c' rfl
    have hterm : ∀ c : Cursor, c.rest.length ≤ n → SoundAt .term c :=
      soundAt_joined ending_term (fun _ _ => by rw [Tree.renderings]; rfl)
        (fun _ _ => by rw [Tree.check]) hfactor
    exact soundAt_joined ending_expression (fun _ _ => by rw [Tree.renderings]; rfl)
      (fun _ _ => by rw [Tree.check]) hterm c hlen.le

/-! ## Whole texts -/

def documents (t : Tree .expression) : Language Char :=
  Text.blanks * t.renderings

theorem evaluate_eq_answer (text : String) :
    evaluate text = grammar.answer (.rule .expression) text := rfl

/-- The fuel of `evaluate` is enough: the grammar is solid, see
`Grammar.endingAt_fuelFor_ne_exhausted`. -/
theorem ends_alone (text : String) :
    grammar.endingAt (grammar.fuelFor (.ofText text)) (Grammar.alone (.rule .expression))
      (.ofText text) ≠ .exhausted := by
  refine Grammar.endingAt_fuelFor_ne_exhausted ?_ solid_body tame_whole _
  rw [Nat.card_unique]
  rfl

/-- A text of a tree, with something behind it that is no part of the tree, ends as the evaluation
of the tree does; it has a value if there is nothing behind it. -/
theorem ending_evaluate_append {t : Tree .expression} {lead after : List Char} {text : String}
    (htext : lead ++ after = text.toList) (hlead : lead ∈ documents t)
    (hafter : Text.Clear Level.expression.continues after) (level : Trace.Level) (label : String) :
    (evaluate text level label).ending =
      match t.check with
      | .ok v => .returned (if after = [] then some v else none)
      | .error fault => .panicked (.fault fault) := by
  rcases Language.mem_mul.1 hlead with ⟨spaces, hspaces, body, hbody, rfl⟩
  rw [List.append_assoc] at htext
  have hread : grammar.ending (.rule .expression) ⟨spaces.reverse, body ++ after⟩ =
      Ending.ofCheck ⟨body.reverse ++ spaces.reverse, after⟩ t.check := by
    rw [ending_rule_expression]
    exact ending_rendering t body hbody after hafter spaces.reverse
  -- what is left behind the tree decides whether the end of the text is found
  rw [evaluate_eq_answer, grammar.answer_of_append (ends_alone text) htext hspaces
    (t.clear_rendering hbody after), hread]
  cases t.check with
  | error fault => rfl
  | ok v =>
    by_cases hend : after = []
    · simp [Ending.ofCheck, hend, Outcome.value?]
    · simp [Ending.ofCheck, hend, Outcome.value?]

/-- A text of a tree ends as the evaluation of the tree does. -/
theorem ending_evaluate_of_mem {t : Tree .expression} {text : String}
    (h : text.toList ∈ documents t) (level : Trace.Level) (label : String) :
    (evaluate text level label).ending =
      match t.check with
      | .ok v => .returned (some v)
      | .error fault => .panicked (.fault fault) :=
  ending_evaluate_append (List.append_nil _) h Text.clear_nil level label

/-- What an evaluation gives is the result of a tree of which the text is one, and what stops it is
an overflow of a tree that is written in the text. -/
theorem ensures_evaluate (text : String) (level : Trace.Level) (label : String) :
    (∀ v, (evaluate text level label).ending = .returned (some v) →
      ∃ t : Tree .expression, text.toList ∈ documents t ∧ t.check = .ok v) ∧
    ∀ panic, (evaluate text level label).ending = .panicked panic →
      OverflowIn text.toList panic := by
  have hsound : SoundAt .expression ((Cursor.ofText text).skip Text.isBlank) := ensures_expression _
  unfold SoundAt at hsound
  rw [← ending_rule_expression] at hsound
  rcases grammar.mem_of_answer (ends_alone text) hsound level label with ⟨hvalues, hpanics⟩
  rw [← evaluate_eq_answer] at hvalues hpanics
  constructor
  · intro v h
    rcases Language.mem_mul.1 (hvalues v h) with ⟨spaces, hspaces, body, ⟨t, ht, hcheck⟩, htext⟩
    refine ⟨t, ?_, hcheck⟩
    rw [← htext]
    exact Language.append_mem_mul hspaces ht
  · intro panic h
    exact OverflowIn.of_suffix (Cursor.ofText text).between_blanks.suffix (hpanics panic h)

/-- Evaluating a text comes to an end and decides the language of expressions. A text of a tree ends
as the evaluation of the tree does: with its result, or with its first overflow. A result is the
exact value of a tree of which the text is one. On a text of no tree, the end is no result, or the
overflow of a tree that is written somewhere in the text. -/
theorem evaluate_decides (text : String) (level : Trace.Level) (label : String) :
    (evaluate text level label).ending ≠ .exhausted ∧
    (∀ t : Tree .expression, text.toList ∈ documents t →
      (∀ v, t.check = .ok v → (evaluate text level label).ending = .returned (some v)) ∧
      ∀ fault, t.check = .error fault →
        (evaluate text level label).ending = .panicked (.fault fault)) ∧
    (∀ v, (evaluate text level label).ending = .returned (some v) →
      ∃ t : Tree .expression, text.toList ∈ documents t ∧ t.value = v.toInt) ∧
    ((∀ t : Tree .expression, text.toList ∉ documents t) →
      (evaluate text level label).ending = .returned none ∨
      ∃ fault, (evaluate text level label).ending = .panicked (.fault fault) ∧
        IsOverflow fault ∧ OverflowIn text.toList (.fault fault)) := by
  rcases ensures_evaluate text level label with ⟨hvalues, hpanics⟩
  have hends : (evaluate text level label).ending ≠ .exhausted := by
    rw [evaluate_eq_answer]
    exact grammar.answer_ne_exhausted (ends_alone text) level label
  refine ⟨hends, fun t ht => ?_, fun v hv => ?_, fun hnone => ?_⟩
  · have hending := ending_evaluate_of_mem ht level label
    exact ⟨fun v hv => by rw [hending, hv], fun fault hfault => by rw [hending, hfault]⟩
  · rcases hvalues v hv with ⟨t, ht, hcheck⟩
    exact ⟨t, ht, (t.toInt_of_check hcheck).symm⟩
  · cases h : (evaluate text level label).ending with
    | returned result =>
      cases result with
      | none => exact .inl rfl
      | some v =>
        rcases hvalues v h with ⟨t, ht, -⟩
        exact (hnone t ht).elim
    | panicked panic =>
      have hin : OverflowIn text.toList panic := hpanics panic h
      rcases hin with ⟨fault, rfl, above, t, part, hpart⟩
      exact .inr ⟨fault, rfl, t.overflow_of_check hpart.2.2, fault, rfl, above, t, part, hpart⟩
    | exhausted => exact (hends h).elim

/-- A product with a bracket, and a blank before it, is a text of its tree and evaluates to 14. -/
theorem evaluate_decides_product :
    " 2*(3+4)".toList ∈ documents (.sum (.product (.number 2)
      [.bracketed (.sum (.product (.number 3) []) [.product (.number 4) []])]) []) ∧
    (evaluate " 2*(3+4)" .off "").ending = .returned (some 14) := by
  have hdigit : ∀ (ch : Char) (n : Int64), ch.isDigit = true → n.toInt = Decimal.value [ch] →
      [ch] ∈ (Tree.number n).renderings := by
    intro ch n hch hn
    rw [Tree.renderings]
    have hnumeral : [ch] ∈ Lexeme.numerals n :=
      ⟨[ch], ⟨by simp, by simpa using hch⟩, .inl ⟨rfl, hn⟩⟩
    exact Text.mem_words.2 ⟨[ch], hnumeral, [], by simp [Text.mem_blanks], rfl⟩
  have hsign : ∀ ch, [ch] ∈ Text.words {[ch]} := by
    intro ch
    exact Text.mem_words_singleton.2 ⟨[], by simp [Text.mem_blanks], rfl⟩
  have hthree : ['3'] ∈ (Tree.product (.number 3) []).renderings := by
    rw [Tree.renderings]
    exact Language.append_mem_mul (hdigit '3' 3 rfl rfl) rfl
  have hfour : ['4'] ∈ (Tree.product (.number 4) []).renderings := by
    rw [Tree.renderings]
    exact Language.append_mem_mul (hdigit '4' 4 rfl rfl) rfl
  have hseven : ['3', '+', '4'] ∈
      (Tree.sum (.product (.number 3) []) [.product (.number 4) []]).renderings := by
    rw [Tree.renderings]
    exact Language.append_mem_mul hthree
      (Language.append_mem_mul (Language.append_mem_mul (hsign '+') hfour) rfl)
  have hbrackets : ['(', '3', '+', '4', ')'] ∈ (Tree.bracketed
      (.sum (.product (.number 3) []) [.product (.number 4) []])).renderings := by
    rw [Tree.renderings]
    exact Language.append_mem_mul (Language.append_mem_mul (hsign '(') hseven) (hsign ')')
  have hproduct : ['2', '*', '(', '3', '+', '4', ')'] ∈ (Tree.product (.number 2)
      [.bracketed (.sum (.product (.number 3) []) [.product (.number 4) []])]).renderings := by
    rw [Tree.renderings]
    exact Language.append_mem_mul (hdigit '2' 2 rfl rfl)
      (Language.append_mem_mul (Language.append_mem_mul (hsign '*') hbrackets) rfl)
  have hdocument : " 2*(3+4)".toList ∈ documents (.sum (.product (.number 2)
      [.bracketed (.sum (.product (.number 3) []) [.product (.number 4) []])]) []) := by
    have hspace : [' '] ∈ Text.blanks := by
      intro ch hch
      rw [List.mem_singleton.1 hch]
      decide
    unfold documents
    rw [Tree.renderings]
    exact ⟨[' '], hspace, _, Language.append_mem_mul hproduct rfl, rfl⟩
  have hcheck : (Tree.sum (.product (.number 2) [.bracketed (.sum (.product (.number 3) [])
      [.product (.number 4) []])]) []).check = .ok 14 := by
    simp only [Tree.check, List.mapM_cons, List.mapM_nil]
    rfl
  exact ⟨hdocument, ((evaluate_decides " 2*(3+4)" .off "").2.1 _ hdocument).1 14 hcheck⟩

end Arithmetic

end ParserCombinators
