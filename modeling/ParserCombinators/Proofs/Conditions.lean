import ParserCombinators.Description.Meaning
import ParserCombinators.Grammars.Json
import ParserCombinators.Proofs.Progress

/-!
# Conditions — what is asked of the functions of users

Most of a parser is put together from the forms of the library, and only two kinds of functions in
it see a cursor: those that are parsers themselves, and those that decide how to go on after
another parser. A law of parsers is a condition on these functions; the ready-made parsers meet
every condition that the few functions behind them meet.

- `Condition`, `Parser.Meets`: a condition on functions, and the parsers whose functions meet it
- `Condition.Basic`, `Condition.Placed`: the functions behind the derived parsers meet a condition;
  the second kind asks for the offset of a cursor
- `Lexeme.meets_integer`, `Clock.meets_timeArray`, `Color.meets_parser`,
  `Arithmetic.meets_expression`, `Json.meets_tree`: ready-made parsers
- `Description.Placeless`, `Description.meets_toParser`: described parsers
-/

namespace ParserCombinators

/-- A condition on the functions that see cursors. -/
structure Condition where
  /-- On a function that is a parser. -/
  closure : {α : Type} → (Cursor → Callback (Outcome α)) → Prop
  /-- On a function that sees what another parser did and chooses how to go on. -/
  choice : {α γ : Type} → (Cursor → Outcome α → Callback (Cursor × γ)) → Prop

variable {R : Type → Type} {α β : Type}

namespace Parser

/-- All functions in the parser that see cursors meet the condition. -/
def Meets (K : Condition) : {α : Type} → Parser R α → Prop
  | _, .ok | _, .endOfInput | _, .like _ | _, .char _ | _, .oneOf _ | _, .str _ => True
  | _, .succeed _ | _, .succeedWith _ | _, .rule _ => True
  | _, .seqOf n items => ∀ i : Fin n, (items i).Meets K
  | _, .or left right => left.Meets K ∧ right.Meets K
  | _, .star p | _, .plus p | _, .option p | _, .map p _ => p.Meets K
  | _, .named _ p | _, .boxed p | _, .deferred _ p => p.Meets K
  | _, .chain p _ next => p.Meets K ∧ ∀ v, (next v).Meets K
  | _, .closure f => K.closure f
  | _, .inspect p choose next => p.Meets K ∧ (∀ v, (next v).Meets K) ∧ K.choice choose

variable {K : Condition}

@[simp] theorem meets_satisfy (accepts : Char → Bool) :
    (satisfy accepts : Parser R Char).Meets K := trivial

@[simp] theorem meets_bind {p : Parser R α} {next : α → Parser R β} :
    (p >>= next).Meets K ↔ p.Meets K ∧ ∀ v, (next v).Meets K := Iff.rfl

@[simp] theorem meets_chainValue {p : Parser R α} {next : α → Parser R β} :
    (Parser.bind p next).Meets K ↔ p.Meets K ∧ ∀ v, (next v).Meets K := Iff.rfl

@[simp] theorem meets_mapValue {f : α → β} {p : Parser R α} :
    (f <$> p).Meets K ↔ p.Meets K := Iff.rfl

@[simp] theorem meets_seq {ps : List (Parser R α)} : (seq ps).Meets K ↔ ∀ p ∈ ps, p.Meets K := by
  show (∀ i : Fin ps.length, (ps.get i).Meets K) ↔ _
  simp [List.forall_mem_iff_forall_getElem, Fin.forall_iff]

/-- A parser in a row with itself meets what it meets alone. -/
theorem meets_copies {n : Nat} {p : Parser R α} (h : p.Meets K) : (copies n p).Meets K :=
  fun _ => h

end Parser

def Grammar.Meets (g : Grammar R) (K : Condition) : Prop :=
  ∀ {α : Type} (r : R α), (g.body r).Meets K

/-- The functions behind the derived parsers that never ask for an offset meet the condition. -/
structure Condition.Basic (K : Condition) : Prop where
  fail : ∀ {α : Type}, K.closure fun _ => pure (.failure : Outcome α)
  any : ∀ {R : Type → Type}, (Parser.any : Parser R Char).Meets K
  look : ∀ {α : Type}, K.choice fun c (outcome : Outcome α) => pure (c, outcome.value?)
  notFollowedBy : ∀ {α : Type}, K.choice fun c (outcome : Outcome α) => pure (c, outcome.isFailure)
  firstOf : ∀ {α : Type}, K.choice fun c (outcome : Outcome α) => pure (Parser.resumeAfter c outcome)

/-- The functions behind the derived parsers that ask for an offset meet the condition. -/
structure Condition.Placed (K : Condition) : Prop where
  mustRead : ∀ {R : Type → Type}, (Parser.mustRead : Parser R Char).Meets K
  position : ∀ {R : Type → Type}, (Parser.position : Parser R Nat).Meets K
  probe : ∀ {R : Type → Type} {α : Type} (name : String) {p : Parser R α},
    p.Meets K → (p.probe name).Meets K

/-! ## Ready-made parsers -/

section ReadyMade

variable {K : Condition}

namespace Parser

/-- `fail` is a closure, so `Condition.Basic` has to name it. -/
theorem meets_fail (hK : K.Basic) : (fail : Parser R α).Meets K :=
  hK.fail

/-- A value that may be missing succeeds or fails, and both meet the condition. -/
theorem meets_ofOption (hK : K.Basic) (found : Option α) :
    (ofOption found : Parser R α).Meets K := by
  cases found with
  | none => exact meets_fail hK
  | some v => trivial

/-- `look` inspects a match and goes on at the cursor it came from. -/
theorem meets_look (hK : K.Basic) {p : Parser R α} (hp : p.Meets K) : p.look.Meets K :=
  ⟨hp, meets_ofOption hK, hK.look⟩

/-- `notFollowedBy` inspects a match too, and fails on one. -/
theorem meets_notFollowedBy (hK : K.Basic) {p : Parser R α} (hp : p.Meets K) :
    p.notFollowedBy.Meets K := by
  refine ⟨hp, fun failed => ?_, hK.notFollowedBy⟩
  cases failed with
  | false => exact meets_fail hK
  | true => trivial

/-- `firstOf` meets a condition that each of its parsers meets. By induction on the list, whose
later parsers are tried behind an inspected failure. -/
theorem meets_firstOf (hK : K.Basic) {ps : List (Parser R α)} (hps : ∀ p ∈ ps, p.Meets K) :
    (firstOf ps).Meets K := by
  induction ps with
  | nil => exact meets_fail hK
  | cons p ps ih =>
    have hlater : (firstOf ps).Meets K := ih fun q hq => hps q (List.mem_cons_of_mem p hq)
    refine ⟨hps p List.mem_cons_self, fun found => ?_, hK.firstOf⟩
    cases found with
    | none => exact hlater
    | some v => trivial

end Parser

open ParserCombinators.Parser (Meets meets_ofOption meets_firstOf)

namespace Lexeme

/-- `integer` fails on digits that are out of range, by `meets_ofOption`. -/
theorem meets_integer (hK : K.Basic) : (integer : Parser R Int64).Meets K := by
  simp [integer, digits, digit, Meets, meets_ofOption hK]

@[simp] theorem meets_token {p : Parser R α} : (token p).Meets K ↔ p.Meets K := by
  simp [token, blanks, Meets]

end Lexeme

theorem Clock.meets_time : (time : Parser R Time).Meets K := by
  simp [time, seconds, millis, milliDigit, twoDigits, Lexeme.digit, Meets]

/-- `time` and `timeArray` have no functions that see cursors, and meet every condition. -/
theorem Clock.meets_timeArray : (timeArray : Parser R (List Time)).Meets K := by
  simp [timeArray, times, nextTime, spacedTime, gap, meets_time, Meets]

/-- `Color.parser` tries the names by `firstOf`. -/
theorem Color.meets_parser (hK : K.Basic) : (parser : Parser R Color).Meets K := by
  refine ⟨meets_firstOf hK fun p hp => ?_, fun _ => meets_ofOption hK _⟩
  rcases List.mem_map.1 hp with ⟨name, -, rfl⟩
  trivial

/-- `expression inner` meets what `inner` does, from its factors up. -/
theorem Arithmetic.meets_expression (hK : K.Basic) {inner : Parser R Int64}
    (hinner : inner.Meets K) : (expression inner).Meets K := by
  have hfactor : (factor inner).Meets K := by
    simp [factor, Meets, Lexeme.meets_integer hK, hinner]
  have hterm : (term inner).Meets K := by
    simp [term, operands, Meets, hfactor]
  simp [expression, operands, Meets, hterm]

namespace Json

theorem meets_separated {item : Parser R α} (h : item.Meets K) (separator : Char) :
    (separated item separator).Meets K := by
  simp [separated, Meets, h]

/-- `tree inner` meets what `inner` does, part by part. -/
theorem meets_tree (hK : K.Basic) {inner : Parser R Json} (hinner : inner.Meets K) :
    (tree inner).Meets K := by
  have hstring : (string : Parser R String).Meets K := by simp [string, Meets]
  have hnumber : (number : Parser R Json).Meets K := by
    simp [number, Meets, meets_ofOption hK]
  have hmembers : (members inner).Meets K := by
    simp [members, keyValue, Meets, meets_separated, hstring, hinner]
  have hitems : (items inner).Meets K := by
    simp [items, Meets, meets_separated hinner]
  simp [tree, literal, Meets, hmembers, hitems, hstring, hnumber]

/-- The one rule of the grammar is `tree` over itself. -/
theorem meets_grammar (hK : K.Basic) : grammar.Meets K := by
  intro α r
  cases r
  exact meets_tree hK trivial

theorem meets_document : document.Meets K := by
  simp [document, Lexeme.blanks, Meets]

end Json

end ReadyMade

/-! ## Described parsers -/

mutual

/-- The description never asks for an offset: it neither reads in a way that reports one, nor gives
one as a value, nor announces one. -/
def Description.Placeless : Description → Prop
  | .mustRead | .position | .probe _ _ => False
  | .seq items => Description.AllPlaceless items
  | .or left right => left.Placeless ∧ right.Placeless
  | .star item | .plus item | .option item | .map item _ _ | .named _ item | .boxed item
  | .deferred _ item | .look item | .notFollowedBy item | .token item => item.Placeless
  | .chain first _ next => first.Placeless ∧ next.Placeless
  | .ok | .endOfInput | .like _ | .char _ | .oneOf _ | .str _ | .succeed _ | .succeedWith _ _
  | .rule _ | .fail | .any | .digit | .digits | .integer | .blanks | .identifier | .vowel
  | .time | .timeArray | .color | .expression => True

def Continuation.Placeless : Continuation → Prop
  | .follow _ next => next.Placeless
  | .times item => item.Placeless
  | .switch cases => Description.CasesPlaceless cases
  | .same | .close | .int => True

def Description.AllPlaceless : List Description → Prop
  | [] => True
  | d :: ds => d.Placeless ∧ Description.AllPlaceless ds

def Description.CasesPlaceless : List (String × Description) → Prop
  | [] => True
  | (_, d) :: ds => d.Placeless ∧ Description.CasesPlaceless ds

end

section Described

variable {K : Condition}

open ParserCombinators.Parser (Meets meets_fail meets_ofOption meets_copies)

/-- The parser of a case is one of those listed, or `fail`. -/
theorem Description.meets_caseFor (hK : K.Basic) (text : String)
    {cases : List (String × Parser DescribedRule Value)} (h : ∀ entry ∈ cases, entry.2.Meets K) :
    (caseFor text cases).Meets K := by
  induction cases with
  | nil => exact meets_fail hK
  | cons entry cases ih =>
    rcases entry with ⟨name, p⟩
    unfold caseFor
    split
    · exact h (name, p) List.mem_cons_self
    · exact ih fun other hother => h other (List.mem_cons_of_mem _ hother)

mutual

/-- A described parser meets a condition that the functions behind the derived parsers meet; those
that ask for an offset count only where the description uses them. By induction on the description,
together with its continuations and lists. -/
theorem Description.meets_toParser (hK : K.Basic) (d : Description) (h : K.Placed ∨ d.Placeless) :
    d.toParser.Meets K := by
  cases d with
  | ok | endOfInput | like | char | oneOf | str | succeed | succeedWith | rule | expression
  | digit | digits | blanks | vowel => trivial
  | identifier => exact ⟨trivial, fun _ => trivial⟩
  | integer => exact Lexeme.meets_integer hK
  | time => exact Clock.meets_time
  | timeArray => exact Clock.meets_timeArray
  | color => exact Color.meets_parser hK
  | fail => exact meets_fail hK
  | any => exact hK.any
  | seq items =>
    have hitems : ∀ p ∈ Description.toParsers items, p.Meets K :=
      Description.meets_toParsers hK items h
    exact Parser.meets_seq.2 hitems
  | or left right =>
    exact ⟨Description.meets_toParser hK left (h.imp_right And.left),
      Description.meets_toParser hK right (h.imp_right And.right)⟩
  | star item | plus item | option item | map item event f | named label item | boxed item
  | deferred event item => exact Description.meets_toParser hK item h
  | chain first event next =>
    exact ⟨Description.meets_toParser hK first (h.imp_right And.left),
      Continuation.meets_toParser hK next (h.imp_right And.right)⟩
  | look item => exact Parser.meets_look hK (Description.meets_toParser hK item h)
  | notFollowedBy item => exact Parser.meets_notFollowedBy hK (Description.meets_toParser hK item h)
  | token item => exact Lexeme.meets_token.2 (Description.meets_toParser hK item h)
  | mustRead => exact h.elim (fun hplaced => hplaced.mustRead) False.elim
  | position => exact h.elim (fun hplaced => hplaced.position) False.elim
  | probe name item =>
    -- a probe asks for the offset twice, before and after its parser
    rcases h with hplaced | hnever
    · exact hplaced.probe name (Description.meets_toParser hK item (.inl hplaced))
    · exact hnever.elim

/-- `Description.meets_toParser` for what follows a match, on each of its values. -/
theorem Continuation.meets_toParser (hK : K.Basic) (next : Continuation)
    (h : K.Placed ∨ next.Placeless) (v : Value) : (next.toParser v).Meets K := by
  cases next with
  | follow join next => exact Description.meets_toParser hK next h
  | times item =>
    have hitem : item.toParser.Meets K := Description.meets_toParser hK item h
    unfold Continuation.toParser
    split
    · exact meets_fail hK
    · exact meets_copies hitem
  | same => trivial
  | close =>
    unfold Continuation.toParser
    split
    · exact meets_fail hK
    · trivial
  | switch cases => exact Description.meets_caseFor hK v.text (Description.meets_toCases hK cases h)
  | int => exact meets_ofOption hK _

theorem Description.meets_toParsers (hK : K.Basic) (ds : List Description)
    (h : K.Placed ∨ Description.AllPlaceless ds) :
    ∀ p ∈ Description.toParsers ds, p.Meets K := by
  cases ds with
  | nil => simp [Description.toParsers]
  | cons d ds =>
    have hd := Description.meets_toParser hK d (h.imp_right And.left)
    have hds := Description.meets_toParsers hK ds (h.imp_right And.right)
    simpa [Description.toParsers] using ⟨hd, hds⟩

theorem Description.meets_toCases (hK : K.Basic) (cases : List (String × Description))
    (h : K.Placed ∨ Description.CasesPlaceless cases) :
    ∀ entry ∈ Description.toCases cases, entry.2.Meets K := by
  cases cases with
  | nil => simp [Description.toCases]
  | cons entry cases =>
    rcases entry with ⟨name, d⟩
    have hd := Description.meets_toParser hK d (h.imp_right And.left)
    have hcases := Description.meets_toCases hK cases (h.imp_right And.right)
    simp only [Description.toCases, List.forall_mem_cons]
    exact ⟨hd, hcases⟩

end

/-- The rules of a description: each body is a case of the list or, for `expression`, the arithmetic
one. -/
theorem Description.meets_grammar (hK : K.Basic) (rules : List (String × Description))
    (h : K.Placed ∨ Description.CasesPlaceless rules) : (Description.grammar rules).Meets K := by
  intro α r
  cases r with
  | named name => exact Description.meets_caseFor hK name (Description.meets_toCases hK rules h)
  | expression => exact Arithmetic.meets_expression hK trivial

end Described

/-! ## Functions that move forward -/

namespace Condition

def forward : Condition where
  closure f := ∀ c c' v, (f c).result = .ok (.success c' v) → c.Reaches c'
  choice choose :=
    ∀ c outcome, (∀ c' v, outcome = .success c' v → c.Reaches c') →
      ∀ chosen, (choose c outcome).result = .ok chosen → c.Reaches chosen.1

/-- `resumeAfter` goes on after a match, or else where it was tried; both are ahead. -/
theorem reaches_resumeAfter {c : Cursor} {outcome : Outcome α}
    (h : ∀ c' v, outcome = .success c' v → c.Reaches c') :
    c.Reaches (Parser.resumeAfter c outcome).1 := by
  cases outcome with
  | failure => exact .refl c
  | success c' v => exact h c' v rfl

/-- The functions behind the derived parsers move forward. -/
theorem basic_forward : forward.Basic where
  fail := by
    intro α c c' v h
    cases h
  any := by
    rintro R ⟨before, _ | ⟨ch, rest⟩⟩ c' v h
    · cases h
    · cases h
      exact .cons before ch rest
  look := by
    intro α c outcome _ chosen h
    cases h
    exact .refl c
  notFollowedBy := by
    intro α c outcome _ chosen h
    cases h
    exact .refl c
  firstOf := by
    intro α c outcome hahead chosen h
    cases h
    exact reaches_resumeAfter hahead

/-- Those that ask for an offset move forward as well. -/
theorem placed_forward : forward.Placed where
  mustRead := by
    rintro R ⟨before, _ | ⟨ch, rest⟩⟩ c' v h
    · cases h
    · cases h
      exact .cons before ch rest
  position := by
    intro R c c' v h
    cases h
    exact .refl c
  probe := by
    intro R α name p hp
    -- the first part only announces the offset; the second one inspects the match
    refine ⟨?_, fun _ => ⟨hp, Parser.meets_ofOption basic_forward, ?_⟩⟩
    · intro c c' v h
      cases h
      exact .refl c
    · intro c outcome hahead chosen h
      cases outcome with
      | failure =>
        cases h
        exact .refl c
      | success next v =>
        cases h
        exact hahead next v rfl

end Condition

/-- A parser whose functions move forward is `Forward`. By structural induction. -/
theorem Parser.forward_of_meets {p : Parser R α} (h : p.Meets .forward) : p.Forward := by
  induction p with
  | ok | endOfInput | like | char | oneOf | str | succeed | succeedWith | rule => trivial
  | seqOf n items ih => exact fun i => ih i (h i)
  | or left right ihl ihr => exact ⟨ihl h.1, ihr h.2⟩
  | star p ih | plus p ih | option p ih | map p f ih => exact ih h
  | named label p ih | boxed p ih | deferred factory p ih => exact ih h
  | chain p effect next ihp ihn => exact ⟨ihp h.1, fun v => ihn v (h.2 v)⟩
  | closure f => exact h
  | inspect p choose next ihp ihn => exact ⟨ihp h.1, fun v => ihn v (h.2.1 v), h.2.2⟩

end ParserCombinators
