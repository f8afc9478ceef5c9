import ParserCombinators.Proofs.Matches
import ParserCombinators.Proofs.Positions
import ParserCombinators.Value

/-!
# Yields — no text is lost

Many parsers hand on what they read, piece by piece: characters, texts, and lists of such. The
pieces of a value, put one behind the other, are then the text between the two ends of the match,
whatever alternatives were given up and however often a part was repeated.

- `HasText`: types of values that hold text
- `Parser.Verbatim`: parsers that hand on what they read, by their form
- `Lexeme.verbatim_digits`, `Lexeme.verbatim_identifier`: words of this kind
- `Position.slice`: the text between two offsets
- `Grammar.YieldsAt`, `Grammar.yieldsAt_of_verbatim`: the text of a value is the text that was read
- `Grammar.values_hold_the_text`: the same in bytes, for all runs
-/

namespace ParserCombinators

variable {R : Type → Type} {α : Type}

/-! ## Values that hold text -/

/-- Types of values that hold text. -/
class HasText (α : Type) where
  /-- The characters of a value, from left to right. -/
  chars : α → List Char

namespace HasText

instance : HasText Unit where
  chars _ := []

instance : HasText Char where
  chars c := [c]

instance : HasText String where
  chars := String.toList

instance [HasText α] : HasText (Option α) where
  chars
    | none => []
    | some v => chars v

instance [HasText α] : HasText (List α) where
  chars vs := vs.flatMap chars

instance : HasText Value where
  chars := Value.chars

end HasText

open HasText (chars)

/-- The text of a list value is the text of its items. -/
theorem HasText.chars_list (vs : List Value) : chars (Value.list vs) = chars vs := by
  induction vs with
  | nil => rfl
  | cons v vs ih => exact congrArg (v.chars ++ ·) ih

/-! ## Parsers that hand on what they read -/

/-- The parser is made of forms that hand on all that they read, and nothing else; `texts` says what
the values of rules hold. A value may be put into another form that holds the same text, and two
values may be joined if their texts are. -/
inductive Parser.Verbatim (texts : (α : Type) → R α → HasText α) :
    {α : Type} → [HasText α] → (p : Parser R α) → Prop where
  | ok : Verbatim texts .ok
  | endOfInput : Verbatim texts .endOfInput
  | like (accepts : Char → Callback Bool) : Verbatim texts (.like accepts)
  | char (ch : Char) : Verbatim texts (.char ch)
  | oneOf (set : String) : Verbatim texts (.oneOf set)
  | str (text : String) : Verbatim texts (.str text)
  | seqOf {α : Type} [HasText α] {n : Nat} {items : Fin n → Parser R α}
      (hitems : ∀ i, Verbatim texts (items i)) : Verbatim texts (.seqOf n items)
  | or {α : Type} [HasText α] {left right : Parser R α} (hl : Verbatim texts left)
      (hr : Verbatim texts right) : Verbatim texts (.or left right)
  | star {α : Type} [HasText α] {p : Parser R α} (hp : Verbatim texts p) : Verbatim texts (.star p)
  | plus {α : Type} [HasText α] {p : Parser R α} (hp : Verbatim texts p) : Verbatim texts (.plus p)
  | option {α : Type} [HasText α] {p : Parser R α} (hp : Verbatim texts p) :
      Verbatim texts (.option p)
  | named {α : Type} [HasText α] (label : String) {p : Parser R α} (hp : Verbatim texts p) :
      Verbatim texts (.named label p)
  | boxed {α : Type} [HasText α] {p : Parser R α} (hp : Verbatim texts p) : Verbatim texts (.boxed p)
  | deferred {α : Type} [HasText α] (factory : Callback Unit) {p : Parser R α}
      (hp : Verbatim texts p) : Verbatim texts (.deferred factory p)
  | rule {α : Type} (r : R α) : @Verbatim texts α (texts α r) (.rule r)
  | mapValue {α β : Type} [HasText α] [HasText β] {f : α → β} (hf : ∀ v, chars (f v) = chars v)
      {p : Parser R α} (hp : Verbatim texts p) : Verbatim texts (f <$> p)
  | bind {α β γ : Type} [HasText α] [HasText β] [HasText γ] {f : α → β → γ}
      (hf : ∀ v w, chars (f v w) = chars v ++ chars w) {p : Parser R α} {q : Parser R β}
      (hp : Verbatim texts p) (hq : Verbatim texts q) :
      Verbatim texts (p >>= fun v => f v <$> q)

namespace Lexeme

variable {texts : (α : Type) → R α → HasText α}

theorem verbatim_digit : Parser.Verbatim texts digit :=
  .like _

/-- `digits` packs the characters that it read into a string. -/
theorem verbatim_digits : Parser.Verbatim texts digits := by
  refine .mapValue (fun cs => ?_) (.plus verbatim_digit)
  simp [chars]

/-- `identifier` puts the first character before the others. -/
theorem verbatim_identifier : Parser.Verbatim texts identifier := by
  refine .bind (fun head tail => ?_) (.like _) (.star (.like _))
  simp [chars]

end Lexeme

/-! ## The text of a match -/

namespace Grammar

variable (g : Grammar R) (fuel : Nat)

def YieldsAt [HasText α] (p : Parser R α) : Prop :=
  ∀ c, (g.endingAt fuel p c).Ensures (fun c' v => c.Spans (chars v) c') fun _ => True

variable {g fuel}

/-- `YieldsAt` only has to be shown of matches. -/
theorem yieldsAt_of_success [HasText α] {p : Parser R α}
    (h : ∀ c c' v, g.endingAt fuel p c = .returned (.success c' v) → c.Spans (chars v) c') :
    g.YieldsAt fuel p :=
  fun c => ⟨h c, fun _ _ => trivial⟩

/-- The value of `like` is the character that it read. -/
theorem yieldsAt_like (accepts : Char → Callback Bool) : g.YieldsAt fuel (.like accepts) := by
  refine yieldsAt_of_success fun c c' ch h => ?_
  rcases like_eq_success h with ⟨before, rest, rfl, rfl⟩
  exact ⟨rfl, rfl⟩

/-- The value of `str` is the text that it read. -/
theorem yieldsAt_str (text : String) : g.YieldsAt fuel (.str text) := by
  rintro ⟨before, rest⟩
  rw [endingAt_str]
  split
  next hstarts =>
    rcases hstarts with ⟨tail, rfl⟩
    refine .returned ⟨?_, rfl⟩
    rw [List.drop_left]
    rfl
  next => exact .failure

/-- The texts of the parts of a sequence follow one another. By induction on the number of parts. -/
theorem yieldsAt_seqOf [HasText α] {n : Nat} {items : Fin n → Parser R α}
    (hitems : ∀ i, g.YieldsAt fuel (items i)) : g.YieldsAt fuel (.seqOf n items) := by
  intro c
  induction n generalizing c with
  | zero =>
    rw [endingAt_seqOf_zero]
    exact .returned (.refl c)
  | succ n ih =>
    rw [endingAt_seqOf_succ]
    refine (hitems 0 c).andThen fun next v hv => ?_
    refine (ih (fun i => hitems i.succ) next).andThen fun last vs hvs => ?_
    exact .returned (hv.trans hvs)

/-- Run lemma: the texts of the rounds of a loop follow one another. By induction on the rounds. -/
theorem spans_of_loopAt [HasText α] {p : Parser R α} (hp : g.YieldsAt fuel p) {rounds : Nat}
    {c last : Cursor} {vs : List α} (h : g.loopAt fuel p rounds c = .returned (last, vs)) :
    c.Spans (chars vs) last := by
  induction rounds generalizing c vs with
  | zero => cases h
  | succ rounds ih =>
    rw [loopAt_succ] at h
    rcases Ending.bind_eq_returned.1 h with ⟨_ | ⟨next, v⟩, hround, hrest⟩
    · cases hrest
      exact .refl _
    · rcases Ending.bind_eq_returned.1 hrest with ⟨⟨last', vs'⟩, hloop, heq⟩
      cases heq
      exact ((hp c).success next v hround).trans (ih hloop)

/-- Over rules that yield what they read, so does every `Verbatim` parser. By induction on
`Verbatim`. -/
theorem yieldsAt_over_rules {texts : (α : Type) → R α → HasText α}
    (hrules : ∀ {α : Type} (r : R α), @YieldsAt R α g fuel (texts α r) (.rule r)) [HasText α]
    {p : Parser R α} (hp : p.Verbatim texts) : g.YieldsAt fuel p := by
  induction hp with
  | ok => exact fun c => .returned (.refl c)
  | endOfInput =>
    rintro ⟨before, _ | ⟨ch, rest⟩⟩
    · exact .returned (.refl _)
    · exact .failure
  | like accepts => exact yieldsAt_like accepts
  | char ch =>
    intro c
    rw [endingAt_char]
    exact yieldsAt_like _ c
  | oneOf set =>
    intro c
    rw [endingAt_oneOf]
    exact yieldsAt_like _ c
  | str text => exact yieldsAt_str text
  | seqOf _ ih => exact yieldsAt_seqOf ih
  | or _ _ ihl ihr =>
    intro c
    rw [endingAt_or]
    exact (ihl c).orElse (ihr c)
  | star _ ih => exact yieldsAt_of_success fun c c' vs h => spans_of_loopAt ih (star_eq_success h)
  | plus _ ih =>
    intro c
    rw [endingAt_plus]
    refine (ih c).andThen fun next v hv => ⟨fun last vs h => ?_, fun _ _ => trivial⟩
    rcases Ending.bind_eq_returned.1 h with ⟨⟨last', vs'⟩, hloop, heq⟩
    cases heq
    exact hv.trans (spans_of_loopAt ih hloop)
  | option _ ih =>
    intro c
    rw [endingAt_option]
    exact ((ih c).andThen fun after v hv => .returned hv).orElse (.returned (.refl c))
  | named label _ ih =>
    intro c
    rw [endingAt_named]
    exact ih c
  | boxed _ ih => exact ih
  | deferred factory _ ih =>
    intro c
    rw [endingAt_deferred]
    rcases factory with ⟨events, fault | _⟩
    · exact .panicked trivial
    · exact ih c
  | rule r => exact hrules r
  | mapValue hf _ ih =>
    intro c
    rw [endingAt_functor_map]
    refine (ih c).andThen fun after v hv => .returned ?_
    rw [hf v]
    exact hv
  | bind hf _ _ ihp ihq =>
    intro c
    rw [endingAt_bind]
    refine (ihp c).andThen fun after v hv => ?_
    rw [endingAt_functor_map]
    refine (ihq after).andThen fun last w hw => .returned ?_
    rw [hf v w]
    exact hv.trans hw

def Verbatim (g : Grammar R) (texts : (α : Type) → R α → HasText α) : Prop :=
  ∀ {α : Type} (r : R α), @Parser.Verbatim R texts α (texts α r) (g.body r)

/-- Over a grammar of `Verbatim` rules, every `Verbatim` parser yields what it reads. By induction
on fuel. -/
theorem yieldsAt_of_verbatim {texts : (α : Type) → R α → HasText α} (hg : g.Verbatim texts)
    [HasText α] {p : Parser R α} (hp : p.Verbatim texts) (fuel : Nat) : g.YieldsAt fuel p := by
  have hrules : ∀ n {α : Type} (r : R α), @YieldsAt R α g n (texts α r) (.rule r) := by
    intro n
    induction n with
    | zero => exact fun r c => ⟨fun _ _ h => (nomatch h), fun _ _ => trivial⟩
    | succ n ih => exact fun r => @yieldsAt_over_rules R _ g n texts ih (texts _ r) _ (hg r)
  exact yieldsAt_over_rules (hrules fuel) hp

end Grammar

/-! ## In bytes -/

namespace Position

/-- The text from the offset to a later one, where it can be cut out. -/
def slice (x : Position) (last : Nat) : Except Trap String :=
  if h : x.Valid ∧ Valid ⟨x.input, last⟩ ∧ x.offset ≤ last then
    .ok (x.input.extract ⟨⟨x.offset⟩, h.1⟩ ⟨⟨last⟩, h.2.1⟩)
  else
    .error .badCut

/-- What lies between two cuts of a text is the slice between their offsets. -/
theorem slice_eq {x y : Position} {left middle right : String} (hx : x.Cuts left (middle ++ right))
    (hy : y.Cuts (left ++ middle) right) : x.slice y.offset = .ok middle := by
  have hinput : y.input = x.input := by
    rw [hx.input_eq, hy.input_eq, String.append_assoc]
  have hoffset : y.offset = x.offset + middle.utf8ByteSize := by
    rw [hx.offset_eq, hy.offset_eq, String.utf8ByteSize_append]
  have hvalid : Valid ⟨x.input, y.offset⟩ := by
    rw [← hinput]
    exact hy.valid
  unfold slice
  rw [dif_pos ⟨hx.valid, hvalid, by omega⟩]
  congr 1
  -- slices are taken of bytes, so the two texts are compared as such
  rw [← String.toByteArray_inj, String.toByteArray_extract]
  simp only [hx.input_eq, hx.offset_eq, hy.offset_eq, String.toByteArray_append,
    ← String.size_toByteArray]
  rw [← ByteArray.append_assoc, ByteArray.extract_append_size_left,
    ByteArray.extract_append_eq_right rfl ByteArray.size_append]

end Position

/-- The text that was read is the slice between the two offsets. -/
theorem Cursor.Spans.slice_eq {c c' : Cursor} {taken : List Char} (h : c.Spans taken c') :
    c'.input = c.input ∧ c.position.slice c'.offset = .ok (String.ofList taken) := by
  have hright : c.remaining = String.ofList taken ++ c'.remaining := by
    simp [remaining, h.1]
  have hleft : c'.consumed = c.consumed ++ String.ofList taken := by
    simp [consumed, h.2]
  constructor
  · rw [← c'.consumed_append_remaining, ← c.consumed_append_remaining, hleft, hright,
      String.append_assoc]
  · have hc := c.cuts_position
    have hc' := c'.cuts_position
    rw [hright] at hc
    rw [hleft] at hc'
    exact Position.slice_eq hc hc'

namespace Grammar

/-- The words among the ready-made parsers hand on what they read. Of a parser made of forms that
do, over rules that do, every match ends in the text in which it started, and the characters and
texts in its value, one behind the other, are the text between the offsets of the two cursors. -/
theorem values_hold_the_text (texts : (α : Type) → R α → HasText α) :
    (Parser.Verbatim texts Lexeme.digit ∧ Parser.Verbatim texts Lexeme.digits ∧
      Parser.Verbatim texts Lexeme.identifier) ∧
    ∀ {g : Grammar R}, g.Verbatim texts →
      ∀ {α : Type} [HasText α] {p : Parser R α}, p.Verbatim texts →
        ∀ fuel c level label c' v, (g.run fuel p c level label).ending = .returned (.success c' v) →
          c'.input = c.input ∧ c.position.slice c'.offset = .ok (String.ofList (chars v)) := by
  refine ⟨⟨Lexeme.verbatim_digit, Lexeme.verbatim_digits, Lexeme.verbatim_identifier⟩, ?_⟩
  intro g hg α _ p hp fuel c level label c' v hmatch
  rw [run_ending] at hmatch
  exact ((yieldsAt_of_verbatim hg hp fuel c).success c' v hmatch).slice_eq

end Grammar

/-! ## Brackets -/

namespace Brackets

inductive Rule : Type → Type where
  | pair : Rule Value

/-- A pair of brackets, with a pair between them or nothing. -/
def pair : Parser Rule Value :=
  .list <$> Parser.seq [.str <$> Parser.str "(",
    (fun found => found.elim .absent .present) <$> Parser.option (.rule .pair),
    .char <$> Parser.char ')']

def grammar : Grammar Rule where
  size := 1
  body
    | .pair => pair

/-- The rule gives values of any kind. -/
abbrev texts : (α : Type) → Rule α → HasText α
  | _, .pair => inferInstance

/-- The pair hands on both brackets and what is between them. -/
theorem verbatim_pair : Parser.Verbatim texts pair := by
  have hopen : Parser.Verbatim texts (Value.str <$> Parser.str "(") :=
    .mapValue (f := Value.str) (fun _ => rfl) (.str "(")
  have hclose : Parser.Verbatim texts (Value.char <$> Parser.char ')') :=
    .mapValue (f := Value.char) (fun _ => rfl) (.char ')')
  have hfound : ∀ found : Option Value, chars (found.elim Value.absent Value.present) = chars found
    | none => rfl
    | some v => rfl
  have hinner : Parser.Verbatim texts
      ((fun found => found.elim Value.absent Value.present) <$> Parser.option (.rule Rule.pair)) :=
    .mapValue hfound (.option (.rule Rule.pair))
  refine .mapValue HasText.chars_list (.seqOf fun i => ?_)
  match i with
  | 0 => exact hopen
  | 1 => exact hinner
  | 2 => exact hclose

def nested : Value :=
  .list [.str "(", .present (.list [.str "(", .absent, .char ')']), .char ')']

end Brackets

/-- Two pairs of brackets behind a character of two bytes: the value is nested, and it holds the
text that lies between the second byte and the sixth. -/
theorem Grammar.values_hold_the_text_nested :
    Brackets.grammar.Verbatim Brackets.texts ∧ Parser.Verbatim Brackets.texts Brackets.pair ∧
    (Brackets.grammar.run 2 Brackets.pair ⟨['é'], "(())x".toList⟩ .off "").ending =
      .returned (.success ⟨[')', ')', '(', '(', 'é'], ['x']⟩ Brackets.nested) ∧
    (⟨"é(())x", 2⟩ : Position).slice 6 = .ok (String.ofList (chars Brackets.nested)) ∧
    chars Brackets.nested = "(())".toList := by
  have hg : Brackets.grammar.Verbatim Brackets.texts := fun r => match r with
    | .pair => Brackets.verbatim_pair
  have hmatch : (Brackets.grammar.run 2 Brackets.pair ⟨['é'], "(())x".toList⟩ .off "").ending =
      .returned (.success ⟨[')', ')', '(', '(', 'é'], ['x']⟩ Brackets.nested) := rfl
  refine ⟨hg, Brackets.verbatim_pair, hmatch, ?_, by decide⟩
  exact ((values_hold_the_text Brackets.texts).2 hg Brackets.verbatim_pair _ _ _ _ _ _ hmatch).2

end ParserCombinators
