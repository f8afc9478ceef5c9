import ParserCombinators.Proofs.Evaluation
import ParserCombinators.Proofs.Numerals

/-!
# Overflows — when the evaluation of a text stops

Values are computed while a text is read, before it is known how the text goes on. So whether the
evaluation of a text stops at an overflow depends on the partial results of what has been read, not
on whether the text is an expression as a whole. The partial results of a sum are those of its later
terms, summed from zero; a sum whose running totals from the first term on are all in range can
overflow nevertheless.

- `Tree.Fits`: all partial results of a tree are in range, for a given order of summation
- `runningSums`, `groupedSums`: summation from the first term on, and the order of the grammar
- `Tree.exists_check_iff`: the evaluation of a tree comes to its end if all of its partial results
  fit
- `wordTexts`, `Tree.renderings_le_wordTexts`: the characters that occur in the texts of trees
- `Tree.ofNumbers`: numbers with plus signs between them
- `evaluate_stops_at_overflows`: how the evaluation of a text ends
- `evaluate_overflows_early`: two overflows that the evaluation of a whole text from left to right
  would not have
-/

namespace ParserCombinators

namespace Arithmetic

/-! ## Partial results -/

def InRange (n : Int) : Prop :=
  -2 ^ 63 ≤ n ∧ n < 2 ^ 63

/-- Every `Int64` is in range. -/
theorem inRange_toInt (n : Int64) : InRange n.toInt :=
  ⟨n.le_toInt, n.toInt_lt⟩

/-- The partial results of a sum that is added up from its first term on. -/
def runningSums (first : Int) (rest : List Int) : List Int :=
  rest.scanl (· + ·) first

/-- The partial results of a sum whose later terms are added up from zero, before the first one is
added to them. -/
def groupedSums (first : Int) (rest : List Int) : List Int :=
  rest.scanl (· + ·) 0 ++ [first + rest.sum]

/-- All partial results of a tree are in range: those of its operands, the running products of each
term from its first factor on, and those of each sum. -/
def Tree.Fits (sums : Int → List Int → List Int) {level : Level} : Tree level → Prop
  | .number _ => True
  | .bracketed inside => inside.Fits sums
  | .product first rest =>
    first.Fits sums ∧ (∀ t ∈ rest, t.Fits sums) ∧
      ∀ n ∈ (rest.map fun t => t.value).scanl (· * ·) first.value, InRange n
  | .sum first rest =>
    first.Fits sums ∧ (∀ t ∈ rest, t.Fits sums) ∧
      ∀ n ∈ sums first.value (rest.map fun t => t.value), InRange n

/-- `represent` checks the range. -/
theorem exists_represent_iff {overflow : Fault} {exact : Int} :
    (∃ n, represent overflow exact = .ok n) ↔ InRange exact := by
  constructor
  · rintro ⟨n, hn⟩
    rw [← represent_eq_ok hn]
    exact inRange_toInt n
  · intro h
    exact ⟨_, if_pos h⟩

/-- A checked fold comes to its end if all entries of the `scanl` of the exact operation are in
range. By induction on the list, with any starting value. -/
theorem exists_foldlM_iff {step : Int64 → Int64 → Except Fault Int64} {exact : Int → Int → Int}
    {overflow : Fault} (hstep : ∀ a b, step a b = represent overflow (exact a.toInt b.toInt))
    (bs : List Int64) (a : Int64) :
    (∃ n, bs.foldlM step a = .ok n) ↔
      ∀ n ∈ (bs.map Int64.toInt).scanl exact a.toInt, InRange n := by
  induction bs generalizing a with
  | nil => simp [pure, Except.pure, inRange_toInt]
  | cons b bs ih =>
    -- the result so far is a number in range; the next step decides about the one after it
    rw [List.foldlM_cons, List.map_cons, List.scanl_cons, hstep]
    constructor
    · rintro ⟨n, hn⟩ m hm
      rcases bind_eq_ok.1 hn with ⟨next, hnext, hrest⟩
      rcases List.mem_cons.1 hm with rfl | hm
      · exact inRange_toInt a
      · rw [← represent_eq_ok hnext] at hm
        exact (ih next).1 ⟨n, hrest⟩ m hm
    · intro h
      have hfirst : InRange (exact a.toInt b.toInt) := h _ (by cases bs <;> simp)
      have hnext : ∃ next, represent overflow (exact a.toInt b.toInt) = .ok next :=
        exists_represent_iff.2 hfirst
      rcases hnext with ⟨next, hnext⟩
      have hrest : ∀ n ∈ (bs.map Int64.toInt).scanl exact next.toInt, InRange n := by
        rw [represent_eq_ok hnext]
        exact fun n hn => h n (List.mem_cons_of_mem _ hn)
      rcases (ih next).2 hrest with ⟨n, hn⟩
      exact ⟨n, bind_eq_ok.2 ⟨next, hnext, hn⟩⟩

variable {level : Level}

/-- All operands are evaluated if each of them is. -/
theorem exists_mapM_iff {ts : List (Tree level)} :
    (∃ bs, (ts.mapM fun t => t.check) = .ok bs) ↔ ∀ t ∈ ts, ∃ n, t.check = .ok n := by
  induction ts with
  | nil => exact ⟨nofun, fun _ => ⟨[], rfl⟩⟩
  | cons t ts ih =>
    rw [List.mapM_cons, List.forall_mem_cons, ← ih]
    constructor
    · rintro ⟨bs, hbs⟩
      rcases bind_eq_ok.1 hbs with ⟨n, hn, hmore⟩
      rcases bind_eq_ok.1 hmore with ⟨ns, hns, -⟩
      exact ⟨⟨n, hn⟩, ns, hns⟩
    · rintro ⟨⟨n, hn⟩, ns, hns⟩
      exact ⟨n :: ns, by rw [hn, hns]; rfl⟩

/-- A node of the tree: its operands are evaluated, and then `fold` combines them. It comes to its
end if the operands do and the `partials` of their exact values are in range. -/
theorem exists_joined_iff {first : Tree level} {rest : List (Tree level)}
    {fold : Int64 → List Int64 → Except Fault Int64} {partials : Int → List Int → List Int}
    (hfold : ∀ a bs, (∃ n, fold a bs = .ok n) ↔
      ∀ n ∈ partials a.toInt (bs.map Int64.toInt), InRange n) :
    (∃ n, (do
      let a ← first.check
      let bs ← rest.mapM fun t => t.check
      fold a bs : Except Fault Int64) = .ok n) ↔
      (∃ a, first.check = .ok a) ∧ (∀ t ∈ rest, ∃ b, t.check = .ok b) ∧
        ∀ n ∈ partials first.value (rest.map fun t => t.value), InRange n := by
  -- once the operands are evaluated, they have their values
  have hvalues : ∀ {bs : List Int64}, (rest.mapM fun t : Tree level => t.check) = .ok bs →
      bs.map Int64.toInt = rest.map fun t => t.value :=
    map_toInt_of_check fun t _ _ => t.toInt_of_check
  rw [← exists_mapM_iff]
  constructor
  · rintro ⟨n, hn⟩
    rcases bind_eq_ok.1 hn with ⟨a, ha, hmore⟩
    rcases bind_eq_ok.1 hmore with ⟨bs, hbs, hdone⟩
    refine ⟨⟨a, ha⟩, ⟨bs, hbs⟩, ?_⟩
    rw [← first.toInt_of_check ha, ← hvalues hbs]
    exact (hfold a bs).1 ⟨n, hdone⟩
  · rintro ⟨⟨a, ha⟩, ⟨bs, hbs⟩, hfits⟩
    rw [← first.toInt_of_check ha, ← hvalues hbs] at hfits
    rcases (hfold a bs).2 hfits with ⟨n, hn⟩
    exact ⟨n, by rw [ha, hbs]; exact hn⟩

/-- The sums of a node: those of the later terms from zero, then the first term added to the last of
them. -/
theorem exists_groupedSum_iff (a : Int64) (bs : List Int64) :
    (∃ n, (bs.foldlM checkedSum 0 >>= checkedSum a) = .ok n) ↔
      ∀ n ∈ groupedSums a.toInt (bs.map Int64.toInt), InRange n := by
  have hlater : (∃ later, bs.foldlM checkedSum 0 = .ok later) ↔
      ∀ n ∈ (bs.map Int64.toInt).scanl (· + ·) 0, InRange n :=
    exists_foldlM_iff (fun _ _ => rfl) bs 0
  have hsplit : (∀ n ∈ groupedSums a.toInt (bs.map Int64.toInt), InRange n) ↔
      (∀ n ∈ (bs.map Int64.toInt).scanl (· + ·) 0, InRange n) ∧
        InRange (a.toInt + (bs.map Int64.toInt).sum) := by
    simp only [groupedSums, List.forall_mem_append, List.forall_mem_singleton]
  -- the later terms are summed up before the first one is added
  rw [hsplit, ← hlater]
  constructor
  · rintro ⟨n, hn⟩
    rcases bind_eq_ok.1 hn with ⟨later, hsum, hwhole⟩
    refine ⟨⟨later, hsum⟩, ?_⟩
    rw [← toInt_sum hsum]
    exact exists_represent_iff.1 ⟨n, hwhole⟩
  · rintro ⟨⟨later, hsum⟩, hrange⟩
    rw [← toInt_sum hsum] at hrange
    rcases exists_represent_iff.2 hrange with ⟨n, hn⟩
    exact ⟨n, bind_eq_ok.2 ⟨later, hsum, hn⟩⟩

/-- `check` comes to its end if and only if the tree `Fits`. By induction on the tree. -/
theorem Tree.exists_check_iff (t : Tree level) : (∃ n, t.check = .ok n) ↔ t.Fits groupedSums := by
  induction t using Tree.induct with
  | number n =>
    rw [check, Fits]
    exact ⟨fun _ => trivial, fun _ => ⟨n, rfl⟩⟩
  | bracketed inside ih =>
    rw [check, Fits]
    exact ih
  | product first rest ihfirst ihrest =>
    have hproducts : ∀ (a : Int64) (bs : List Int64), (∃ n, bs.foldlM checkedProduct a = .ok n) ↔
        ∀ n ∈ (bs.map Int64.toInt).scanl (· * ·) a.toInt, InRange n := fun a bs =>
      exists_foldlM_iff (fun _ _ => rfl) bs a
    rw [check, Fits, exists_joined_iff hproducts]
    exact and_congr ihfirst (and_congr_left' (forall₂_congr ihrest))
  | sum first rest ihfirst ihrest =>
    rw [check, Fits, exists_joined_iff exists_groupedSum_iff]
    exact and_congr ihfirst (and_congr_left' (forall₂_congr ihrest))

/-- A tree that does not fit stops at an overflow, as `check` raises nothing else. -/
theorem Tree.exists_overflow {t : Tree level} (h : ¬ t.Fits groupedSums) :
    ∃ fault, IsOverflow fault ∧ t.check = .error fault := by
  rw [← t.exists_check_iff] at h
  cases hcheck : t.check with
  | ok n => exact absurd ⟨n, hcheck⟩ h
  | error fault => exact ⟨fault, t.overflow_of_check hcheck, rfl⟩

/-! ## The characters of expressions -/

/-- Is it a character that occurs in expressions? -/
def isWordChar (ch : Char) : Bool :=
  Text.isBlank ch || ch.isDigit || ['-', '+', '*', '(', ')'].contains ch

def wordTexts : Language Char :=
  {text | ∀ ch ∈ text, isWordChar ch = true}

theorem blanks_le_wordTexts : Text.blanks ≤ wordTexts := by
  intro text htext ch hch
  simp [isWordChar, htext ch hch]

/-- `wordTexts` is closed under products. -/
theorem mul_le_wordTexts {L M : Language Char} (hL : L ≤ wordTexts) (hM : M ≤ wordTexts) :
    L * M ≤ wordTexts := by
  rintro text htext ch hch
  rcases Language.mem_mul.1 htext with ⟨w, hw, w', hw', rfl⟩
  rcases List.mem_append.1 hch with hch | hch
  · exact hL hw ch hch
  · exact hM hw' ch hch

/-- `mul_le_wordTexts` for a list of languages. -/
theorem prod_le_wordTexts {Ls : List (Language Char)} (h : ∀ L ∈ Ls, L ≤ wordTexts) :
    Ls.prod ≤ wordTexts := by
  induction Ls with
  | nil =>
    rintro text rfl ch hch
    cases hch
  | cons L Ls ih =>
    rw [List.prod_cons]
    exact mul_le_wordTexts (h L List.mem_cons_self) (ih fun M hM => h M (List.mem_cons_of_mem L hM))

/-- A sign with blanks behind it. -/
theorem sign_le_wordTexts {ch : Char} (hch : isWordChar ch = true) :
    Text.words {[ch]} ≤ wordTexts := by
  refine mul_le_wordTexts ?_ blanks_le_wordTexts
  rintro text rfl x hx
  rw [List.mem_singleton.1 hx, hch]

/-- No rendering of a tree has a character that is not one of expressions. By induction on the
tree. -/
theorem Tree.renderings_le_wordTexts (t : Tree level) : t.renderings ≤ wordTexts := by
  induction t using Tree.induct with
  | number n =>
    rw [renderings]
    refine mul_le_wordTexts ?_ blanks_le_wordTexts
    have hdigits : ∀ {digits}, Decimal.IsDigits digits → digits ∈ wordTexts := by
      intro digits hdigits ch hch
      simp [isWordChar, hdigits.2 ch hch]
    rintro text ⟨digits, hwritten, ⟨rfl, -⟩ | ⟨rfl, -⟩⟩
    · exact hdigits hwritten
    · exact List.forall_mem_cons.2 ⟨by decide, hdigits hwritten⟩
  | bracketed inside ih =>
    rw [renderings]
    exact mul_le_wordTexts (mul_le_wordTexts (sign_le_wordTexts (by decide)) ih)
      (sign_le_wordTexts (by decide))
  | product first rest ihfirst ihrest | sum first rest ihfirst ihrest =>
    rw [renderings]
    refine mul_le_wordTexts ihfirst (prod_le_wordTexts fun L hL => ?_)
    rcases List.mem_map.1 hL with ⟨t, ht, rfl⟩
    exact mul_le_wordTexts (sign_le_wordTexts (by decide)) (ihrest t ht)

/-- Blanks before the rendering do not change that. -/
theorem documents_le_wordTexts (t : Tree .expression) : documents t ≤ wordTexts :=
  mul_le_wordTexts blanks_le_wordTexts t.renderings_le_wordTexts

/-! ## Sums of numbers -/

def Tree.ofNumbers (first : Int64) (rest : List Int64) : Tree .expression :=
  .sum (.product (.number first) []) (rest.map fun n => .product (.number n) [])

/-- The decimal texts with plus signs between them are a document of `Tree.ofNumbers`. -/
theorem Tree.mem_documents_ofNumbers (first : Int64) (rest : List Int64) :
    (toString first).toList ++ (rest.flatMap fun n => '+' :: (toString n).toList) ∈
      documents (ofNumbers first rest) := by
  -- a number with no blanks behind it is a word, and a term of one factor
  have hnil : [] ∈ Text.blanks := nofun
  have hnumber : ∀ n : Int64, (toString n).toList ∈ (Tree.product (.number n) []).renderings := by
    intro n
    have hword : (toString n).toList ∈ Text.words (Lexeme.numerals n) :=
      Text.mem_words.2 ⟨_, Lexeme.mem_numerals_toString n, [], hnil, List.append_nil _⟩
    rw [renderings, renderings, List.map_nil, List.prod_nil, mul_one]
    exact hword
  have hplus : ['+'] ∈ Text.words {['+']} := Text.mem_words_singleton.2 ⟨[], hnil, rfl⟩
  have hrest : (rest.flatMap fun n => '+' :: (toString n).toList) ∈
      ((rest.map fun n => Tree.product (.number n) []).map fun t =>
        Text.words {['+']} * t.renderings).prod := by
    induction rest with
    | nil => exact rfl
    | cons n rest ih =>
      rw [List.flatMap_cons, List.map_cons, List.map_cons, List.prod_cons]
      exact Language.append_mem_mul (Language.append_mem_mul hplus (hnumber n)) ih
  -- no blanks stand before the sum or between its words
  refine Language.mem_mul.2 ⟨[], hnil, _, ?_, List.nil_append _⟩
  rw [ofNumbers, renderings]
  exact Language.append_mem_mul (hnumber first) hrest

/-- The evaluation of `Tree.ofNumbers`, with the trees of single numbers evaluated away. -/
theorem Tree.check_ofNumbers (first : Int64) (rest : List Int64) :
    (ofNumbers first rest).check = rest.foldlM checkedSum 0 >>= checkedSum first := by
  have hnumber : ∀ n : Int64, (Tree.product (.number n) []).check = .ok n := by
    intro n
    rw [check, check]
    rfl
  have hrest : ((rest.map fun n => Tree.product (.number n) []).mapM fun t => t.check) =
      .ok rest := by
    induction rest with
    | nil => rfl
    | cons n rest ih =>
      rw [List.map_cons, List.mapM_cons, hnumber, ih]
      rfl
  rw [ofNumbers, check, hnumber, hrest]
  rfl

/-! ## How the evaluation of a text ends -/

/-- The evaluation of a text of a tree gives the exact value, if all partial results of the tree are
in range in the order of the grammar, and stops at an overflow otherwise. If something is left
behind the tree, there is no value in place of the exact one, but the overflow is the same. On a
text of no tree there is no value, unless a tree that is written somewhere in it overflows. -/
theorem evaluate_stops_at_overflows (text : String) (level : Trace.Level) (label : String) :
    (∀ t : Tree .expression, text.toList ∈ documents t →
      (t.Fits groupedSums → ∃ v, (evaluate text level label).ending = .returned (some v) ∧
        v.toInt = t.value) ∧
      (¬ t.Fits groupedSums → ∃ fault, IsOverflow fault ∧
        (evaluate text level label).ending = .panicked (.fault fault))) ∧
    (∀ (t : Tree .expression) (lead after : List Char), lead ++ after = text.toList →
      lead ∈ documents t → after ≠ [] → Text.Clear Level.expression.continues after →
      (t.Fits groupedSums → (evaluate text level label).ending = .returned none) ∧
      (¬ t.Fits groupedSums → ∃ fault, IsOverflow fault ∧
        (evaluate text level label).ending = .panicked (.fault fault))) ∧
    ((∀ t : Tree .expression, text.toList ∉ documents t) →
      (∀ (above : Level) (t : Tree above), ∀ part ∈ t.renderings, part <:+: text.toList →
        t.Fits groupedSums) →
      (evaluate text level label).ending = .returned none) := by
  refine ⟨fun t htext => ?_, fun t lead after htext hlead hne hafter => ?_, fun hnone hfits => ?_⟩
  · have hending := ending_evaluate_of_mem htext level label
    refine ⟨fun hfits => ?_, fun hoverflows => ?_⟩
    · rcases t.exists_check_iff.2 hfits with ⟨v, hv⟩
      exact ⟨v, by rw [hending, hv], t.toInt_of_check hv⟩
    · rcases t.exists_overflow hoverflows with ⟨fault, hfault, hcheck⟩
      exact ⟨fault, hfault, by rw [hending, hcheck]⟩
  · have hending := ending_evaluate_append htext hlead hafter level label
    refine ⟨fun hfits => ?_, fun hoverflows => ?_⟩
    · rcases t.exists_check_iff.2 hfits with ⟨v, hv⟩
      simp only [hending, hv, if_neg hne]
    · rcases t.exists_overflow hoverflows with ⟨fault, hfault, hcheck⟩
      exact ⟨fault, hfault, by rw [hending, hcheck]⟩
  · rcases ensures_evaluate text level label with ⟨hvalues, hpanics⟩
    cases hending : (evaluate text level label).ending with
    | returned result =>
      cases result with
      | none => rfl
      | some v =>
        rcases hvalues v hending with ⟨t, ht, -⟩
        exact absurd ht (hnone t)
    | panicked panic =>
      -- it would be the overflow of a tree in the text, but these all come to their end
      rcases hpanics panic hending with ⟨fault, -, above, t, part, hpart, hin, hcheck⟩
      rcases t.exists_check_iff.2 (hfits above t part hpart hin) with ⟨n, hn⟩
      rw [hn] at hcheck
      cases hcheck
    | exhausted =>
      rw [evaluate_eq_answer] at hending
      exact absurd hending (grammar.answer_ne_exhausted (ends_alone text) level label)

/-- A sum in range, a sum that overflows in front of a letter, and the letter alone. -/
theorem evaluate_stops_at_overflows_sums :
    (∃ v, (evaluate "1+-2" .off "").ending = .returned (some v) ∧ v.toInt = -1) ∧
    (∃ fault, IsOverflow fault ∧
      (evaluate "9223372036854775807+1x" .off "").ending = .panicked (.fault fault)) ∧
    (evaluate "x" .off "").ending = .returned none := by
  refine ⟨?_, ?_, ?_⟩
  · have hmem : "1+-2".toList ∈ documents (.ofNumbers 1 [-2]) :=
      Tree.mem_documents_ofNumbers 1 [-2]
    have hfits : (Tree.ofNumbers 1 [-2]).Fits groupedSums := by
      simp [Tree.ofNumbers, Tree.Fits, Tree.value, groupedSums, InRange]
    have hvalue : (Tree.ofNumbers 1 [-2]).value = -1 := by
      simp [Tree.ofNumbers, Tree.value]
    have hends := ((evaluate_stops_at_overflows "1+-2" .off "").1 _ hmem).1 hfits
    rwa [hvalue] at hends
  · have hmem : "9223372036854775807+1".toList ∈ documents (.ofNumbers 9223372036854775807 [1]) :=
      Tree.mem_documents_ofNumbers 9223372036854775807 [1]
    have hoverflows : ¬ (Tree.ofNumbers 9223372036854775807 [1]).Fits groupedSums := by
      simp [Tree.ofNumbers, Tree.Fits, Tree.value, groupedSums, InRange]
    exact ((evaluate_stops_at_overflows "9223372036854775807+1x" .off "").2.1 _ _ ['x'] rfl hmem
      (by decide) (Text.clear_cons.2 (by decide))).2 hoverflows
  · have hletter : ¬ isWordChar 'x' = true := by decide
    refine (evaluate_stops_at_overflows "x" .off "").2.2 (fun t ht => ?_)
      fun above t part hpart hin => ?_
    · exact hletter (documents_le_wordTexts t ht 'x' (by decide))
    · rcases t.unindented hpart with ⟨ch, rest, rfl, -⟩
      have hch : ch = 'x' := by simpa using hin.subset List.mem_cons_self
      exact absurd (t.renderings_le_wordTexts hpart 'x' (by simp [hch])) hletter

/-- Two overflows that are none of a whole expression from left to right: in one text a letter is
left over behind the sum, so that it is no expression. In the other the running sums from the first
term on are in range, and only the sum of the later terms, without the first, is not. -/
theorem evaluate_overflows_early :
    ((∀ t, "9223372036854775807+1x".toList ∉ documents t) ∧
      (evaluate "9223372036854775807+1x" .off "").ending = .panicked (.fault .addOverflow)) ∧
    (∃ t, "-1+9223372036854775807+1".toList ∈ documents t ∧ t.Fits runningSums ∧
      t.value = 9223372036854775807) ∧
    (evaluate "-1+9223372036854775807+1" .off "").ending = .panicked (.fault .addOverflow) := by
  have hmem : "-1+9223372036854775807+1".toList ∈
      documents (.ofNumbers (-1) [9223372036854775807, 1]) :=
    Tree.mem_documents_ofNumbers (-1) [9223372036854775807, 1]
  refine ⟨⟨fun t ht => ?_, ?_⟩, ⟨_, hmem, ?_, ?_⟩, ?_⟩
  · exact absurd (documents_le_wordTexts t ht 'x' (by decide)) (by decide)
  · have hlead : "9223372036854775807+1".toList ∈ documents (.ofNumbers 9223372036854775807 [1]) :=
      Tree.mem_documents_ofNumbers 9223372036854775807 [1]
    have htext : "9223372036854775807+1".toList ++ ['x'] = "9223372036854775807+1x".toList := rfl
    have hcheck : (Tree.ofNumbers 9223372036854775807 [1]).check = .error .addOverflow := by
      rw [Tree.check_ofNumbers]
      rfl
    rw [ending_evaluate_append htext hlead (Text.clear_cons.2 (by decide)), hcheck]
  · simp [Tree.ofNumbers, Tree.Fits, Tree.value, runningSums, InRange]
  · simp [Tree.ofNumbers, Tree.value]
  · have hcheck : (Tree.ofNumbers (-1) [9223372036854775807, 1]).check = .error .addOverflow := by
      rw [Tree.check_ofNumbers]
      rfl
    rw [ending_evaluate_of_mem hmem, hcheck]

end Arithmetic

end ParserCombinators
