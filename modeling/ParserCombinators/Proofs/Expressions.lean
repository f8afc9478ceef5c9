import Mathlib.Algebra.BigOperators.Group.List.Basic
import Mathlib.Algebra.Ring.Int.Defs
import Mathlib.Computability.Language
import ParserCombinators.Grammars.Arithmetic
import ParserCombinators.Proofs.Scanners

/-!
# Expression trees — their texts, their values and their evaluation

What an arithmetic expression is, before any parser: a tree of sums, products, numbers and brackets.

- `Arithmetic.Tree`: the trees, by the level of the grammar they belong to
- `Tree.renderings`: the texts of a tree, with any blanks behind every word
- `Tree.value`: its value as an integer of any size
- `Tree.check`: its evaluation in the signed 64-bit range, which stops at the first overflow
- `Tree.toInt_of_check`: an evaluation that comes to its end gives the value
- `Tree.overflow_of_check`: one that stops, stops at a sum or a product
-/

namespace ParserCombinators

namespace Arithmetic

/-! ## Trees -/

inductive Level where
  | factor
  | term
  | expression

/-- The trees of each level. -/
inductive Tree : Level → Type where
  | number (n : Int64) : Tree .factor
  | bracketed (inside : Tree .expression) : Tree .factor
  | product (first : Tree .factor) (rest : List (Tree .factor)) : Tree .term
  | sum (first : Tree .term) (rest : List (Tree .term)) : Tree .expression

namespace Tree

/-- Induction over trees, through the lists of operands; the derived principle does not reach into
them. -/
@[elab_as_elim] theorem induct {P : {level : Level} → Tree level → Prop}
    (number : ∀ n, P (.number n)) (bracketed : ∀ inside, P inside → P (.bracketed inside))
    (product : ∀ first rest, P first → (∀ t ∈ rest, P t) → P (.product first rest))
    (sum : ∀ first rest, P first → (∀ t ∈ rest, P t) → P (.sum first rest)) :
    {level : Level} → (t : Tree level) → P t
  | _, .number n => number n
  | _, .bracketed inside => bracketed inside (induct number bracketed product sum inside)
  | _, .product first rest =>
    product first rest (induct number bracketed product sum first)
      fun t _ => induct number bracketed product sum t
  | _, .sum first rest =>
    sum first rest (induct number bracketed product sum first)
      fun t _ => induct number bracketed product sum t

/-- The texts of a tree: its words in order, with any blanks behind each of them. -/
def renderings {level : Level} : Tree level → Language Char
  | .number n => Text.words (Lexeme.numerals n)
  | .bracketed inside => Text.words {['(']} * inside.renderings * Text.words {[')']}
  | .product first rest =>
    first.renderings * (rest.map fun t => Text.words {['*']} * t.renderings).prod
  | .sum first rest =>
    first.renderings * (rest.map fun t => Text.words {['+']} * t.renderings).prod

def value {level : Level} : Tree level → Int
  | .number n => n.toInt
  | .bracketed inside => inside.value
  | .product first rest => first.value * (rest.map fun t => t.value).prod
  | .sum first rest => first.value + (rest.map fun t => t.value).sum

end Tree

/-! ## Evaluation in range -/

/-- An exact result as a number in range, or the overflow. -/
def represent (overflow : Fault) (exact : Int) : Except Fault Int64 :=
  if -2 ^ 63 ≤ exact ∧ exact < 2 ^ 63 then .ok (Int64.ofInt exact) else .error overflow

def checkedSum (a b : Int64) : Except Fault Int64 :=
  represent .addOverflow (a.toInt + b.toInt)

def checkedProduct (a b : Int64) : Except Fault Int64 :=
  represent .mulOverflow (a.toInt * b.toInt)

/-- The evaluation of a tree: operands in the order in which they are written, and then the products
from the left, or the sum of the later operands from zero, to which the first one is added. -/
def Tree.check {level : Level} : Tree level → Except Fault Int64
  | .number n => .ok n
  | .bracketed inside => inside.check
  | .product first rest => do
    let a ← first.check
    let bs ← rest.mapM fun t => t.check
    bs.foldlM checkedProduct a
  | .sum first rest => do
    let a ← first.check
    let bs ← rest.mapM fun t => t.check
    let later ← bs.foldlM checkedSum 0
    checkedSum a later

section

variable {α β : Type}

/-- Inversion of `>>=` on checks; a result comes from two results. -/
theorem bind_eq_ok {x : Except Fault α} {f : α → Except Fault β} {b : β} :
    (x >>= f) = .ok b ↔ ∃ a, x = .ok a ∧ f a = .ok b := by
  cases x with
  | error fault => simp [bind, Except.bind]
  | ok a => simp [bind, Except.bind]

/-- A fault comes from either half, the second only if the first gave a result. -/
theorem bind_eq_error {x : Except Fault α} {f : α → Except Fault β} {fault : Fault} :
    (x >>= f) = .error fault ↔ x = .error fault ∨ ∃ a, x = .ok a ∧ f a = .error fault := by
  cases x with
  | error fault => simp [bind, Except.bind]
  | ok a => simp [bind, Except.bind]

end

/-- What is represented is exact. -/
theorem represent_eq_ok {overflow : Fault} {exact : Int} {n : Int64}
    (h : represent overflow exact = .ok n) : n.toInt = exact := by
  unfold represent at h
  split at h
  · next hrange =>
    cases h
    exact Int64.toInt_ofInt_of_le hrange.1 hrange.2
  · cases h

/-- What is not represented is the overflow that was asked for. -/
theorem represent_eq_error {overflow fault : Fault} {exact : Int}
    (h : represent overflow exact = .error fault) : fault = overflow := by
  unfold represent at h
  split at h
  · cases h
  · cases h
    rfl

/-- Steps that are exact, as long as they do not overflow, make a fold that is exact. Induction on
the list, for every start. -/
theorem toInt_foldlM {step : Int64 → Int64 → Except Fault Int64} {exact : Int → Int → Int}
    (hstep : ∀ {a b n}, step a b = .ok n → n.toInt = exact a.toInt b.toInt) {bs : List Int64}
    {a n : Int64} (h : bs.foldlM step a = .ok n) :
    n.toInt = (bs.map Int64.toInt).foldl exact a.toInt := by
  induction bs generalizing a with
  | nil =>
    cases h
    rfl
  | cons b bs ih =>
    -- no step of the fold overflowed, so each of them was exact
    rw [List.foldlM_cons] at h
    rcases bind_eq_ok.1 h with ⟨m, hm, hrest⟩
    have hfirst : m.toInt = exact a.toInt b.toInt := hstep hm
    have hn : n.toInt = (bs.map Int64.toInt).foldl exact m.toInt := ih hrest
    rw [hn, hfirst]
    rfl

/-- The later operands of a sum, added from zero. -/
theorem toInt_sum {bs : List Int64} {n : Int64} (h : bs.foldlM checkedSum 0 = .ok n) :
    n.toInt = (bs.map Int64.toInt).sum := by
  rw [List.sum_eq_foldl]
  exact toInt_foldlM represent_eq_ok h

/-- The operands of a product, multiplied from the left; reassociated, the first factor stands in
front. -/
theorem toInt_product {bs : List Int64} {a n : Int64} (h : bs.foldlM checkedProduct a = .ok n) :
    n.toInt = a.toInt * (bs.map Int64.toInt).prod := by
  have hfold : n.toInt = (bs.map Int64.toInt).foldl (· * ·) a.toInt :=
    toInt_foldlM represent_eq_ok h
  calc
    n.toInt = (bs.map Int64.toInt).foldl (· * ·) (a.toInt * 1) := by rw [hfold, mul_one]
    _ = a.toInt * (bs.map Int64.toInt).foldl (· * ·) 1 := List.foldl_assoc
    _ = a.toInt * (bs.map Int64.toInt).prod := by rw [List.prod_eq_foldl]

variable {level : Level}

/-- Operands that were all evaluated have their values. Induction on the trees. -/
theorem map_toInt_of_check {ts : List (Tree level)} {bs : List Int64}
    (hts : ∀ t ∈ ts, ∀ n, t.check = .ok n → n.toInt = t.value)
    (h : (ts.mapM fun t => t.check) = .ok bs) : bs.map Int64.toInt = ts.map fun t => t.value := by
  induction ts generalizing bs with
  | nil =>
    cases h
    rfl
  | cons t ts ih =>
    rw [List.mapM_cons] at h
    rcases bind_eq_ok.1 h with ⟨n, hn, hmore⟩
    rcases bind_eq_ok.1 hmore with ⟨ns, hns, hbs⟩
    have hfirst : n.toInt = t.value := hts t (by simp) n hn
    have hrest : ns.map Int64.toInt = ts.map fun t => t.value :=
      ih (fun t ht => hts t (by simp [ht])) hns
    cases hbs
    rw [List.map_cons, List.map_cons, hfirst, hrest]

/-- An evaluation that comes to its end gives the value of the tree. Induction over the tree, by
inversion of each `>>=`. -/
theorem Tree.toInt_of_check (t : Tree level) {n : Int64} (h : t.check = .ok n) :
    n.toInt = t.value := by
  induction t using Tree.induct generalizing n with
  | number m =>
    rw [check] at h
    cases h
    rw [value]
  | bracketed inside ih =>
    rw [check] at h
    rw [value]
    exact ih h
  | product first rest ihfirst ihrest =>
    rw [check] at h
    rcases bind_eq_ok.1 h with ⟨a, ha, hmore⟩
    rcases bind_eq_ok.1 hmore with ⟨bs, hbs, hfold⟩
    have hvalues : bs.map Int64.toInt = rest.map fun t => t.value :=
      map_toInt_of_check (fun t ht n hn => ihrest t ht hn) hbs
    rw [value, toInt_product hfold, ihfirst ha, hvalues]
  | sum first rest ihfirst ihrest =>
    rw [check] at h
    rcases bind_eq_ok.1 h with ⟨a, ha, hmore⟩
    rcases bind_eq_ok.1 hmore with ⟨bs, hbs, hsums⟩
    rcases bind_eq_ok.1 hsums with ⟨later, hfold, hsum⟩
    have hvalues : bs.map Int64.toInt = rest.map fun t => t.value :=
      map_toInt_of_check (fun t ht n hn => ihrest t ht hn) hbs
    have hexact : n.toInt = a.toInt + later.toInt := represent_eq_ok hsum
    rw [value, hexact, ihfirst ha, toInt_sum hfold, hvalues]

/-! ## Overflows -/

def IsOverflow (fault : Fault) : Prop :=
  fault = .addOverflow ∨ fault = .mulOverflow

theorem isOverflow_checkedSum {a b : Int64} {fault : Fault} (h : checkedSum a b = .error fault) :
    IsOverflow fault :=
  .inl (represent_eq_error h)

theorem isOverflow_checkedProduct {a b : Int64} {fault : Fault}
    (h : checkedProduct a b = .error fault) : IsOverflow fault :=
  .inr (represent_eq_error h)

/-- A fold stops where one of its steps does. -/
theorem isOverflow_foldlM {step : Int64 → Int64 → Except Fault Int64} {fault : Fault}
    (hstep : ∀ {a b fault}, step a b = .error fault → IsOverflow fault) {bs : List Int64}
    {a : Int64} (h : bs.foldlM step a = .error fault) : IsOverflow fault := by
  induction bs generalizing a with
  | nil => cases h
  | cons b bs ih =>
    rw [List.foldlM_cons] at h
    rcases bind_eq_error.1 h with hfirst | ⟨m, -, hrest⟩
    · exact hstep hfirst
    · exact ih hrest

/-- A list of operands stops at the first that does. -/
theorem isOverflow_mapM {ts : List (Tree level)} {fault : Fault}
    (hts : ∀ t ∈ ts, t.check = .error fault → IsOverflow fault)
    (h : (ts.mapM fun t => t.check) = .error fault) : IsOverflow fault := by
  induction ts with
  | nil => cases h
  | cons t ts ih =>
    rw [List.mapM_cons] at h
    rcases bind_eq_error.1 h with hfirst | ⟨n, -, hmore⟩
    · exact hts t (by simp) hfirst
    · rcases bind_eq_error.1 hmore with hrest | ⟨ns, -, hpure⟩
      · exact ih (fun t ht => hts t (by simp [ht])) hrest
      · cases hpure

/-- An evaluation that stops, stops at an overflow. -/
theorem Tree.overflow_of_check (t : Tree level) {fault : Fault} (h : t.check = .error fault) :
    IsOverflow fault := by
  induction t using Tree.induct generalizing fault with
  | number m =>
    rw [check] at h
    cases h
  | bracketed inside ih =>
    rw [check] at h
    exact ih h
  | product first rest ihfirst ihrest =>
    rw [check] at h
    rcases bind_eq_error.1 h with hfirst | ⟨a, -, hmore⟩
    · exact ihfirst hfirst
    rcases bind_eq_error.1 hmore with hrest | ⟨bs, -, hfold⟩
    · exact isOverflow_mapM (fun t ht => ihrest t ht) hrest
    · exact isOverflow_foldlM isOverflow_checkedProduct hfold
  | sum first rest ihfirst ihrest =>
    rw [check] at h
    rcases bind_eq_error.1 h with hfirst | ⟨a, -, hmore⟩
    · exact ihfirst hfirst
    rcases bind_eq_error.1 hmore with hrest | ⟨bs, -, hsums⟩
    · exact isOverflow_mapM (fun t ht => ihrest t ht) hrest
    rcases bind_eq_error.1 hsums with hfold | ⟨later, -, hsum⟩
    · exact isOverflow_foldlM isOverflow_checkedSum hfold
    · exact isOverflow_checkedSum hsum

end Arithmetic

end ParserCombinators
