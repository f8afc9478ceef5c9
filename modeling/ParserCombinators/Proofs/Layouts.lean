import Mathlib.Data.List.Sort
import ParserCombinators.Grammars.Json
import ParserCombinators.Proofs.Scanners

/-!
# Layouts — the texts of a JSON tree

What it is to be a text of a JSON tree, before any parser: the words of the tree in order, with any
blanks behind each of them.

- `Json.Gathers`: the members of an object, from the members that are written: every key has the
  value of its last occurrence
- `Json.gathers_ofMembers`, `Json.Gathers.eq_ofMembers`: they are `Json.ofMembers`, and nothing else
- `Json.quotations`, `Json.numerals`: the texts of a string and of a number
- `Json.Layout`: the texts of a tree, and of the lists inside it
-/

namespace ParserCombinators

namespace Json

/-! ## Members -/

/-- The last of the written members with this key has this value. -/
def IsLast (written : List (String × Json)) (key : String) (value : Json) : Prop :=
  ∃ earlier later, written = earlier ++ (key, value) :: later ∧ ∀ m ∈ later, m.1 ≠ key

/-- The members of an object, in the order of their keys: each key that is written has the value of
its last occurrence. -/
structure Gathers (written members : List (String × Json)) : Prop where
  sorted : members.Pairwise fun m m' => m.1 < m'.1
  mem_iff : ∀ key value, (key, value) ∈ members ↔ IsLast written key value

theorem isLast_nil {key : String} {value : Json} : ¬ IsLast [] key value := by
  rintro ⟨earlier, later, h, -⟩
  simp at h

/-- `IsLast` over a list with one member more at its end: that member overrides the others with its
key. -/
theorem isLast_append {written : List (String × Json)} {k key : String} {v value : Json} :
    IsLast (written ++ [(k, v)]) key value ↔
      key = k ∧ value = v ∨ key ≠ k ∧ IsLast written key value := by
  constructor
  · rintro ⟨earlier, later, heq, hlater⟩
    -- the member that was added, or else one with another key before it
    rcases List.eq_nil_or_concat later with rfl | ⟨later, m, rfl⟩
    · have hlast : (k, v) = (key, value) := (List.append_inj' heq rfl).2 |> List.cons.inj |>.1
      cases hlast
      exact .inl ⟨rfl, rfl⟩
    · have hsplit : written ++ [(k, v)] = (earlier ++ (key, value) :: later) ++ [m] := by
        simpa using heq
      rcases List.append_inj' hsplit rfl with ⟨hwritten, hm⟩
      cases hm
      refine .inr ⟨fun h => ?_, earlier, later, hwritten, fun m hm => hlater m (by simp [hm])⟩
      exact hlater (k, v) (by simp) h.symm
  · rintro (⟨rfl, rfl⟩ | ⟨hne, earlier, later, rfl, hlater⟩)
    · exact ⟨written, [], rfl, by simp⟩
    · refine ⟨earlier, later ++ [(k, v)], by simp, fun m hm => ?_⟩
      rcases List.mem_append.1 hm with hm | hm
      · exact hlater m hm
      · rw [List.mem_singleton.1 hm]
        exact hne.symm

/-- Keys are in a linear order. -/
theorem lt_of_not_lt {k k' : String} (h : ¬ k < k') (hne : k ≠ k') : k' < k := by
  by_contra hle
  exact hne (String.le_antisymm (String.not_lt.1 hle) (String.not_lt.1 h))

/-- Membership in `(k, v) :: rest` in the form that `isLast_append` has, for a `rest` without the
key `k`. -/
theorem mem_cons_of_ne {rest : List (String × Json)} {k key : String} {v value : Json}
    (hrest : ∀ m ∈ rest, m.1 ≠ k) :
    (key, value) ∈ (k, v) :: rest ↔ key = k ∧ value = v ∨ key ≠ k ∧ (key, value) ∈ rest := by
  rw [List.mem_cons, Prod.mk.injEq]
  constructor
  · rintro (h | h)
    · exact .inl h
    · exact .inr ⟨hrest _ h, h⟩
  · rintro (h | ⟨-, h⟩)
    · exact .inl h
    · exact .inr h

/-- `insert k v` overrides the member with key `k` and keeps the others, on members in strict order
of their keys. By induction on the members. -/
theorem mem_insert {members : List (String × Json)} {k key : String} {v value : Json}
    (h : members.Pairwise fun m m' => m.1 < m'.1) :
    (key, value) ∈ insert k v members ↔
      key = k ∧ value = v ∨ key ≠ k ∧ (key, value) ∈ members := by
  induction members with
  | nil => exact mem_cons_of_ne (by simp)
  | cons m members ih =>
    rcases m with ⟨k', v'⟩
    rcases List.pairwise_cons.1 h with ⟨hfirst, hrest⟩
    unfold insert
    split
    -- the new key comes before all others
    · next hlt =>
      refine mem_cons_of_ne fun m hm => ?_
      rcases List.mem_cons.1 hm with rfl | hm
      · exact (String.ne_of_lt hlt).symm
      · exact (String.ne_of_lt (String.lt_trans hlt (hfirst m hm))).symm
    · split
      -- the new member takes the place of one with its key
      · next heq =>
        subst heq
        have hne : ∀ m ∈ members, m.1 ≠ k := fun m hm => (String.ne_of_lt (hfirst m hm)).symm
        rw [mem_cons_of_ne hne, mem_cons_of_ne hne]
        constructor
        · rintro (hnew | ⟨hkey, hold⟩)
          · exact .inl hnew
          · exact .inr ⟨hkey, .inr ⟨hkey, hold⟩⟩
        · rintro (hnew | ⟨hkey, hself | hold⟩)
          · exact .inl hnew
          · exact absurd hself.1 hkey
          · exact .inr hold
      -- the new member goes somewhere behind the first one
      · next hne =>
        rw [List.mem_cons, List.mem_cons, ih hrest, Prod.mk.injEq]
        constructor
        · rintro (⟨rfl, rfl⟩ | hnew | ⟨hkey, hold⟩)
          · exact .inr ⟨fun heq => hne heq.symm, .inl ⟨rfl, rfl⟩⟩
          · exact .inl hnew
          · exact .inr ⟨hkey, .inr hold⟩
        · rintro (hnew | ⟨hkey, hself | hold⟩)
          · exact .inr (.inl hnew)
          · exact .inl hself
          · exact .inr (.inr ⟨hkey, hold⟩)

/-- `insert` keeps the strict order of the keys. -/
theorem sorted_insert {members : List (String × Json)} (k : String) (v : Json)
    (h : members.Pairwise fun m m' => m.1 < m'.1) :
    (insert k v members).Pairwise fun m m' => m.1 < m'.1 := by
  induction members with
  | nil => exact List.pairwise_singleton _ _
  | cons m members ih =>
    rcases m with ⟨k', v'⟩
    rcases List.pairwise_cons.1 h with ⟨hfirst, hrest⟩
    unfold insert
    split
    · next hlt =>
      refine List.pairwise_cons.2 ⟨fun m hm => ?_, h⟩
      -- every key of the old list is above the first one of it, which is above the new key
      rcases List.mem_cons.1 hm with rfl | hm
      · exact hlt
      · exact String.lt_trans hlt (hfirst m hm)
    · split
      · next heq =>
        subst heq
        exact List.pairwise_cons.2 ⟨hfirst, hrest⟩
      · next hnlt hne =>
        -- what is inserted behind the first member is still above it
        refine List.pairwise_cons.2 ⟨fun m hm => ?_, ih hrest⟩
        rcases (mem_insert hrest).1 hm with ⟨heq, -⟩ | ⟨-, hold⟩
        · rw [heq]
          exact lt_of_not_lt hnlt hne
        · exact hfirst m hold

/-- `ofMembers written` is gathered from `written`. By induction on the last member that is written:
`insert` does to the members what `isLast_append` says. -/
theorem gathers_ofMembers (written : List (String × Json)) :
    Gathers written (ofMembers written) := by
  induction written using List.reverseRecOn with
  | nil => exact ⟨List.Pairwise.nil, fun key value => by simpa [ofMembers] using isLast_nil⟩
  | append_singleton written m ih =>
    have hstep : ofMembers (written ++ [m]) = insert m.1 m.2 (ofMembers written) := by
      simp [ofMembers]
    rw [hstep]
    refine ⟨sorted_insert m.1 m.2 ih.sorted, fun key value => ?_⟩
    rw [mem_insert ih.sorted, isLast_append, ih.mem_iff]

/-- `Gathers written` determines the members: two lists in strict order with the same elements are
equal. -/
theorem Gathers.eq_ofMembers {written members : List (String × Json)}
    (h : Gathers written members) : members = ofMembers written := by
  let before : String × Json → String × Json → Prop := fun m m' => m.1 < m'.1
  have hirrefl : Std.Irrefl before := ⟨fun m => String.lt_irrefl m.1⟩
  have hantisymm : Std.Antisymm before :=
    ⟨fun m m' hlt hgt => absurd hgt (String.lt_asymm hlt)⟩
  -- lists in strict order are equal if they have the same elements
  refine List.Pairwise.eq_of_mem_iff (r := before) h.sorted (gathers_ofMembers written).sorted ?_
  rintro ⟨key, value⟩
  rw [h.mem_iff, (gathers_ofMembers written).mem_iff]

/-! ## Words -/

def quotations (s : String) : Language Char :=
  {text | '"' ∉ s.toList ∧ text = '"' :: (s.toList ++ ['"'])}

def isNumeric (ch : Char) : Bool :=
  "-+.eE0123456789".toList.contains ch

/-- The texts of a number: one or more characters of numbers that read as it. -/
def numerals (x : Binary64) : Language Char :=
  {text | text ≠ [] ∧ (∀ ch ∈ text, isNumeric ch = true) ∧
    Binary64.ofText? (String.ofList text) = some x}

/-! ## Trees -/

/-- What is laid out: a tree, a key with its value, or a list of such, with separators between each
two of them or, for the later ones of a list, before each of them. -/
inductive Phrase where
  | tree (v : Json)
  | member (m : String × Json)
  | items (vs : List Json)
  | laterItems (vs : List Json)
  | members (ms : List (String × Json))
  | laterMembers (ms : List (String × Json))

/-- The texts of a phrase. -/
inductive Layout : Phrase → List Char → Prop where
  | null {w : List Char} : w ∈ Text.words {"null".toList} → Layout (.tree .null) w
  | yes {w : List Char} : w ∈ Text.words {"true".toList} → Layout (.tree (.bool true)) w
  | no {w : List Char} : w ∈ Text.words {"false".toList} → Layout (.tree (.bool false)) w
  | num {x : Binary64} {w : List Char} : w ∈ Text.words (numerals x) → Layout (.tree (.num x)) w
  | str {s : String} {w : List Char} : w ∈ Text.words (quotations s) → Layout (.tree (.str s)) w
  | array {vs : List Json} {opened inside closed : List Char} :
      opened ∈ Text.words {['[']} → Layout (.items vs) inside → closed ∈ Text.words {[']']} →
        Layout (.tree (.array vs)) (opened ++ (inside ++ closed))
  | object {written members : List (String × Json)} {opened inside closed : List Char} :
      opened ∈ Text.words {['\x7b']} → Layout (.members written) inside →
        closed ∈ Text.words {['\x7d']} → Gathers written members →
          Layout (.tree (.object members)) (opened ++ (inside ++ closed))
  | member {key : String} {v : Json} {name colon w : List Char} :
      name ∈ Text.words (quotations key) → colon ∈ Text.words {[':']} → Layout (.tree v) w →
        Layout (.member (key, v)) (name ++ (colon ++ w))
  | noItems : Layout (.items []) []
  | items {v : Json} {vs : List Json} {w later : List Char} :
      Layout (.tree v) w → Layout (.laterItems vs) later → Layout (.items (v :: vs)) (w ++ later)
  | noLaterItems : Layout (.laterItems []) []
  | laterItems {v : Json} {vs : List Json} {comma w later : List Char} :
      comma ∈ Text.words {[',']} → Layout (.tree v) w → Layout (.laterItems vs) later →
        Layout (.laterItems (v :: vs)) (comma ++ (w ++ later))
  | noMembers : Layout (.members []) []
  | members {m : String × Json} {ms : List (String × Json)} {w later : List Char} :
      Layout (.member m) w → Layout (.laterMembers ms) later →
        Layout (.members (m :: ms)) (w ++ later)
  | noLaterMembers : Layout (.laterMembers []) []
  | laterMembers {m : String × Json} {ms : List (String × Json)} {comma w later : List Char} :
      comma ∈ Text.words {[',']} → Layout (.member m) w → Layout (.laterMembers ms) later →
        Layout (.laterMembers (m :: ms)) (comma ++ (w ++ later))

def layouts (v : Json) : Language Char :=
  {text | Layout (.tree v) text}

end Json

end ParserCombinators
