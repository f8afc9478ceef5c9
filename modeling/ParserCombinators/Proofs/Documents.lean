import ParserCombinators.Proofs.Layouts
import ParserCombinators.Proofs.Matches
import ParserCombinators.Proofs.Termination

/-!
# Documents — the JSON grammar reads layouts

The parser for JSON takes a text for a tree exactly if the text is a layout of the tree. The choice
between the forms of a tree is settled by their first characters, and the end of each word by the
character behind it, so that no choice and no repetition has to be taken back for good.

- `Json.ending_tree`: the forms of a tree, one after the other
- `Json.Phrase.IsRead`, `Json.isRead_of_layout`: every layout is taken, for its tree
- `Json.ensures_tree`: only layouts are taken, and nothing panics
- `Json.parse_returns_layout`: the two together, for whole texts
-/

namespace ParserCombinators

open Cursor (Between)

namespace Json

/-! ## The forms of a tree -/

/-- The one rule, unfolded once; `Grammar.ending` needs no fuel. -/
theorem ending_rule_tree (c : Cursor) :
    grammar.ending (.rule .tree) c = grammar.ending (tree (.rule .tree)) c :=
  grammar.ending_rule .tree c

/-- The choice of `tree` as a chain of `orElse`, with its boxes and labels gone. -/
theorem ending_tree (c : Cursor) :
    grammar.ending (.rule .tree) c =
      (grammar.ending (members (.rule .tree)) c
        |>.orElse (grammar.ending (items (.rule .tree)) c)
        |>.orElse (grammar.ending (Json.str <$> string) c)
        |>.orElse (grammar.ending number c)
        |>.orElse (grammar.ending (literal "true" (.bool true)) c)
        |>.orElse (grammar.ending (literal "false" (.bool false)) c)
        |>.orElse (grammar.ending (literal "null" .null) c)) := by
  rw [ending_rule_tree]
  unfold tree
  simp only [Grammar.ending_boxed, Grammar.ending_named, Grammar.ending_or]

/-- The kind of characters behind which a word that is a number goes on. -/
def continues (ch : Char) : Bool :=
  Text.isBlank ch || isNumeric ch

section

variable {before rest : List Char} {ch : Char}

/-- The forms fail on a first character that is not theirs: one lemma for each form, for the proofs
that go past it. -/
theorem ending_members_of_ne (h : ch ≠ '\x7b') :
    grammar.ending (members (.rule .tree)) ⟨before, ch :: rest⟩ = .returned .failure := by
  have hclear : Text.Clear (· == '\x7b') (ch :: rest) := Text.clear_cons.2 (by simpa using h)
  unfold members
  rw [Grammar.ending_bind, grammar.ending_token_char_of_clear hclear, Ending.failure_andThen]

theorem ending_items_of_ne (h : ch ≠ '[') :
    grammar.ending (items (.rule .tree)) ⟨before, ch :: rest⟩ = .returned .failure := by
  have hclear : Text.Clear (· == '[') (ch :: rest) := Text.clear_cons.2 (by simpa using h)
  unfold items
  rw [Grammar.ending_bind, grammar.ending_token_char_of_clear hclear, Ending.failure_andThen]

theorem ending_string_of_ne (h : ch ≠ '"') :
    grammar.ending string ⟨before, ch :: rest⟩ = .returned .failure := by
  have hclear : Text.Clear (· == '"') (ch :: rest) := Text.clear_cons.2 (by simpa using h)
  unfold string
  rw [Grammar.ending_token, Grammar.ending_bind, grammar.ending_char_of_clear hclear,
    Ending.failure_andThen, Ending.failure_andThen]

theorem ending_str_of_ne (h : ch ≠ '"') :
    grammar.ending (Json.str <$> string) ⟨before, ch :: rest⟩ = .returned .failure := by
  rw [Grammar.ending_functor_map, ending_string_of_ne h, Ending.failure_andThen]

/-- `oneOf` over the characters of numbers takes the longest run of them. -/
theorem ending_numeric (c : Cursor) :
    grammar.ending (.plus (.oneOf "-+.eE0123456789")) c =
      .returned (if c.rest.takeWhile isNumeric = [] then .failure
        else .success (c.skip isNumeric) (c.rest.takeWhile isNumeric)) :=
  grammar.ending_plus_satisfy (fun c => grammar.ending_oneOf _ c) c

theorem ending_number_of_not_numeric (h : isNumeric ch = false) :
    grammar.ending number ⟨before, ch :: rest⟩ = .returned .failure := by
  have hrun : (ch :: rest).takeWhile isNumeric = [] := by simp [h]
  unfold number
  rw [Grammar.ending_bind, Grammar.ending_token, ending_numeric, if_pos hrun,
    Ending.failure_andThen, Ending.failure_andThen]

/-- A literal fails if its own first character is another one. -/
theorem ending_literal_of_ne {first : Char} {word : String} {v : Json}
    (hword : ∃ more, word.toList = first :: more) (h : ch ≠ first) :
    grammar.ending (literal word v) ⟨before, ch :: rest⟩ = .returned .failure := by
  rcases hword with ⟨more, hmore⟩
  have hstart : ¬ word.toList <+: ch :: rest := by
    rw [hmore, List.cons_prefix_cons]
    exact fun heq => h heq.1.symm
  unfold literal
  rw [Grammar.ending_functor_map, Grammar.ending_token, Grammar.ending_str, if_neg hstart,
    Ending.failure_andThen, Ending.failure_andThen]

end

/-- No tree begins with a closing bracket, so an empty array has no first item. -/
theorem ending_tree_closing (before rest : List Char) :
    grammar.ending (.rule .tree) ⟨before, ']' :: rest⟩ = .returned .failure := by
  rw [ending_tree, ending_members_of_ne (by decide), ending_items_of_ne (by decide),
    ending_str_of_ne (by decide), ending_number_of_not_numeric (by decide),
    ending_literal_of_ne ⟨_, rfl⟩ (by decide), ending_literal_of_ne ⟨_, rfl⟩ (by decide),
    ending_literal_of_ne ⟨_, rfl⟩ (by decide)]
  rfl

/-! ## Words -/

/-- Blanks and characters of numbers are disjoint. By evaluation over the set. -/
theorem isBlank_eq_false_of_isNumeric {ch : Char} (h : isNumeric ch = true) :
    Text.isBlank ch = false := by
  have hmem : ch ∈ "-+.eE0123456789".toList := by simpa [isNumeric] using h
  have hall : ("-+.eE0123456789".toList.all fun d => !Text.isBlank d) = true := by decide
  simpa using List.all_eq_true.1 hall ch hmem

/-- A numeral begins with a character of numbers. -/
theorem unindented_of_numerals {x : Binary64} {w : List Char} (h : w ∈ numerals x) :
    Text.Unindented w := by
  rcases h with ⟨hnil, hnumeric, -⟩
  cases w with
  | nil => exact absurd rfl hnil
  | cons ch w => exact ⟨ch, w, rfl, isBlank_eq_false_of_isNumeric (hnumeric ch (by simp))⟩

/-- A quotation begins with a quotation mark. -/
theorem unindented_of_quotations {s : String} {w : List Char} (h : w ∈ quotations s) :
    Text.Unindented w := by
  rcases h with ⟨-, rfl⟩
  exact ⟨_, _, rfl, by decide⟩

theorem unindented_singleton {ch : Char} {w : List Char} (hch : Text.isBlank ch = false)
    (h : w ∈ Text.words {[ch]}) : Text.Unindented w := by
  rcases Text.mem_words_singleton.1 h with ⟨spaces, -, rfl⟩
  exact ⟨ch, spaces, rfl, hch⟩

/-- A quoted text is taken up to the first quotation mark, whatever follows it. -/
theorem reads_string {s : String} {text : List Char} (h : text ∈ Text.words (quotations s)) :
    grammar.Reads string s text (Text.Clear Text.isBlank) := by
  rcases Text.mem_words.1 h with ⟨w, ⟨hquote, rfl⟩, spaces, hspaces, rfl⟩
  have hrun : ∀ ch ∈ s.toList, (ch != '"') = true := by
    intro ch hch
    rw [bne_iff_ne]
    rintro rfl
    exact hquote hch
  -- between the quotation marks, the characters are taken up to the first one
  have hquoted : grammar.Reads (do
      let _ ← Parser.char '"'
      let chars ← (Parser.satisfy (· != '"')).star
      (fun _ => String.ofList chars) <$> Parser.char '"') s ('"' :: (s.toList ++ ['"']))
      (Text.Clear fun _ => false) := by
    intro after _ before
    have hclear : Text.Clear (· != '"') ('"' :: after) := Text.clear_cons.2 (by decide)
    have htext : '"' :: (s.toList ++ ['"']) ++ after = '"' :: (s.toList ++ '"' :: after) := by simp
    rw [htext, Grammar.ending_bind, Grammar.ending_char_self, Ending.success_andThen,
      Grammar.ending_bind, grammar.ending_star_satisfy fun _ => rfl,
      Cursor.skip_append hrun hclear, Text.takeWhile_append hrun hclear, Ending.success_andThen,
      Grammar.ending_functor_map, Grammar.ending_char_self, Ending.success_andThen]
    simp
  exact (hquoted.token hspaces fun _ _ => rfl).mono fun after hafter => ⟨fun _ _ _ => rfl, hafter⟩

/-- The run of characters of numbers ends where `follow` says, so the whole numeral is taken and
read. -/
theorem reads_number {x : Binary64} {text : List Char} (h : text ∈ Text.words (numerals x)) :
    grammar.Reads number (.num x) text (Text.Clear continues) := by
  rcases Text.mem_words.1 h with ⟨w, ⟨hnil, hnumeric, hx⟩, spaces, hspaces, rfl⟩
  have hrun : grammar.Reads (.plus (.oneOf "-+.eE0123456789")) w w (Text.Clear isNumeric) := by
    intro after hafter before
    rw [ending_numeric, Text.takeWhile_append hnumeric hafter, if_neg hnil,
      Cursor.skip_append hnumeric hafter]
  -- blanks are no characters of numbers, so the number ends where they begin
  have hkind : ∀ ch, Text.isBlank ch = true → isNumeric ch = false := by
    intro ch hch
    by_contra hne
    simp [isBlank_eq_false_of_isNumeric (by simpa using hne)] at hch
  intro after hafter before
  have hclear : Text.Clear isNumeric after ∧ Text.Clear Text.isBlank after :=
    ⟨hafter.mono fun ch hch => by simp [continues, hch],
      hafter.mono fun ch hch => by simp [continues, hch]⟩
  unfold number
  rw [Grammar.ending_bind, hrun.token hspaces hkind after hclear before, Ending.success_andThen, hx,
    Option.map_some, Grammar.ending_ofOption_some]

/-- A literal word and the blanks behind it. -/
theorem reads_literal {word : String} {v : Json} {text : List Char}
    (h : text ∈ Text.words {word.toList}) :
    grammar.Reads (literal word v) v text (Text.Clear Text.isBlank) := by
  rcases Text.mem_words.1 h with ⟨w, rfl, spaces, hspaces, rfl⟩
  have hword : grammar.Reads (.str word) word word.toList (Text.Clear fun _ => false) := by
    intro after _ before
    rw [Grammar.ending_str, if_pos (List.prefix_append _ _), List.drop_left]
  have htoken := hword.token hspaces fun _ _ => rfl
  exact (htoken.mapValue fun _ => v).mono fun after hafter => ⟨fun _ _ _ => rfl, hafter⟩

theorem cons_of_mem_words {ch : Char} {more text : List Char}
    (h : text ∈ Text.words {ch :: more}) : ∃ rest, text = ch :: rest := by
  rcases Text.mem_words.1 h with ⟨_, rfl, spaces, -, rfl⟩
  exact ⟨more ++ spaces, rfl⟩

/-! ## Every layout is taken -/

/-- A layout is not indented, unless it is empty. -/
theorem clear_of_layout {phrase : Phrase} {text after : List Char} (h : Layout phrase text)
    (hafter : Text.Clear Text.isBlank after) : Text.Clear Text.isBlank (text ++ after) := by
  -- words begin with no blank, and a phrase begins with a word; an empty list is the exception,
  -- and begins with what follows it
  have hword : ∀ (word text after : List Char), Text.Unindented word →
      text ∈ Text.words {word} → Text.Clear Text.isBlank (text ++ after) := by
    intro word text after hword htext
    refine ((Text.unindented_of_mem_words ?_ htext).append after).clear
    rintro w rfl
    exact hword
  -- the induction is for every text behind, as the parts of a list are followed by its other parts
  induction h generalizing after with
  | null hw => exact hword _ _ after ⟨_, _, rfl, by decide⟩ hw
  | yes hw => exact hword _ _ after ⟨_, _, rfl, by decide⟩ hw
  | no hw => exact hword _ _ after ⟨_, _, rfl, by decide⟩ hw
  | num hw =>
    exact ((Text.unindented_of_mem_words (fun _ => unindented_of_numerals) hw).append after).clear
  | str hw =>
    exact ((Text.unindented_of_mem_words (fun _ => unindented_of_quotations) hw).append after).clear
  | array hopened _ _ _ =>
    exact (((unindented_singleton (by decide) hopened).append _).append after).clear
  | object hopened _ _ _ _ =>
    exact (((unindented_singleton (by decide) hopened).append _).append after).clear
  | member hname _ _ _ =>
    have hkey := Text.unindented_of_mem_words (fun _ => unindented_of_quotations) hname
    exact ((hkey.append _).append after).clear
  | noItems | noLaterItems | noMembers | noLaterMembers => exact hafter
  | items _ _ ihfirst ihlater | members _ _ ihfirst ihlater =>
    rw [List.append_assoc]
    exact ihfirst (ihlater hafter)
  | laterItems hcomma _ _ _ _ | laterMembers hcomma _ _ _ _ =>
    exact (((unindented_singleton (by decide) hcomma).append _).append after).clear

/-- The parser of a phrase takes the text for it. Behind a tree there has to be a character that is
not part of a word, and behind a list its closing bracket. -/
def Phrase.IsRead : Phrase → List Char → Prop
  | .tree v, text => grammar.Reads (.rule .tree) v text (Text.Clear continues)
  | .member m, text => grammar.Reads (keyValue (.rule .tree)) m text (Text.Clear continues)
  | .items vs, text =>
    grammar.Reads (separated (.rule .tree) ',') vs text fun after => ∃ rest, after = ']' :: rest
  | .laterItems vs, text =>
    grammar.Reads (.star (do
      let _ ← Lexeme.token (.char ',')
      .rule .tree)) vs text fun after => ∃ rest, after = ']' :: rest
  | .members ms, text =>
    grammar.Reads (separated (keyValue (.rule .tree)) ',') ms text
      fun after => ∃ rest, after = '\x7d' :: rest
  | .laterMembers ms, text =>
    grammar.Reads (.star (do
      let _ ← Lexeme.token (.char ',')
      keyValue (.rule .tree))) ms text fun after => ∃ rest, after = '\x7d' :: rest

section

variable {α : Type} {item : Parser Rule α} {v : α} {vs : List α} {comma w later : List Char}
  {closing : Char}

/-- Later items end where no comma follows. -/
theorem reads_later_nil (hclosing : closing ≠ ',') :
    grammar.Reads (.star (do
      let _ ← Lexeme.token (.char ',')
      item)) [] [] fun after => ∃ rest, after = closing :: rest := by
  refine .star_nil ?_
  rintro _ ⟨rest, rfl⟩ before
  have hclear : Text.Clear (· == ',') (closing :: rest) :=
    Text.clear_cons.2 (by simpa using hclosing)
  rw [Grammar.ending_bind, grammar.ending_token_char_of_clear hclear, Ending.failure_andThen]

/-- A comma, an item and the later ones. What stands behind the item must not go on as a word of
it. -/
theorem reads_later_cons {follow : List Char → Prop} (hcomma : comma ∈ Text.words {[',']})
    (hitem : grammar.Reads item v w (Text.Clear continues))
    (hindent : ∀ after, Text.Clear Text.isBlank after → Text.Clear Text.isBlank (w ++ after))
    (hlater : grammar.Reads (.star (do
      let _ ← Lexeme.token (.char ',')
      item)) vs later follow)
    (hstop : ∀ after, follow after → Text.Clear continues (later ++ after)) :
    grammar.Reads (.star (do
      let _ ← Lexeme.token (.char ',')
      item)) (v :: vs) (comma ++ (w ++ later)) follow := by
  rw [← List.append_assoc]
  refine .star_cons (.bind (.token_char hcomma) hitem ?_) hlater hstop
  intro after hafter
  exact hindent after (hafter.mono fun ch hch => by simp [continues, hch])

/-- Where the first item fails there are none. -/
theorem reads_separated_nil {follow : List Char → Prop} (h : ∀ after, follow after → ∀ before,
    grammar.ending item ⟨before, after⟩ = .returned .failure) :
    grammar.Reads (separated item ',') [] [] follow := by
  refine Grammar.Reads.mapValue _ (.option_none fun after hafter before => ?_)
  rw [Grammar.ending_bind, h after hafter, Ending.failure_andThen]

theorem reads_separated_cons {follow : List Char → Prop}
    (hitem : grammar.Reads item v w (Text.Clear continues))
    (hlater : grammar.Reads (.star (do
      let _ ← Lexeme.token (.char ',')
      item)) vs later follow)
    (hstop : ∀ after, follow after → Text.Clear continues (later ++ after)) :
    grammar.Reads (separated item ',') (v :: vs) (w ++ later) follow :=
  Grammar.Reads.mapValue _ (.option_some (.bind hitem (hlater.mapValue _) hstop))

end

/-- Behind an item there is a comma or the closing bracket, and neither goes on as a word. -/
theorem clear_laterItems {vs : List Json} {later : List Char} (h : Layout (.laterItems vs) later)
    (rest : List Char) : Text.Clear continues (later ++ ']' :: rest) := by
  cases h with
  | noLaterItems => exact Text.clear_cons.2 (by decide)
  | laterItems hcomma _ _ =>
    rcases Text.mem_words_singleton.1 hcomma with ⟨spaces, -, rfl⟩
    exact Text.clear_cons.2 (by decide)

theorem clear_laterMembers {ms : List (String × Json)} {later : List Char}
    (h : Layout (.laterMembers ms) later) (rest : List Char) :
    Text.Clear continues (later ++ '\x7d' :: rest) := by
  cases h with
  | noLaterMembers => exact Text.clear_cons.2 (by decide)
  | laterMembers hcomma _ _ =>
    rcases Text.mem_words_singleton.1 hcomma with ⟨spaces, -, rfl⟩
    exact Text.clear_cons.2 (by decide)

/-- Brackets and what is between them; `clear_of_layout` lets the blanks behind the bracket end
there. -/
theorem reads_items {vs : List Json} {opened inside closed : List Char}
    (hopened : opened ∈ Text.words {['[']}) (hinside : Layout (.items vs) inside)
    (hread : (Phrase.items vs).IsRead inside) (hclosed : closed ∈ Text.words {[']']}) :
    grammar.Reads (items (.rule .tree)) (.array vs) (opened ++ (inside ++ closed))
      (Text.Clear Text.isBlank) := by
  rcases Text.mem_words_singleton.1 hclosed with ⟨spaces, -, rfl⟩
  refine .bind (.token_char hopened)
    (.bind hread ((Grammar.Reads.token_char hclosed).mapValue _) fun after _ => ⟨_, rfl⟩) ?_
  intro after _
  rw [List.append_assoc]
  exact clear_of_layout hinside (Text.clear_cons.2 (by decide))

theorem reads_members {ms : List (String × Json)} {opened inside closed : List Char}
    (hopened : opened ∈ Text.words {['\x7b']}) (hinside : Layout (.members ms) inside)
    (hread : (Phrase.members ms).IsRead inside) (hclosed : closed ∈ Text.words {['\x7d']}) :
    grammar.Reads (members (.rule .tree)) (.object (ofMembers ms)) (opened ++ (inside ++ closed))
      (Text.Clear Text.isBlank) := by
  rcases Text.mem_words_singleton.1 hclosed with ⟨spaces, -, rfl⟩
  refine .bind (.token_char hopened)
    (.bind hread ((Grammar.Reads.token_char hclosed).mapValue _) fun after _ => ⟨_, rfl⟩) ?_
  intro after _
  rw [List.append_assoc]
  exact clear_of_layout hinside (Text.clear_cons.2 (by decide))

/-- A key, a colon and a tree, each with the blanks behind it. -/
theorem reads_keyValue {key : String} {v : Json} {name colon w : List Char}
    (hname : name ∈ Text.words (quotations key)) (hcolon : colon ∈ Text.words {[':']})
    (htree : Layout (.tree v) w) (hread : (Phrase.tree v).IsRead w) :
    (Phrase.member (key, v)).IsRead (name ++ (colon ++ w)) := by
  refine .bind (reads_string hname) (.bind (.token_char hcolon) (hread.mapValue _) ?_) ?_
  · intro after hafter
    exact clear_of_layout htree (hafter.mono fun ch hch => by simp [continues, hch])
  · intro after hafter
    exact (((unindented_singleton (by decide) hcolon).append w).append after).clear

/-- Every layout is taken for what it lays out. Induction on the layout; the forms that come earlier
in the choice fail on the first character. -/
theorem isRead_of_layout {phrase : Phrase} {text : List Char} (h : Layout phrase text) :
    phrase.IsRead text := by
  have hblank : ∀ after, Text.Clear continues after → Text.Clear Text.isBlank after :=
    fun after hafter => hafter.mono fun ch hch => by simp [continues, hch]
  -- for each form, the forms before it fail on the first character of the text
  induction h with
  | null hw =>
    intro after hafter before
    have hread := reads_literal (v := .null) hw after (hblank after hafter) before
    rcases cons_of_mem_words hw with ⟨rest, rfl⟩
    rw [List.cons_append] at hread ⊢
    rw [ending_tree, ending_members_of_ne (by decide), ending_items_of_ne (by decide),
      ending_str_of_ne (by decide), ending_number_of_not_numeric (by decide),
      ending_literal_of_ne ⟨_, rfl⟩ (by decide), ending_literal_of_ne ⟨_, rfl⟩ (by decide), hread]
    rfl
  | yes hw =>
    intro after hafter before
    have hread := reads_literal (v := .bool true) hw after (hblank after hafter) before
    rcases cons_of_mem_words hw with ⟨rest, rfl⟩
    rw [List.cons_append] at hread ⊢
    rw [ending_tree, ending_members_of_ne (by decide), ending_items_of_ne (by decide),
      ending_str_of_ne (by decide), ending_number_of_not_numeric (by decide), hread]
    rfl
  | no hw =>
    intro after hafter before
    have hread := reads_literal (v := .bool false) hw after (hblank after hafter) before
    rcases cons_of_mem_words hw with ⟨rest, rfl⟩
    rw [List.cons_append] at hread ⊢
    rw [ending_tree, ending_members_of_ne (by decide), ending_items_of_ne (by decide),
      ending_str_of_ne (by decide), ending_number_of_not_numeric (by decide),
      ending_literal_of_ne ⟨_, rfl⟩ (by decide), hread]
    rfl
  | num hw =>
    intro after hafter before
    have hread := reads_number hw after hafter before
    rcases Text.mem_words.1 hw with ⟨w, ⟨hnil, hnumeric, -⟩, spaces, -, rfl⟩
    cases w with
    | nil => exact absurd rfl hnil
    | cons ch w =>
      -- a character of numbers opens no bracket and no string
      have hch : isNumeric ch = true := hnumeric ch (by simp)
      have hne : ∀ d, isNumeric d = false → ch ≠ d := by
        rintro d hd rfl
        rw [hch] at hd
        cases hd
      rw [List.cons_append, List.cons_append] at hread ⊢
      rw [ending_tree, ending_members_of_ne (hne _ (by decide)),
        ending_items_of_ne (hne _ (by decide)), ending_str_of_ne (hne _ (by decide)), hread]
      rfl
  | str hw =>
    intro after hafter before
    have hread := (reads_string hw).mapValue Json.str after (hblank after hafter) before
    rcases Text.mem_words.1 hw with ⟨_, ⟨-, rfl⟩, spaces, -, rfl⟩
    rw [List.cons_append, List.cons_append] at hread ⊢
    rw [ending_tree, ending_members_of_ne (by decide), ending_items_of_ne (by decide), hread]
    rfl
  | array hopened hinside hclosed ih =>
    intro after hafter before
    have hread := reads_items hopened hinside ih hclosed after (hblank after hafter) before
    rcases cons_of_mem_words hopened with ⟨rest, rfl⟩
    rw [List.cons_append, List.cons_append] at hread ⊢
    rw [ending_tree, ending_members_of_ne (by decide), hread]
    rfl
  | object hopened hinside hclosed hgathers ih =>
    intro after hafter before
    -- objects come first among the forms, so there is nothing that could fail
    rw [hgathers.eq_ofMembers, ending_tree,
      reads_members hopened hinside ih hclosed after (hblank after hafter) before]
    rfl
  | member hname hcolon htree ih => exact reads_keyValue hname hcolon htree ih
  | noItems =>
    refine reads_separated_nil ?_
    rintro _ ⟨rest, rfl⟩ before
    exact ending_tree_closing before rest
  | items hfirst hlater ihfirst ihlater =>
    refine reads_separated_cons ihfirst ihlater ?_
    rintro _ ⟨rest, rfl⟩
    exact clear_laterItems hlater rest
  | noLaterItems => exact reads_later_nil (by decide)
  | laterItems hcomma hfirst hlater ihfirst ihlater =>
    refine reads_later_cons hcomma ihfirst (fun _ => clear_of_layout hfirst) ihlater ?_
    rintro _ ⟨rest, rfl⟩
    exact clear_laterItems hlater rest
  | noMembers =>
    refine reads_separated_nil ?_
    rintro _ ⟨rest, rfl⟩ before
    unfold keyValue
    rw [Grammar.ending_bind, ending_string_of_ne (by decide), Ending.failure_andThen]
  | members hfirst hlater ihfirst ihlater =>
    refine reads_separated_cons ihfirst ihlater ?_
    rintro _ ⟨rest, rfl⟩
    exact clear_laterMembers hlater rest
  | noLaterMembers => exact reads_later_nil (by decide)
  | laterMembers hcomma hfirst hlater ihfirst ihlater =>
    refine reads_later_cons hcomma ihfirst (fun _ => clear_of_layout hfirst) ihlater ?_
    rintro _ ⟨rest, rfl⟩
    exact clear_laterMembers hlater rest

/-! ## Only layouts are taken -/

def Never (_ : Panic) : Prop :=
  False

/-- Between its marks, a string that was taken has no quotation mark. -/
theorem ensures_string (c : Cursor) :
    (grammar.ending string c).Ensures (fun c' s => Between (Text.words (quotations s)) c c')
      Never := by
  refine grammar.ensures_token ?_
  rw [Grammar.ending_bind]
  refine (grammar.ensures_char '"' Never c).andThen fun opened _ hopened => ?_
  rw [Grammar.ending_bind, grammar.ending_star_satisfy fun _ => rfl, Ending.success_andThen,
    Grammar.ending_functor_map]
  refine (grammar.ensures_char '"' Never _).andThen fun closed _ hclosed => .returned ?_
  rcases hopened with ⟨_, rfl, hopened⟩
  rcases hclosed with ⟨_, rfl, hclosed⟩
  refine ⟨'"' :: (opened.rest.takeWhile (· != '"') ++ ['"']), ⟨?_, by simp⟩, ?_⟩
  · rw [String.toList_ofList]
    intro hquote
    have hne : ('"' != '"') = true := List.mem_takeWhile_imp (p := fun ch => ch != '"') hquote
    exact absurd hne (by decide)
  · have hrun : opened.rest = opened.rest.takeWhile (· != '"') ++ (['"'] ++ closed.rest) := by
      rw [← hclosed]
      exact opened.rest_eq_append_skip _
    calc
      c.rest = '"' :: opened.rest := hopened
      _ = '"' :: (opened.rest.takeWhile (· != '"') ++ (['"'] ++ closed.rest)) := congrArg _ hrun
      _ = '"' :: (opened.rest.takeWhile (· != '"') ++ ['"']) ++ closed.rest :=
        congrArg _ (List.append_assoc _ _ _).symm

/-- A run of characters of numbers that `Binary64.ofText?` refuses is a failure, not a shorter
number. -/
theorem ensures_number (c : Cursor) :
    (grammar.ending number c).Ensures (fun c' v => Between (layouts v) c c') Never := by
  have hrun : (grammar.ending (.plus (.oneOf "-+.eE0123456789")) c).Ensures
      (fun c' chars => Between {text | text = chars ∧ text ≠ [] ∧
        ∀ ch ∈ text, isNumeric ch = true} c c') Never := by
    rw [ending_numeric]
    split
    · exact .failure
    · next hnil =>
      exact .returned ⟨c.rest.takeWhile isNumeric, ⟨rfl, hnil, fun _ => List.mem_takeWhile_imp⟩,
        c.rest_eq_append_skip isNumeric⟩
  unfold number
  rw [Grammar.ending_bind]
  refine (grammar.ensures_token hrun).andThen fun c' chars hchars => ?_
  -- the characters alone do not make a number; a text of them may still be refused
  cases hx : Binary64.ofText? (String.ofList chars) with
  | none =>
    rw [Option.map_none, Grammar.ending_ofOption_none]
    exact .failure
  | some x =>
    rw [Option.map_some, Grammar.ending_ofOption_some]
    refine .returned (hchars.mono fun text htext => .num ?_)
    rcases Text.mem_words.1 htext with ⟨w, ⟨rfl, hnil, hnumeric⟩, spaces, hspaces, rfl⟩
    exact Text.mem_words.2 ⟨w, ⟨hnil, hnumeric, hx⟩, spaces, hspaces, rfl⟩

/-- What `str` takes is the word itself. -/
theorem ensures_literal {word : String} {v : Json}
    (h : ∀ text ∈ Text.words {word.toList}, Layout (.tree v) text) (c : Cursor) :
    (grammar.ending (literal word v) c).Ensures (fun c' v => Between (layouts v) c c') Never := by
  have hword : (grammar.ending (.str word) c).Ensures
      (fun c' _ => Between {word.toList} c c') Never := by
    rcases c with ⟨before, rest⟩
    rw [Grammar.ending_str]
    split
    · next hstart =>
      rcases hstart with ⟨more, rfl⟩
      exact .returned ⟨word.toList, rfl, by simp⟩
    · exact .failure
  unfold literal
  rw [Grammar.ending_functor_map]
  refine (grammar.ensures_token hword).andThen fun c' _ hc' => .returned ?_
  exact hc'.mono h

/-- Texts of the languages in order, with a comma and blanks between each two of them. -/
def listed : List (Language Char) → Language Char
  | [] => 1
  | L :: Ls => L * (Ls.map fun M => Text.words {[',']} * M).prod

/-- What is taken for a list is a text of `listed`. The items are sound on texts up to length `n`;
rounds only make the text shorter. -/
theorem ensures_separated {α : Type} {item : Parser Rule α} {L : α → Language Char} {n : Nat}
    (hitem : ∀ c : Cursor, c.rest.length ≤ n →
      (grammar.ending item c).Ensures (fun c' v => Between (L v) c c') Never)
    (c : Cursor) (hc : c.rest.length ≤ n) :
    (grammar.ending (separated item ',') c).Ensures
      (fun c' vs => Between (listed (vs.map L)) c c') Never := by
  have hround : ∀ c : Cursor, c.rest.length ≤ n →
      (grammar.ending (do
        let _ ← Lexeme.token (.char ',')
        item) c).Ensures (fun c' v => Between (Text.words {[',']} * L v) c c') Never := by
    intro c hc
    rw [Grammar.ending_bind]
    refine (grammar.ensures_token_char ',' Never c).andThen fun opened _ hopened => ?_
    have hlen : opened.rest.length ≤ n := hopened.suffix.length_le.trans hc
    exact (hitem opened hlen).mono (fun c' v hv => hopened.append hv) fun _ h => h
  unfold separated
  rw [Grammar.ending_functor_map, Grammar.ending_option, Grammar.ending_bind]
  have hnone : Between (listed ((Option.none.getD []).map L)) c c := .nil rfl
  refine Ending.Ensures.andThen (S := fun c' found =>
    Between (listed ((found.getD []).map L)) c c') (.orElse ?_ (.returned hnone))
    fun c' found hfound => .returned hfound
  -- a first item and the later ones, or nothing at all
  refine Ending.Ensures.andThen (S := fun c' vs => Between (listed (vs.map L)) c c') ?_
    fun c' vs hvs => .returned hvs
  refine (hitem c hc).andThen fun next v hv => ?_
  have hlen : next.rest.length ≤ n := hv.suffix.length_le.trans hc
  rw [Grammar.ending_functor_map]
  refine (grammar.ensures_star (P := fun _ => Never) (fun _ => Text.nil_notMem_words_mul)
    (fun _ h => h) hround next hlen).andThen fun last vs hvs => .returned ?_
  rw [List.map_cons, listed, List.map_map]
  exact hv.append hvs

def memberLayouts (m : String × Json) : Language Char :=
  {text | Layout (.member m) text}

/-- From languages to layouts. Induction on the trees. -/
theorem layout_laterItems {vs : List Json} {text : List Char}
    (h : text ∈ ((vs.map layouts).map fun M => Text.words {[',']} * M).prod) :
    Layout (.laterItems vs) text := by
  induction vs generalizing text with
  | nil =>
    have hnil : text = [] := h
    subst hnil
    exact .noLaterItems
  | cons v vs ih =>
    rw [List.map_cons, List.map_cons, List.prod_cons, mul_assoc] at h
    rcases Language.mem_mul.1 h with ⟨comma, hcomma, more, hmore, rfl⟩
    rcases Language.mem_mul.1 hmore with ⟨w, hw, later, hlater, rfl⟩
    exact .laterItems hcomma hw (ih hlater)

theorem layout_items {vs : List Json} {text : List Char} (h : text ∈ listed (vs.map layouts)) :
    Layout (.items vs) text := by
  cases vs with
  | nil =>
    have hnil : text = [] := h
    subst hnil
    exact .noItems
  | cons v vs =>
    rcases Language.mem_mul.1 h with ⟨w, hw, later, hlater, rfl⟩
    exact .items hw (layout_laterItems hlater)

/-- The same for members. Induction on the members. -/
theorem layout_laterMembers {ms : List (String × Json)} {text : List Char}
    (h : text ∈ ((ms.map memberLayouts).map fun M => Text.words {[',']} * M).prod) :
    Layout (.laterMembers ms) text := by
  induction ms generalizing text with
  | nil =>
    have hnil : text = [] := h
    subst hnil
    exact .noLaterMembers
  | cons m ms ih =>
    rw [List.map_cons, List.map_cons, List.prod_cons, mul_assoc] at h
    rcases Language.mem_mul.1 h with ⟨comma, hcomma, more, hmore, rfl⟩
    rcases Language.mem_mul.1 hmore with ⟨w, hw, later, hlater, rfl⟩
    exact .laterMembers hcomma hw (ih hlater)

theorem layout_members {ms : List (String × Json)} {text : List Char}
    (h : text ∈ listed (ms.map memberLayouts)) : Layout (.members ms) text := by
  cases ms with
  | nil =>
    have hnil : text = [] := h
    subst hnil
    exact .noMembers
  | cons m ms =>
    rcases Language.mem_mul.1 h with ⟨w, hw, later, hlater, rfl⟩
    exact .members hw (layout_laterMembers hlater)

/-- The parser for trees takes only layouts at the cursor. -/
def SoundAt (c : Cursor) : Prop :=
  (grammar.ending (.rule .tree) c).Ensures (fun c' v => Between (layouts v) c c') Never

/-- What is taken for a member is one, if what is taken for a tree on shorter texts is one. -/
theorem ensures_keyValue {n : Nat} (hn : ∀ c' : Cursor, c'.rest.length ≤ n → SoundAt c')
    (c : Cursor) (hc : c.rest.length ≤ n) :
    (grammar.ending (keyValue (.rule .tree)) c).Ensures
      (fun c' m => Between (memberLayouts m) c c') Never := by
  unfold keyValue
  rw [Grammar.ending_bind]
  refine (ensures_string c).andThen fun named key hkey => ?_
  rw [Grammar.ending_bind]
  refine (grammar.ensures_token_char ':' Never named).andThen fun after _ hcolon => ?_
  -- the key and the colon before it only make the text shorter
  have hlen : after.rest.length ≤ n :=
    (hcolon.suffix.length_le.trans hkey.suffix.length_le).trans hc
  rw [Grammar.ending_functor_map]
  refine (hn after hlen).andThen fun last v hv => .returned ?_
  refine (hkey.append (hcolon.append hv)).mono fun text htext => ?_
  rcases Language.mem_mul.1 htext with ⟨name, hname, more, hmore, rfl⟩
  rcases Language.mem_mul.1 hmore with ⟨colon, hcolon, w, hw, rfl⟩
  exact .member hname hcolon hw

section

variable {c : Cursor}
  (hinner : ∀ c' : Cursor, c'.rest.length < c.rest.length → SoundAt c')

include hinner

/-- Behind a bracket the unread text is shorter, so the hypothesis of the induction applies
there. -/
theorem soundAt_of_opened {ch : Char} {opened : Cursor}
    (hopened : Between (Text.words {[ch]}) c opened) :
    ∀ c' : Cursor, c'.rest.length ≤ opened.rest.length → SoundAt c' := by
  have hshort : opened.rest.length < c.rest.length := hopened.length_lt Text.nil_notMem_words
  exact fun c' hc' => hinner c' (hc'.trans_lt hshort)

/-- Arrays, given that trees are sound on shorter texts. -/
theorem ensures_items :
    (grammar.ending (items (.rule .tree)) c).Ensures (fun c' v => Between (layouts v) c c')
      Never := by
  unfold items
  rw [Grammar.ending_bind]
  refine (grammar.ensures_token_char '[' Never c).andThen fun opened _ hopened => ?_
  have hlist := ensures_separated (soundAt_of_opened hinner hopened) opened le_rfl
  rw [Grammar.ending_bind]
  refine hlist.andThen fun inside vs hvs => ?_
  rw [Grammar.ending_functor_map]
  refine (grammar.ensures_token_char ']' Never inside).andThen fun closed _ hclosed => .returned ?_
  refine (hopened.append (hvs.append hclosed)).mono fun text htext => ?_
  rcases Language.mem_mul.1 htext with ⟨start, hstart, more, hmore, rfl⟩
  rcases Language.mem_mul.1 hmore with ⟨body, hbody, last, hlast, rfl⟩
  exact .array hstart (layout_items hbody) hlast

/-- Objects, in the same way; `gathers_ofMembers` says what becomes of repeated keys. -/
theorem ensures_members :
    (grammar.ending (members (.rule .tree)) c).Ensures (fun c' v => Between (layouts v) c c')
      Never := by
  unfold members
  rw [Grammar.ending_bind]
  refine (grammar.ensures_token_char '\x7b' Never c).andThen fun opened _ hopened => ?_
  have hlist :=
    ensures_separated (ensures_keyValue (soundAt_of_opened hinner hopened)) opened le_rfl
  rw [Grammar.ending_bind]
  refine hlist.andThen fun inside ms hms => ?_
  rw [Grammar.ending_functor_map]
  refine (grammar.ensures_token_char '\x7d' Never inside).andThen
    fun closed _ hclosed => .returned ?_
  refine (hopened.append (hms.append hclosed)).mono fun text htext => ?_
  rcases Language.mem_mul.1 htext with ⟨start, hstart, more, hmore, rfl⟩
  rcases Language.mem_mul.1 hmore with ⟨body, hbody, last, hlast, rfl⟩
  exact .object hstart (layout_members hbody) hlast (gathers_ofMembers ms)

end

/-- What is taken for a tree is a layout of it, and nothing panics. Strong induction on the length
of the unread text. -/
theorem ensures_tree (c : Cursor) : SoundAt c := by
  -- what stands between brackets is shorter than the brackets with it
  induction hlen : c.rest.length using Nat.strong_induction_on generalizing c with
  | _ n ih =>
    have hinner : ∀ c' : Cursor, c'.rest.length < c.rest.length → SoundAt c' :=
      fun c' hc' => ih _ (hlen ▸ hc') c' rfl
    have hstr : (grammar.ending (Json.str <$> string) c).Ensures
        (fun c' v => Between (layouts v) c c') Never := by
      rw [Grammar.ending_functor_map]
      exact (ensures_string c).andThen fun c' s hs => .returned (hs.mono fun _ => .str)
    unfold SoundAt
    rw [ending_tree]
    exact (ensures_members hinner).orElse (ensures_items hinner) |>.orElse hstr
      |>.orElse (ensures_number c) |>.orElse (ensures_literal (fun _ => .yes) c)
      |>.orElse (ensures_literal (fun _ => .no) c) |>.orElse (ensures_literal (fun _ => .null) c)

/-! ## Whole texts -/

/-- A parse is the answer of the grammar alone with its text. -/
theorem parse_eq_answer (text : String) : parse text = grammar.answer (.rule .tree) text := rfl

/-- The fuel of `parse` is enough: the grammar is solid, see
`Grammar.endingAt_fuelFor_ne_exhausted`. -/
theorem ends_alone (text : String) :
    grammar.endingAt (grammar.fuelFor (.ofText text)) (Grammar.alone (.rule .tree))
      (.ofText text) ≠ .exhausted := by
  refine Grammar.endingAt_fuelFor_ne_exhausted ?_ solid_body tame_document _
  rw [Nat.card_unique]
  rfl

/-- Completeness: a layout, with blanks before it, is parsed to its tree. -/
theorem ending_parse_of_mem {v : Json} {text : String}
    (h : text.toList ∈ Text.blanks * layouts v) (level : Trace.Level) (label : String) :
    (parse text level label).ending = .returned (some v) := by
  rcases Language.mem_mul.1 h with ⟨spaces, hspaces, body, hbody, htext⟩
  -- a layout begins with no blank, so the blanks before it are exactly those that are skipped
  have hclear : Text.Clear Text.isBlank body := by
    simpa using clear_of_layout hbody Text.clear_nil
  have hread : grammar.ending (.rule .tree) ⟨spaces.reverse, body⟩ =
      .returned (.success ⟨body.reverse ++ spaces.reverse, []⟩ v) := by
    have htree : (Phrase.tree v).IsRead body := isRead_of_layout hbody
    simpa only [List.append_nil] using htree [] Text.clear_nil spaces.reverse
  rw [parse_eq_answer, grammar.answer_of_append (ends_alone text) htext hspaces hclear, hread]
  rfl

/-- Parsing a text comes to an end without a panic, and gives a tree exactly if the text is a layout
of it, with blanks before it. -/
theorem parse_returns_layout (text : String) (level : Trace.Level) (label : String) :
    ∃ result, (parse text level label).ending = .returned result ∧
      ∀ v, result = some v ↔ text.toList ∈ Text.blanks * layouts v := by
  have hsound : SoundAt ((Cursor.ofText text).skip Text.isBlank) := ensures_tree _
  rcases grammar.mem_of_answer (ends_alone text) hsound level label with ⟨hvalues, hpanics⟩
  have hends : (grammar.answer (.rule .tree) text level label).ending ≠ .exhausted :=
    grammar.answer_ne_exhausted (ends_alone text) level label
  rw [← parse_eq_answer] at hvalues hpanics hends
  cases h : (parse text level label).ending with
  | returned result =>
    refine ⟨result, rfl, fun v => ⟨fun hv => ?_, fun hv => ?_⟩⟩
    · subst hv
      exact hvalues v h
    · have hparse : (parse text level label).ending = .returned (some v) :=
        ending_parse_of_mem hv level label
      exact Ending.returned.inj (h.symm.trans hparse)
  | panicked panic => exact (hpanics panic h).elim
  | exhausted => exact (hends h).elim

end Json

end ParserCombinators
