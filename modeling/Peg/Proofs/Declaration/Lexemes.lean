import Peg.Proofs.Declaration.WellFormed
import Peg.Proofs.Lexing.Lexemes

/-!
The lexemes of declarations. The first character of a lexeme says which kind it has, and
each lexeme ends where its rule gives up: blanks in front of anything else, identifiers in
front of anything that is no letter or digit, quoted bodies at the first quote that no
backslash protects. All others are over after a fixed number of characters.
-/

namespace Peg.Declaration

/-- The characters that are words by themselves. -/
def operators : List Char :=
  ['=', ';', '|', '(', ')', '*', '+', '?', '!']

/-- The characters between two quotes, where a backslash takes the next one along. -/
inductive Quotable : List Char → Prop
  | nil : Quotable []
  | plain {c : Char} {cs : List Char} (hbackslash : c ≠ '\\') (hquote : c ≠ '"')
      (tail : Quotable cs) : Quotable (c :: cs)
  | escaped (c : Char) {cs : List Char} (tail : Quotable cs) : Quotable ('\\' :: c :: cs)

/-- How the kinds of token are spelled. -/
inductive Spelled : Lexeme → Prop
  | blanks {cs : List Char} (nonempty : cs ≠ []) (hcs : cs.all isBlank = true) :
      Spelled ("_ws", cs)
  | identifier {c : Char} {cs : List Char} (hc : isLetter c = true)
      (hcs : cs.all isIdentifierChar = true) : Spelled ("id", c :: cs)
  | quoted {cs : List Char} (hcs : Quotable cs) : Spelled ("str", '"' :: (cs ++ ['"']))
  | arrow : Spelled ("->", ['-', '>'])
  | operator {c : Char} (hc : c ∈ operators) : Spelled (String.singleton c, [c])

/-- What may come behind a lexeme of a kind. -/
def Follows (kind : String) (rest : List Char) : Prop :=
  (kind = "_ws" → ∀ c ∈ rest.head?, isBlank c = false) ∧
    (kind = "id" → ∀ c ∈ rest.head?, isIdentifierChar c = false)

/-- The kind of the lexeme that begins with a character. -/
def kindOf (c : Char) : String :=
  if isBlank c then "_ws"
  else if isLetter c then "id"
  else if c = '"' then "str"
  else if c = '-' then "->"
  else String.singleton c

theorem mem_kinds_iff {kind : String} {r : Rule Char Char} :
    (kind, r) ∈ lexer.kinds ↔
      (kind = "_ws" ∧ r = .plus (.alt ([' ', '\n', '\t'].map .literal))) ∨
        (kind = "id" ∧ r = .seq [.alt letters, .star (.alt (letters ++ [.range '0' '9']))]) ∨
        (kind = "str" ∧ r = .seq [.literal '"',
          .star (.alt [.seq [.literal '\\', .literal '\\'], .seq [.literal '\\', .literal '"'],
            .except (.literal '"')]), .literal '"']) ∨
        (kind = "->" ∧ r = .seq [.literal '-', .literal '>']) ∨
        ∃ c ∈ operators, kind = String.singleton c ∧ r = .literal c := by
  have hkinds : lexer.kinds = tokenKinds := rfl
  have harrow : Rule.word "->" = .seq [.literal '-', .literal '>'] := rfl
  have hoperators : ['=', ';', '|', '(', ')', '*', '+', '?', '!'] = operators := rfl
  rw [hkinds, tokenKinds, List.mem_append, hoperators, List.mem_map]
  simp only [List.mem_cons, List.not_mem_nil, or_false, Prod.mk.injEq, harrow, operatorKind,
    List.map_cons, List.map_nil, or_assoc]
  refine or_congr_right (or_congr_right (or_congr_right (or_congr_right ?_)))
  constructor
  · rintro ⟨c, hc, rfl, rfl⟩
    exact ⟨c, hc, rfl, rfl⟩
  · rintro ⟨c, hc, rfl, rfl⟩
    exact ⟨c, hc, rfl, rfl⟩

variable {input : Array Char}

theorem mem_blanks_iff {c : Char} : c ∈ [' ', '\n', '\t'] ↔ isBlank c = true := by
  simp [isBlank, or_assoc]

theorem letter_cases (r : Rule Char Char) (hr : r ∈ letters ++ [.range '0' '9']) (c : Char)
    (rest : List Char) :
    lexer.grammar.Yields input r [c] rest [.item c] ∨
      lexer.grammar.Refuses input r ([c] ++ rest) := by
  simp only [letters, List.cons_append, List.nil_append, List.mem_cons, List.not_mem_nil,
    or_false] at hr
  rcases hr with rfl | rfl | rfl | rfl
  · exact Grammar.literal_yields_or_refuses '_' c rest
  · exact Grammar.range_yields_or_refuses 'a' 'z' c rest
  · exact Grammar.range_yields_or_refuses 'A' 'Z' c rest
  · exact Grammar.range_yields_or_refuses '0' '9' c rest

theorem exists_letter {c : Char} (hc : isLetter c = true) (rest : List Char) :
    ∃ r ∈ letters, lexer.grammar.Yields input r [c] rest [.item c] := by
  simp only [isLetter, Bool.or_eq_true, decide_eq_true_eq] at hc
  rcases hc with (hc | hc) | hc
  · exact ⟨.literal '_', by simp [letters], Grammar.yields_literal hc rest⟩
  · exact ⟨.range 'a' 'z', by simp [letters], Grammar.yields_range hc rest⟩
  · exact ⟨.range 'A' 'Z', by simp [letters], Grammar.yields_range hc rest⟩

theorem yields_letter {c : Char} (hc : isLetter c = true) (rest : List Char) :
    lexer.grammar.Yields input (.alt letters) [c] rest [.item c] := by
  obtain ⟨r, hr, hyields⟩ := exists_letter hc rest
  refine Grammar.yields_alt_of_mem ?_ hr hyields
  intro s hs
  exact letter_cases s (List.mem_append_left _ hs) c rest

theorem yields_identifierChar {c : Char} (hc : isIdentifierChar c = true) (rest : List Char) :
    lexer.grammar.Yields input (.alt (letters ++ [.range '0' '9'])) [c] rest [.item c] := by
  rw [isIdentifierChar, Bool.or_eq_true] at hc
  rcases hc with hc | hc
  · obtain ⟨r, hr, hyields⟩ := exists_letter hc rest
    exact Grammar.yields_alt_of_mem (fun s hs => letter_cases s hs c rest)
      (List.mem_append_left _ hr) hyields
  · have hdigit : lexer.grammar.Yields input (.range '0' '9') [c] rest [.item c] := by
      apply Grammar.yields_range
      exact hc
    exact Grammar.yields_alt_of_mem (fun s hs => letter_cases s hs c rest) (by simp) hdigit

theorem refuses_letters {cs : List Char} (hcs : ∀ c ∈ cs.head?, isLetter c = false)
    (r : Rule Char Char) (hr : r ∈ letters) : lexer.grammar.Refuses input r cs := by
  simp only [letters, List.mem_cons, List.not_mem_nil, or_false] at hr
  simp only [isLetter, Bool.or_eq_false_iff, decide_eq_false_iff_not] at hcs
  rcases hr with rfl | rfl | rfl
  · exact Grammar.refuses_literal fun c hc => (hcs c hc).1.1
  · exact Grammar.refuses_range fun c hc => (hcs c hc).1.2
  · exact Grammar.refuses_range fun c hc => (hcs c hc).2

theorem refuses_identifierChars {cs : List Char}
    (hcs : ∀ c ∈ cs.head?, isIdentifierChar c = false) :
    lexer.grammar.Refuses input (.alt (letters ++ [.range '0' '9'])) cs := by
  simp only [isIdentifierChar, Bool.or_eq_false_iff] at hcs
  apply Grammar.refuses_alt
  rw [List.forall_mem_append]
  refine ⟨refuses_letters fun c hc => (hcs c hc).1, ?_⟩
  intro r hr
  obtain rfl := List.mem_singleton.mp hr
  exact Grammar.refuses_range fun c hc => (hcs c hc).2

theorem isBlank_eq_false_of_isLetter {c : Char} (hc : isLetter c = true) :
    isBlank c = false := by
  by_contra hblank
  rw [Bool.not_eq_false, isBlank, Bool.or_eq_true, Bool.or_eq_true] at hblank
  simp only [decide_eq_true_eq] at hblank
  rcases hblank with (rfl | rfl) | rfl <;> exact absurd hc (by decide)

theorem kindOf_letter {c : Char} (hc : isLetter c = true) : kindOf c = "id" := by
  simp [kindOf, isBlank_eq_false_of_isLetter hc, hc]

theorem kindOf_blank {c : Char} (hc : isBlank c = true) : kindOf c = "_ws" := by
  simp [kindOf, hc]

theorem kindOf_operator : ∀ c ∈ operators, kindOf c = String.singleton c := by
  simp [operators, kindOf, isBlank, isLetter]

theorem firstTells : lexer.FirstTells kindOf := by
  intro input kind hkind c hne rest
  obtain ⟨⟨name, r⟩, hmem, rfl⟩ := List.mem_map.mp hkind
  have hliteral (d : Char) (hd : kindOf d = name) :
      lexer.grammar.Refuses input (.literal d) (c :: rest) := by
    apply Grammar.refuses_literal
    intro x hx
    obtain rfl : c = x := by simpa using hx
    rintro rfl
    exact hne hd.symm
  apply Grammar.refuses_ref (Lexer.rule?_of_mem_kinds hmem)
  rcases mem_kinds_iff.mp hmem with ⟨rfl, rfl⟩ | ⟨rfl, rfl⟩ | ⟨rfl, rfl⟩ | ⟨rfl, rfl⟩ |
    ⟨d, hd, rfl, rfl⟩
  · apply Grammar.refuses_plus
    apply Grammar.refuses_literals
    intro x hx hblank
    obtain rfl : c = x := by simpa using hx
    exact hne (kindOf_blank (mem_blanks_iff.mp hblank)).symm
  · apply Grammar.refuses_seq_head
    apply Grammar.refuses_alt
    apply refuses_letters
    intro x hx
    obtain rfl : c = x := by simpa using hx
    rw [← Bool.not_eq_true]
    exact fun hletter => hne (kindOf_letter hletter).symm
  · exact Grammar.refuses_seq_head (hliteral '"' (by decide))
  · exact Grammar.refuses_seq_head (hliteral '-' (by decide))
  · exact hliteral d (kindOf_operator d hd)

theorem yields_blanks {cs rest : List Char} (hne : cs ≠ []) (hcs : cs.all isBlank = true)
    (hrest : ∀ c ∈ rest.head?, isBlank c = false) :
    ∃ os, lexer.grammar.Yields input (.plus (.alt ([' ', '\n', '\t'].map .literal))) cs rest os := by
  have hblank (c : Char) (rest : List Char) (hc : isBlank c = true) :
      lexer.grammar.Yields input (.alt ([' ', '\n', '\t'].map .literal)) [c] rest [.item c] :=
    Grammar.yields_literals (mem_blanks_iff.mpr hc) rest
  have hstop : lexer.grammar.Refuses input (.alt ([' ', '\n', '\t'].map .literal)) rest := by
    apply Grammar.refuses_literals
    intro c hc hmem
    exact Bool.false_ne_true ((hrest c hc).symm.trans (mem_blanks_iff.mp hmem))
  obtain ⟨c, cs, rfl⟩ := List.exists_cons_of_ne_nil hne
  rw [List.all_cons, Bool.and_eq_true] at hcs
  exact ⟨_, Grammar.yields_plus (hblank c _ hcs.1)
    (Grammar.yields_star_items hblank hcs.2 hstop)⟩

theorem yields_identifier {c : Char} {cs rest : List Char} (hc : isLetter c = true)
    (hcs : cs.all isIdentifierChar = true)
    (hrest : ∀ c ∈ rest.head?, isIdentifierChar c = false) :
    ∃ os, lexer.grammar.Yields input
      (.seq [.alt letters, .star (.alt (letters ++ [.range '0' '9']))]) (c :: cs) rest os := by
  have hstop : lexer.grammar.Refuses input (.alt (letters ++ [.range '0' '9'])) rest :=
    refuses_identifierChars hrest
  have htail := Grammar.yields_star_items (fun c rest hc => yields_identifierChar hc rest) hcs
    hstop
  exact ⟨_, Grammar.yields_seq_item (yields_letter hc _) (Grammar.yields_seq_last htail)⟩

/-- One round of what stands between quotes. -/
def quotableRule : Rule Char Char :=
  .alt [.seq [.literal '\\', .literal '\\'], .seq [.literal '\\', .literal '"'],
    .except (.literal '"')]

theorem yields_char (c : Char) (rest : List Char) :
    lexer.grammar.Yields input (.literal c) [c] rest [.item c] :=
  Grammar.yields_literal rfl rest

theorem refuses_char {c d : Char} (hne : c ≠ d) (rest : List Char) :
    lexer.grammar.Refuses input (.literal d) (c :: rest) := by
  apply Grammar.refuses_literal
  intro x hx
  obtain rfl : c = x := by simpa using hx
  exact hne

theorem yields_pair (c d : Char) (rest : List Char) :
    lexer.grammar.Yields input (.seq [.literal c, .literal d]) [c, d] rest
      [.item c, .item d] :=
  Grammar.yields_seq_item (yields_char c _) (Grammar.yields_seq_last (yields_char d rest))

theorem refuses_pair_head {b c d : Char} (hne : b ≠ c) (rest : List Char) :
    lexer.grammar.Refuses input (.seq [.literal c, .literal d]) (b :: rest) :=
  Grammar.refuses_seq_head (refuses_char hne rest)

theorem refuses_pair_tail {b c d : Char} (hne : b ≠ d) (rest : List Char) :
    lexer.grammar.Refuses input (.seq [.literal c, .literal d]) (c :: b :: rest) :=
  Grammar.refuses_seq_tail (yields_char c _) (Grammar.refuses_seq_head (refuses_char hne rest))

/-- A character that is no quote is taken if it begins neither of the pairs. -/
theorem yields_unpaired {c : Char} (hquote : c ≠ '"') {rest : List Char}
    (hrest : c = '\\' → ∀ d ∈ rest.head?, d ≠ '\\' ∧ d ≠ '"') :
    lexer.grammar.Yields input quotableRule [c] rest [.item c] := by
  have hpair (b : Char) (hb : c = '\\' → ∀ d ∈ rest.head?, d ≠ b) :
      lexer.grammar.Refuses input (.seq [.literal '\\', .literal b]) ([c] ++ rest) := by
    by_cases hc : c = '\\'
    · have hsecond : lexer.grammar.Refuses input (.literal b) rest :=
        Grammar.refuses_literal (hb hc)
      subst hc
      exact Grammar.refuses_seq_tail (yields_char '\\' rest) (Grammar.refuses_seq_head hsecond)
    · exact refuses_pair_head hc rest
  unfold quotableRule
  apply Grammar.yields_alt_tail (hpair '\\' fun hc d hd => (hrest hc d hd).1)
  apply Grammar.yields_alt_tail (hpair '"' fun hc d hd => (hrest hc d hd).2)
  exact Grammar.yields_alt_head (Grammar.yields_except (refuses_char hquote rest))

/-- The rule for quotable characters goes on to whatever comes behind them. -/
theorem yields_quotable_append {cs : List Char} (hcs : Quotable cs) {ys rest : List Char}
    {os' : List (Outline Char)}
    (h : lexer.grammar.Yields input (.star quotableRule) ys rest os') :
    ∃ os, lexer.grammar.Yields input (.star quotableRule) (cs ++ ys) rest os := by
  induction hcs with
  | nil => exact ⟨os', h⟩
  | @plain c cs hbackslash hquote tail ih =>
      obtain ⟨os, hyields⟩ := ih
      have hfirst : lexer.grammar.Yields input quotableRule [c] ((cs ++ ys) ++ rest) [.item c] :=
        yields_unpaired hquote fun hc => absurd hc hbackslash
      have hall := Grammar.yields_star_cons (List.cons_ne_nil c []) hfirst hyields
      exact ⟨_, hall⟩
  | @escaped c cs tail ih =>
      obtain ⟨os, hyields⟩ := ih
      by_cases hbackslash : c = '\\'
      · subst hbackslash
        have hpair : lexer.grammar.Yields input quotableRule ['\\', '\\']
            ((cs ++ ys) ++ rest) [.item '\\', .item '\\'] :=
          Grammar.yields_alt_head (yields_pair '\\' '\\' _)
        have hall := Grammar.yields_star_cons (List.cons_ne_nil _ _) hpair hyields
        exact ⟨_, hall⟩
      by_cases hquote : c = '"'
      · subst hquote
        have hpair : lexer.grammar.Yields input quotableRule ['\\', '"']
            ((cs ++ ys) ++ rest) [.item '\\', .item '"'] := by
          apply Grammar.yields_alt_tail (refuses_pair_tail (by decide) _)
          exact Grammar.yields_alt_head (yields_pair '\\' '"' _)
        have hall := Grammar.yields_star_cons (List.cons_ne_nil _ _) hpair hyields
        exact ⟨_, hall⟩
      -- The backslash and the character behind it are taken one by one.
      have hsecond : lexer.grammar.Yields input quotableRule [c] ((cs ++ ys) ++ rest)
          [.item c] := yields_unpaired hquote fun hc => absurd hc hbackslash
      have hfirst : lexer.grammar.Yields input quotableRule ['\\']
          ((c :: (cs ++ ys)) ++ rest) [.item '\\'] := by
        refine yields_unpaired (by decide) ?_
        intro _ d hd
        obtain rfl : c = d := by simpa using hd
        exact ⟨hbackslash, hquote⟩
      have htail := Grammar.yields_star_cons (List.cons_ne_nil c []) hsecond hyields
      have hall := Grammar.yields_star_cons (List.cons_ne_nil '\\' []) hfirst htail
      exact ⟨_, hall⟩

/-- Neither a quote nor the end of the text begins what may stand between quotes. -/
theorem refuses_quotableRule {rest : List Char} (hrest : ∀ c ∈ rest.head?, c = '"') :
    lexer.grammar.Refuses input quotableRule rest := by
  have hpair (d : Char) :
      lexer.grammar.Refuses input (.seq [.literal '\\', .literal d]) rest := by
    apply Grammar.refuses_seq_head
    apply Grammar.refuses_literal
    intro c hc
    rw [hrest c hc]
    decide
  have hexcept : lexer.grammar.Refuses input (.except (.literal '"')) rest := by
    cases rest with
    | nil => exact Grammar.refuses_except_end
    | cons c cs =>
        obtain rfl := hrest c rfl
        exact Grammar.refuses_except (yields_char '"' cs)
  apply Grammar.refuses_alt
  simp only [List.forall_mem_cons]
  exact ⟨hpair '\\', hpair '"', hexcept, by simp⟩

/-- The rule for quotable characters goes on to the quote that no backslash protects. -/
theorem yields_quotable {cs : List Char} (hcs : Quotable cs) (rest : List Char) :
    ∃ os, lexer.grammar.Yields input (.star quotableRule) cs ('"' :: rest) os := by
  have hstop : lexer.grammar.Refuses input quotableRule ('"' :: rest) :=
    refuses_quotableRule (by simp)
  have hall := yields_quotable_append hcs (Grammar.yields_star_nil hstop)
  rwa [List.append_nil] at hall

theorem yields_quoted {cs : List Char} (hcs : Quotable cs) (rest : List Char) :
    ∃ os, lexer.grammar.Yields input (.seq [.literal '"', .star quotableRule, .literal '"'])
      ('"' :: (cs ++ ['"'])) rest os := by
  obtain ⟨os, hyields⟩ := @yields_quotable input cs hcs rest
  exact ⟨_, Grammar.yields_seq_item (yields_char '"' _)
    (Grammar.yields_seq_cons hyields (Grammar.yields_seq_last (yields_char '"' rest)))⟩

/-- In front of what may follow it, a lexeme is taken as what it is. -/
theorem Spelled.takes {w : Lexeme} (h : Spelled w) {rest : List Char}
    (hrest : Follows w.1 rest) : lexer.Takes input w.1 w.2 rest := by
  cases h with
  | @blanks cs nonempty hcs =>
      have hyields := @yields_blanks input cs rest nonempty hcs (hrest.1 rfl)
      obtain ⟨c, cs, rfl⟩ := List.exists_cons_of_ne_nil nonempty
      rw [List.all_cons, Bool.and_eq_true] at hcs
      have hkind : kindOf c = "_ws" := kindOf_blank hcs.1
      rw [← hkind]
      exact firstTells.takes (mem_kinds_iff.mpr (.inl ⟨hkind, rfl⟩)) hyields
  | @identifier c cs hc hcs =>
      have hkind : kindOf c = "id" := kindOf_letter hc
      rw [← hkind]
      exact firstTells.takes (mem_kinds_iff.mpr (.inr (.inl ⟨hkind, rfl⟩)))
        (yields_identifier hc hcs (hrest.2 rfl))
  | @quoted cs hcs =>
      have hkind : kindOf '"' = "str" := by decide
      rw [← hkind]
      exact firstTells.takes (mem_kinds_iff.mpr (.inr (.inr (.inl ⟨hkind, rfl⟩))))
        (yields_quoted hcs rest)
  | arrow =>
      have hkind : kindOf '-' = "->" := by decide
      rw [← hkind]
      exact firstTells.takes (mem_kinds_iff.mpr (.inr (.inr (.inr (.inl ⟨hkind, rfl⟩)))))
        ⟨_, yields_pair '-' '>' rest⟩
  | @operator c hc =>
      have hkind : kindOf c = String.singleton c := kindOf_operator c hc
      rw [← hkind]
      exact firstTells.takes (mem_kinds_iff.mpr (.inr (.inr (.inr (.inr ⟨c, hc, hkind, rfl⟩)))))
        ⟨_, yields_char c rest⟩

end Peg.Declaration
