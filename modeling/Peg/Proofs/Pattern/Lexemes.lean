import Peg.Pattern.Compile
import Peg.Proofs.Lexing.Lexemes

/-!
The lexemes of patterns. Every character but the backslash is a lexeme by itself, and a
backslash is one together with the character behind it. The first character of a lexeme
says which kind it has, so that the kinds never compete: a source has the lexemes that it
is put together from, and all its tokens are spelled as their kinds demand.
-/

namespace Peg.Pattern

def operatorLexeme (c : Char) : Lexeme :=
  (String.singleton c, [c])

/-- How the kinds of token are spelled. -/
inductive Spelled : Lexeme → Prop
  | operator {c : Char} (hc : c ∈ operators) : Spelled (operatorLexeme c)
  | plain (c : PlainChar) : Spelled ("literal", [c.val])
  | escaped (c : Char) : Spelled ("special", ['\\', c])

/-- The kind of the lexeme that begins with a character. -/
def kindOf (c : Char) : String :=
  if c ∈ operators then String.singleton c else if c = '\\' then "special" else "literal"

theorem mem_reserved_iff {c : Char} : c ∈ reserved ↔ c ∈ operators ∨ c = '\\' := by
  simp [reserved]

theorem singleton_ne_literal (c : Char) : String.singleton c ≠ "literal" :=
  singleton_ne (by decide) c

theorem singleton_ne_special (c : Char) : String.singleton c ≠ "special" :=
  singleton_ne (by decide) c

theorem kindOf_eq_literal_iff {c : Char} : kindOf c = "literal" ↔ c ∉ reserved := by
  rw [mem_reserved_iff, kindOf]
  by_cases hc : c ∈ operators
  · simp [hc, singleton_ne_literal]
  · by_cases hbackslash : c = '\\'
    · rw [if_neg hc, if_pos hbackslash]
      simp [hbackslash]
    · simp [hc, hbackslash]

/-- The kinds of token and their rules. -/
theorem mem_kinds_iff {kind : String} {r : Rule Char Char} :
    (kind, r) ∈ lexer.kinds ↔
      (∃ c ∈ operators, kind = String.singleton c ∧ r = .literal c) ∨
        (kind = "special" ∧ r = .seq [.literal '\\', .any 0]) ∨
        (kind = "literal" ∧ r = .except (.alt (reserved.map .literal))) := by
  have hkinds : lexer.kinds = tokenKinds := rfl
  rw [hkinds, tokenKinds, List.mem_append, List.mem_map]
  simp only [List.mem_cons, List.not_mem_nil, or_false, Prod.mk.injEq]
  constructor
  · rintro (⟨c, hc, rfl, rfl⟩ | h)
    · exact .inl ⟨c, hc, rfl, rfl⟩
    · exact .inr h
  · rintro (⟨c, hc, rfl, rfl⟩ | h)
    · exact .inl ⟨c, hc, rfl, rfl⟩
    · exact .inr h

theorem plainChar?_eq {t : Token} {c : PlainChar} (h : t.value.toList = [c.val]) :
    plainChar? t = some c := by
  have hc : c.val ∉ reserved := c.property
  simp [plainChar?, h, hc]

variable {input : Array Char}

theorem firstTells : lexer.FirstTells kindOf := by
  intro input kind hkind c hne rest
  obtain ⟨⟨name, r⟩, hmem, rfl⟩ := List.mem_map.mp hkind
  apply Grammar.refuses_ref (Lexer.rule?_of_mem_kinds hmem)
  rcases mem_kinds_iff.mp hmem with ⟨d, hd, rfl, rfl⟩ | ⟨rfl, rfl⟩ | ⟨rfl, rfl⟩
  · apply Grammar.refuses_literal
    intro x hx
    obtain rfl : c = x := by simpa using hx
    rintro rfl
    exact hne (if_pos hd).symm
  · apply Grammar.refuses_seq_head
    apply Grammar.refuses_literal
    intro x hx
    obtain rfl : c = x := by simpa using hx
    rintro rfl
    exact hne rfl
  · have hc : c ∈ reserved := by
      by_contra hc
      exact hne (kindOf_eq_literal_iff.mpr hc).symm
    exact Grammar.refuses_except (Grammar.yields_literals hc rest)

/-- A lexeme is taken as what it is, whatever comes behind it. -/
theorem Spelled.takes {w : Lexeme} (h : Spelled w) (rest : List Char) :
    lexer.Takes input w.1 w.2 rest := by
  cases h with
  | @operator c hc =>
      have hkind : kindOf c = String.singleton c := if_pos hc
      have hyields : lexer.grammar.Yields input (.literal c) [c] rest [.item c] :=
        Grammar.yields_literal rfl rest
      rw [operatorLexeme, ← hkind]
      exact firstTells.takes (mem_kinds_iff.mpr (.inl ⟨c, hc, hkind, rfl⟩)) ⟨_, hyields⟩
  | plain c =>
      have hkind : kindOf c.val = "literal" := kindOf_eq_literal_iff.mpr c.property
      have hrefuses : lexer.grammar.Refuses input (.alt (reserved.map .literal))
          (c.val :: rest) := by
        apply Grammar.refuses_literals
        intro x hx
        obtain rfl : c.val = x := by simpa using hx
        exact c.property
      rw [← hkind]
      exact firstTells.takes (mem_kinds_iff.mpr (.inr (.inr ⟨hkind, rfl⟩)))
        ⟨_, Grammar.yields_except hrefuses⟩
  | escaped c =>
      have hkind : kindOf '\\' = "special" := by decide
      have hany : lexer.grammar.Yields input (.any 0) [c] rest [.item c] :=
        Grammar.yields_predicate rfl rest
      have hbackslash : lexer.grammar.Yields input (.literal '\\') ['\\'] ([c] ++ rest)
          [.item '\\'] := Grammar.yields_literal rfl _
      rw [← hkind]
      exact firstTells.takes (mem_kinds_iff.mpr (.inr (.inl ⟨hkind, rfl⟩)))
        ⟨_, Grammar.yields_seq_cons hbackslash (Grammar.yields_seq_last hany)⟩

theorem cuts_of_spelled {ws : List Lexeme} (h : ∀ w ∈ ws, Spelled w) :
    lexer.Cuts input ws := by
  induction ws with
  | nil => exact .nil
  | cons w ws ih =>
      obtain ⟨hw, hws⟩ := List.forall_mem_cons.mp h
      exact .cons (hw.takes _) (ih hws)

theorem hidden_eq_false : ∀ kind ∈ lexer.kindNames, lexer.hidden kind = false := by
  decide

theorem Spelled.kind_mem {w : Lexeme} (h : Spelled w) : w.1 ∈ lexer.kindNames := by
  have htakes : lexer.Takes #[] w.1 w.2 [] := h.takes []
  exact htakes.declared

/-- A source has the lexemes that it is put together from as its tokens. -/
theorem tokens_of_spelled {ws : List Lexeme} (h : ∀ w ∈ ws, Spelled w) {src : String}
    (hsrc : ws.flatMap Prod.snd = src.toList) :
    ∃ ts, lexer.tokens src = .done ts ∧ ts.map Token.lexeme = ws := by
  obtain ⟨ts, hts, hlexemes⟩ := Lexer.tokens_of_cuts (cuts_of_spelled h) hsrc
  refine ⟨ts, hts, ?_⟩
  rw [hlexemes, List.filter_eq_self]
  intro w hw
  simp [hidden_eq_false _ (h w hw).kind_mem]

/-- The rules of the kinds keep to the spelling. -/
theorem closed_spelled :
    lexer.grammar.Closed fun kind cs _ => kind ∈ lexer.kindNames → Spelled (kind, cs) := by
  intro kind r cs os hrule hread hkind
  obtain ⟨⟨name, r'⟩, hmem, rfl⟩ := List.mem_map.mp hkind
  cases hrule.symm.trans (Lexer.rule?_of_mem_kinds hmem)
  rcases mem_kinds_iff.mp hmem with ⟨c, hc, rfl, rfl⟩ | ⟨rfl, rfl⟩ | ⟨rfl, rfl⟩
  · cases hread with
    | literal hx =>
        cases eq_of_beq hx
        exact .operator hc
  · cases hread with
    | seqCons head tail =>
        cases head with
        | literal hx =>
            cases eq_of_beq hx
            cases tail with
            | seqCons head tail =>
                cases head
                cases tail
                exact .escaped _
  · cases hread with
    | @except _ x hx =>
        refine .plain ⟨x, ?_⟩
        intro hmem
        exact hx (.alt (List.mem_map_of_mem hmem) (.literal (beq_self_eq_true x)))

/-- The tokens of a source are spelled as their kinds demand, and make up the source. -/
theorem spelled_of_tokens {src : String} {ts : List Token} (h : lexer.tokens src = .done ts) :
    (∀ t ∈ ts, Spelled t.lexeme) ∧ ts.flatMap (·.value.toList) = src.toList := by
  refine ⟨?_, Lexer.flatMap_value_of_tokens hidden_eq_false h⟩
  refine Lexer.token_of_ends ?_ h
  intro kind hkind p q hp hends
  obtain ⟨os, hread⟩ := Lexer.reads_of_ends closed_spelled hp hends
  exact hread hkind

end Peg.Pattern
