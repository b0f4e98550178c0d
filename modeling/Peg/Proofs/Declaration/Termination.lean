import Peg.Proofs.Declaration.Meaning
import Peg.Proofs.Matching.LeftRecursion

/-!
Compiling comes to an end. The grammars of patterns and of declarations, and the grammars
of their lexers, are without left recursion. So is the grammar of every lexer that a source
describes, for a pattern refers to no other rule.
-/

namespace Peg

namespace Rule

variable {α κ : Type}

@[simp] theorem refs_repeated (r : Rule α κ) (repetition : Option Repetition) :
    (r.repeated repetition).refs = r.refs := by
  cases repetition with
  | none => rfl
  | some repetition => cases repetition <;> rfl

end Rule

namespace Pattern

theorem Atom.refs_meaning (a : Atom) : a.meaning.refs = [] := by
  cases a with
  | plain c => rfl
  | range lo hi => rfl
  | escaped c =>
      unfold Atom.meaning
      repeat' split
      all_goals rfl

theorem refs_meaning (p : Pattern) : p.meaning.refs = [] := by
  induction p with
  | atom a repetition => rw [meaning, Rule.refs_repeated, Atom.refs_meaning]
  | sequence p ps repetition ih ihs =>
      rw [meaning, Rule.refs_repeated, Rule.refs_seq, meanings_eq_map]
      simpa [ih] using ihs
  | choice p q qs repetition ihp ihq ihs =>
      rw [meaning, Rule.refs_repeated, Rule.refs_alt, meanings_eq_map]
      simpa [ihp, ihq] using ihs
  | except a => exact a.refs_meaning

theorem refs_of_compile {src : String} {r : Rule Char Char} (h : compile src = .done r) :
    r.refs = [] := by
  obtain ⟨ps, -, rfl⟩ := Outcome.map_eq_done_iff.mp h
  rw [sourceMeaning, Rule.collect_ofParts Rule.refs_seq, meanings_eq_map, List.flatMap_eq_nil_iff]
  exact List.forall_mem_map.mpr fun p _ => p.refs_meaning

end Pattern

namespace Lexer

theorem refs_tokenRule (l : Lexer) : l.tokenRule.refs = l.kindNames := by
  have hrefs : (l.kindNames.map (Rule.ref (α := Char) (κ := Char))).flatMap Rule.refs =
      l.kindNames := by
    rw [List.flatMap_map]
    exact List.flatMap_singleton' _
  unfold tokenRule
  split
  · rw [Rule.refs_alt, hrefs]
  · rw [Rule.refs_oneOf, hrefs]

theorem grammar_withoutLeftRecursion {l : Lexer} (h : ∀ kind ∈ l.kinds, kind.2.refs = []) :
    l.grammar.WithoutLeftRecursion := by
  refine Grammar.withoutLeftRecursion_of_sorted ⟨?_, ?_, Grammar.sorted_of_refs_eq_nil h⟩
  · intro m hm
    rw [List.mem_singleton.mp hm]
    exact List.mem_cons_self
  · intro m hm
    have hkind := Rule.leftRefs_subset_refs _ _ hm
    rwa [l.refs_tokenRule] at hkind

theorem tokens_ne_endless {l : Lexer} (h : l.grammar.WithoutLeftRecursion) (text : String) :
    l.tokens text ≠ .endless := by
  have hstart := h.namedMatcher_ne_endless l.grammar.start
    (Nat.zero_le text.toList.toArray.size)
  rw [tokens, allTokens, ne_eq, Outcome.map_eq_endless_iff, Outcome.map_eq_endless_iff]
  exact hstart

end Lexer

namespace Parser

theorem parseTokens_ne_endless {p : Parser} (h : p.grammar.WithoutLeftRecursion)
    (ts : List Token) : p.parseTokens ts ≠ .endless := by
  have hstart := h.namedMatcher_ne_endless p.grammar.start (Nat.zero_le ts.toArray.size)
  rw [parseTokens, ne_eq, Outcome.bind_eq_endless_iff]
  rintro (hends | ⟨r, -, hends⟩)
  · exact hstart hends
  · split at hends <;> cases hends

theorem parse_ne_endless {p : Parser} (hlexer : p.lexer.grammar.WithoutLeftRecursion)
    (hgrammar : p.grammar.WithoutLeftRecursion) (text : String) : p.parse text ≠ .endless := by
  rw [parse, ne_eq, Outcome.bind_eq_endless_iff]
  rintro (hends | ⟨ts, -, hends⟩)
  · exact Lexer.tokens_ne_endless hlexer text hends
  · exact parseTokens_ne_endless hgrammar ts hends

/-- To read a parse tree in a way that ends leaves nothing without end. -/
theorem read_ne_endless {p : Parser} {β : Type}
    (hlexer : p.lexer.grammar.WithoutLeftRecursion)
    (hgrammar : p.grammar.WithoutLeftRecursion) (text : String) {wrap : Failure → Failure}
    {read : ParseTree Token → Outcome β} (hread : ∀ tree, read tree ≠ .endless) :
    ((p.parse text).mapFailure wrap).bind read ≠ .endless := by
  rw [ne_eq, Outcome.bind_eq_endless_iff, Outcome.mapFailure_eq_endless_iff]
  rintro (hends | ⟨tree, -, hends⟩)
  · exact parse_ne_endless hlexer hgrammar text hends
  · exact hread tree hends

end Parser

namespace Pattern

theorem lexer_withoutLeftRecursion : lexer.grammar.WithoutLeftRecursion :=
  Lexer.grammar_withoutLeftRecursion (by decide)

theorem grammar_withoutLeftRecursion : grammar.WithoutLeftRecursion :=
  Grammar.withoutLeftRecursion_of_sorted (by decide)

theorem parse_ne_endless (src : String) : parse src ≠ .endless := by
  refine Parser.read_ne_endless (p := parser) lexer_withoutLeftRecursion
    grammar_withoutLeftRecursion src ?_
  intro tree
  repeat' split
  all_goals simp

/-- Every source compiles or fails. -/
theorem compile_ne_endless (src : String) : compile src ≠ .endless := by
  rw [compile, ne_eq, Outcome.map_eq_endless_iff]
  exact parse_ne_endless src

end Pattern

namespace Declaration

theorem lexer_withoutLeftRecursion : lexer.grammar.WithoutLeftRecursion :=
  Lexer.grammar_withoutLeftRecursion (by decide)

theorem grammar_withoutLeftRecursion : grammar.WithoutLeftRecursion :=
  Grammar.withoutLeftRecursion_of_sorted (by decide)

theorem parse_ne_endless (src : String) : parse src ≠ .endless := by
  refine Parser.read_ne_endless (p := parser) lexer_withoutLeftRecursion
    grammar_withoutLeftRecursion src ?_
  intro tree
  repeat' split
  all_goals simp

theorem compileTokens_ne_endless (taken : List String) (sources : List (String × String)) :
    compileTokens taken sources ≠ .endless := by
  induction sources generalizing taken with
  | nil => simp [compileTokens]
  | cons source sources ih =>
      simp only [compileTokens, Outcome.bind_eq, ne_eq, Outcome.bind_eq_endless_iff]
      rintro (hends | ⟨_, -, hends | ⟨r, -, hends | ⟨kinds, -, hends⟩⟩⟩)
      · exact Outcome.ofExcept_ne_endless hends
      · exact Pattern.compile_ne_endless _ hends
      · exact ih _ hends
      · cases hends

theorem compileQuoted_ne_endless (found : List (String × Rule Char Char))
    (bodies : List String) : compileQuoted found bodies ≠ .endless := by
  induction bodies generalizing found with
  | nil => simp [compileQuoted]
  | cons body bodies ih =>
      unfold compileQuoted
      split
      · exact ih found
      · rw [Outcome.bind_eq, ne_eq, Outcome.bind_eq_endless_iff]
        rintro (hends | ⟨r, -, hends⟩)
        · exact Pattern.compile_ne_endless _ hends
        · exact ih _ hends

theorem compileMentioned_ne_endless (taken : List String)
    (found : List (String × Rule Char Char)) (entries : List (String × Alternation)) :
    compileMentioned taken found entries ≠ .endless := by
  induction entries generalizing taken found with
  | nil => simp [compileMentioned]
  | cons entry entries ih =>
      simp only [compileMentioned, Outcome.bind_eq, ne_eq, Outcome.bind_eq_endless_iff]
      rintro (hends | ⟨_, -, hends | ⟨found, -, hends⟩⟩)
      · exact Outcome.ofExcept_ne_endless hends
      · exact compileQuoted_ne_endless _ _ hends
      · exact ih _ _ hends

end Declaration

namespace Parser

open Declaration

theorem ofDeclarations_ne_endless (ds : List Declaration) : ofDeclarations ds ≠ .endless := by
  simp only [ofDeclarations, Outcome.bind_eq, ne_eq, Outcome.bind_eq_endless_iff]
  rintro (hends | ⟨kinds, -, hends | ⟨found, -, hends⟩⟩)
  · exact compileTokens_ne_endless _ _ hends
  · exact compileMentioned_ne_endless _ _ _ hends
  · split at hends
    · cases hends
    · simp only [Outcome.bind_eq_endless_iff] at hends
      rcases hends with hends | ⟨l, -, hends | ⟨g, -, hends⟩⟩
      · exact Outcome.ofExcept_ne_endless hends
      · exact Outcome.ofExcept_ne_endless hends
      · cases hends

/-- Every source describes a parser or fails. -/
theorem ofSource_ne_endless (src : String) : ofSource src ≠ .endless := by
  rw [ofSource, Outcome.bind_eq, ne_eq, Outcome.bind_eq_endless_iff]
  rintro (hends | ⟨ds, -, hends⟩)
  · exact Declaration.parse_ne_endless src hends
  · exact ofDeclarations_ne_endless ds hends

theorem refs_of_describes {sources : List (String × String)}
    {kinds : List (String × Rule Char Char)} (h : List.Forall₂ Describes sources kinds) :
    ∀ kind ∈ kinds, kind.2.refs = [] := by
  induction h with
  | nil => simp
  | cons head tail ih => exact List.forall_mem_cons.mpr ⟨Pattern.refs_of_compile head.2, ih⟩

theorem Implements.lexer_withoutLeftRecursion {p : Parser} {ds : List Declaration}
    (h : p.Implements ds) : p.lexer.grammar.WithoutLeftRecursion :=
  Lexer.grammar_withoutLeftRecursion (refs_of_describes h.kinds)

theorem lexer_withoutLeftRecursion_of_ofSource {src : String} {p : Parser}
    (h : ofSource src = .done p) : p.lexer.grammar.WithoutLeftRecursion := by
  obtain ⟨ds, -, hp⟩ := Outcome.bind_eq_done_iff.mp h
  exact (implements_of_ofDeclarations hp).lexer_withoutLeftRecursion

end Parser

end Peg
