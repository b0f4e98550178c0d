import Peg.Proofs.Declaration.Queries

/-!
What loading comes to. The parsers of both notations are put together without left recursion,
and so is the lexer of every parser that a source describes. However well-formed declarations
are laid out, the parser that they describe is loaded, and quoted patterns are read up to the
quote that closes them.
-/

namespace Peg

namespace Declaration

/-- However well-formed declarations are laid out, the parser is loaded that they describe. -/
theorem load_of_layout (ds : List Declaration) (h : AllWellFormed ds) (text : String)
    (hlayout : Layout none (ds.flatMap Declaration.lexemes) text.toList) :
    ∃ p, load text = .done p ∧ p.Implements ds :=
  load_implements h (parse_of_layout h.each hlayout)

/-- A rule that uses a kind declared behind it, and that mentions an escaped quote. -/
private def sampleDeclarations : List Declaration :=
  [.rule "s" [[.name "id" none, .group [[.quoted "\\\"" none, .name "s" none]] (some .star)]],
   .token "id" "[a-z]+"]

private theorem sampleDeclarations_wellFormed : AllWellFormed sampleDeclarations where
  each := by
    have hquote : WellQuoted "\\\"" := .of_printAll [.atom (.escaped '"') none] rfl rfl
    have hletters : WellQuoted "[a-z]+" :=
      .of_printAll [.atom (.range ⟨'a', by decide⟩ ⟨'z', by decide⟩) (some .plus)] rfl rfl
    have hgroup : Term.WellFormed (.group [[.quoted "\\\"" none, .name "s" none]] (some .star)) := by
      refine .group (by simp) (by simp) ?_ _
      simp only [List.forall_mem_singleton, List.forall_mem_cons]
      exact ⟨.quoted hquote none, .name rfl none⟩
    have hrule : Alternation.WellFormed
        [[.name "id" none, .group [[.quoted "\\\"" none, .name "s" none]] (some .star)]] := by
      refine ⟨by simp, by simp, ?_⟩
      simp only [List.forall_mem_singleton, List.forall_mem_cons]
      exact ⟨.name rfl none, hgroup⟩
    rw [sampleDeclarations, List.forall_mem_cons, List.forall_mem_singleton]
    exact ⟨.rule rfl hrule, .token rfl hletters⟩
  distinct := by decide
  has_rule := List.cons_ne_nil _ _

/-- The text has blanks in odd places, and none in most. -/
private theorem sampleDeclarations_layout :
    Layout none (sampleDeclarations.flatMap Declaration.lexemes)
      "s->id(\"\\\"\" s) * ;\n\tid=\"[a-z]+\"; ".toList := by
  refine @Layout.cons none [] "s" _ _ rfl (by decide) ?_
  refine @Layout.cons _ [] "->" _ _ rfl (by decide) ?_
  refine @Layout.cons _ [] "id" _ _ rfl (by decide) ?_
  refine @Layout.cons _ [] "(" _ _ rfl (by decide) ?_
  refine @Layout.cons _ [] "\"\\\"\"" _ _ rfl (by decide) ?_
  refine @Layout.cons _ [' '] "s" _ _ rfl (by decide) ?_
  refine @Layout.cons _ [] ")" _ _ rfl (by decide) ?_
  refine @Layout.cons _ [' '] "*" _ _ rfl (by decide) ?_
  refine @Layout.cons _ [' '] ";" _ _ rfl (by decide) ?_
  refine @Layout.cons _ ['\n', '\t'] "id" _ _ rfl (by decide) ?_
  refine @Layout.cons _ [] "=" _ _ rfl (by decide) ?_
  refine @Layout.cons _ [] "\"[a-z]+\"" _ _ rfl (by decide) ?_
  refine @Layout.cons _ [] ";" _ _ rfl (by decide) ?_
  exact @Layout.nil _ [' '] rfl

theorem load_of_layout_escaped :
    ∃ p, load "s->id(\"\\\"\" s) * ;\n\tid=\"[a-z]+\"; " = .done p ∧
      p.grammar.start = "s" ∧
      p.grammar.rules =
        [("s", .seq [.literal "id", .star (.seq [.literal "\"\\\"\"", .ref "s"])])] ∧
      p.lexer.kindNames = ["\"\\\"\"", "id"] := by
  obtain ⟨p, hp, himplements⟩ :=
    load_of_layout _ sampleDeclarations_wellFormed _ sampleDeclarations_layout
  have hstart : some "s" = some p.grammar.start := himplements.start
  have hkinds : p.lexer.kindNames = (kindSources sampleDeclarations).map Prod.fst :=
    map_fst_of_describes himplements.kinds
  exact ⟨p, hp, (Option.some.inj hstart).symm, himplements.rules, hkinds⟩

/-- At a quote the rule of quoted patterns, which is itself a pattern, matches just if a quote
closes behind it, and up to the first that does. To unquote what it matches is to take away
the two quotes; between them are tokens of patterns in which all quotes are escaped. -/
theorem quoted_ends_first_close (text : String) (p : Nat) (hp : text.toList[p]? = some '"') :
    ∃ declarations patterns, loadParser = .done declarations ∧
      Pattern.loadParser = .done patterns ∧
      (declarations.lexer.grammar.rule? "str" = some quotedRule ∧
        Pattern.load "\"((\\\\\\\\)|(\\\\\")|^\")*\"" = .done quotedRule) ∧
      ((∃ q, declarations.lexer.Ends text.toList.toArray "str" p q) ↔
        ∃ i, ClosesAt (text.toList.drop (p + 1)) i) ∧
      ((∃ f, declarations.lexer.grammar.namedMatcher text.toList.toArray "str" p = .failed f) ↔
        ¬ ∃ i, ClosesAt (text.toList.drop (p + 1)) i) ∧
      ∀ q, declarations.lexer.Ends text.toList.toArray "str" p q →
        ∃ i, FirstClosesAt (text.toList.drop (p + 1)) i ∧ q = p + 1 + i + 1 ∧
          ∃ body, body.toList = (text.toList.drop (p + 1)).take i ∧
            (Lexer.Segment.token text.toList.toArray ⟨"str", p, q⟩).value = quotation body ∧
            unquote (quotation body) = body ∧
            ∃ ts, patterns.lexer.tokens body = .done ts ∧ QuotesEscaped body ts := by
  have hquote : text.toList.toArray[p]? = some '"' := by simpa using hp
  have hremains := remains_quote hquote
  obtain ⟨hends, hfails⟩ := ends_iff_closes hremains
  have hload : Pattern.load "\"((\\\\\\\\)|(\\\\\")|^\")*\"" = .done quotedRule := by
    rw [Pattern.load_eq_compile, compile_quotedRule]
  refine ⟨parser, Pattern.parser, loadParser_eq, Pattern.loadParser_eq, ⟨rule?_str, hload⟩,
    hends, hfails, ?_⟩
  intro q hq
  obtain ⟨body, hbody, hfirst, htake, hstop, hvalue⟩ := exists_body_of_ends hremains hq
  exact ⟨_, hfirst, hstop, body, htake, hvalue, unquote_quotation body,
    tokens_of_quotable hbody⟩

/-- Three backslashes in front of the second quote leave it open, and the third one closes. -/
theorem quoted_ends_first_close_backslashes :
    let text := "x\"\\\\\\\"\"y\""
    let input := text.toList.toArray
    text.toList[1]? = some '"' ∧
      ∃ declarations patterns, loadParser = .done declarations ∧
        Pattern.loadParser = .done patterns ∧
        ∃ q i body, declarations.lexer.Ends input "str" 1 q ∧
          FirstClosesAt (text.toList.drop 2) i ∧ q = 1 + 1 + i + 1 ∧
          body.toList = (text.toList.drop 2).take i ∧ unquote (quotation body) = body ∧
          ∃ ts, patterns.lexer.tokens body = .done ts ∧ QuotesEscaped body ts := by
  intro text input
  have hquote : text.toList[1]? = some '"' := by decide
  have hcloses : ∃ i, ClosesAt (text.toList.drop 2) i := ⟨4, by decide, by decide⟩
  obtain ⟨declarations, patterns, hdeclarations, hpatterns, -, hends, -, hbody⟩ :=
    quoted_ends_first_close text 1 hquote
  obtain ⟨q, hq⟩ := hends.mpr hcloses
  obtain ⟨i, hfirst, hstop, body, htake, -, hunquote, htokens⟩ := hbody q hq
  exact ⟨hquote, declarations, patterns, hdeclarations, hpatterns, q, i, body, hq, hfirst, hstop,
    htake, hunquote, htokens⟩

end Declaration

open Declaration

/-- Without left recursion every application comes to a match or a failure, and calls that
may nest deeper than they are counted come to the same. The parsers by which patterns and
declarations are read are without left recursion, and so are all lexers that are declared. -/
theorem Grammar.application_ends :
    (∀ {α κ : Type} [Key κ] [Item α κ] (g : Grammar α κ), g.WithoutLeftRecursion →
      ∀ c : Cursor α, c.pos ≤ c.input.size →
        (∀ name, ((∃ result, g.applyNamed name c = .done result) ∨
              ∃ f, g.applyNamed name c = .failed f) ∧
            ∀ depth, g.callDepth c.input ≤ depth →
              g.callMatcher c.input depth name c.pos = g.namedMatcher c.input name c.pos) ∧
          ∀ r, (∃ result, g.applyRule r c = .done result) ∨
            ∃ f, g.applyRule r c = .failed f) ∧
      (∃ p, Pattern.loadParser = .done p ∧ p.lexer.grammar.WithoutLeftRecursion ∧
        p.grammar.WithoutLeftRecursion) ∧
      (∃ p, Declaration.loadParser = .done p ∧ p.lexer.grammar.WithoutLeftRecursion ∧
        p.grammar.WithoutLeftRecursion) ∧
      ∀ src p, Declaration.load src = .done p → p.lexer.grammar.WithoutLeftRecursion := by
  refine ⟨?_, ⟨Pattern.parser, Pattern.loadParser_eq, Pattern.lexer_withoutLeftRecursion,
      Pattern.grammar_withoutLeftRecursion⟩,
    ⟨Declaration.parser, Declaration.loadParser_eq, Declaration.lexer_withoutLeftRecursion,
      Declaration.grammar_withoutLeftRecursion⟩, ?_⟩
  · intro α κ _ _ g hg c hc
    refine ⟨fun name => ⟨?_, fun depth hdepth => ?_⟩, fun r => ?_⟩
    · rw [← Outcome.ne_endless_iff, applyNamed, ne_eq, Outcome.map_eq_endless_iff]
      exact hg.namedMatcher_ne_endless name hc
    · exact g.callMatcher_extends c.input hdepth name c.pos hc
        (hg.namedMatcher_ne_endless name hc)
    · rw [← Outcome.ne_endless_iff, applyRule, ne_eq, Outcome.map_eq_endless_iff]
      exact hg.ruleMatcher_ne_endless r hc
  · intro src p h
    rw [Declaration.load_eq_ofSource] at h
    exact Parser.lexer_withoutLeftRecursion_of_ofSource h

/-- The repetitions of the second rule repeat what may match nothing. It calls the first rule
again, but only behind the third, which never matches nothing. -/
private def optionsGrammar : Grammar Char Char where
  start := "s"
  rules :=
    [("s", .seq [.opt (.literal 'x'), .ref "t"]),
     ("t", .seq [.star (.star (.opt (.literal 'y'))), .plus (.opt (.literal 'z')),
       .opt (.seq [.ref "open", .ref "s", .literal ')'])]),
     ("open", .literal '(')]
  distinct := by decide
  start_declared := by decide

private theorem optionsGrammar_withoutLeftRecursion : optionsGrammar.WithoutLeftRecursion := by
  let null (name : String) : Bool := name ≠ "open"
  let rank (name : String) : Nat := if name = "s" then 2 else if name = "t" then 1 else 0
  have hclosed : ∀ entry ∈ optionsGrammar.rules,
      entry.2.nullable null = true → null entry.1 = true := by decide
  have hdecreases : ∀ entry ∈ optionsGrammar.rules,
      ∀ m ∈ entry.2.leftRefs null, rank m < rank entry.1 := by decide
  refine ⟨null, rank, ?_, ?_⟩
  · intro name r hrule
    exact hclosed (name, r) (optionsGrammar.rule?_eq_some_iff.mp hrule)
  · intro name r hrule
    exact hdecreases (name, r) (optionsGrammar.rule?_eq_some_iff.mp hrule)

private def letterDeclarations : List Declaration :=
  [.rule "s" [[.quoted "a" none]]]

private theorem letterDeclarations_wellFormed : AllWellFormed letterDeclarations where
  each := by
    have hletter : WellQuoted "a" :=
      .of_printAll [.atom (.plain ⟨'a', by decide⟩) none] rfl rfl
    rw [letterDeclarations, List.forall_mem_singleton]
    exact .rule rfl ⟨by simp, by simp, by simpa using .quoted hletter none⟩
  distinct := by decide
  has_rule := List.cons_ne_nil _ _

theorem Grammar.application_ends_nullable :
    let c : Cursor Char := ⟨#['y', '(', 'x', ')'], 0⟩
    (optionsGrammar.WithoutLeftRecursion ∧ c.pos ≤ c.input.size ∧
        ((∃ result, optionsGrammar.applyNamed "s" c = .done result) ∨
          ∃ f, optionsGrammar.applyNamed "s" c = .failed f)) ∧
      ∃ p, Declaration.load "s -> \"a\" ;" = .done p ∧ p.lexer.grammar.WithoutLeftRecursion := by
  intro c
  have hoptions := optionsGrammar_withoutLeftRecursion
  refine ⟨⟨hoptions, Nat.zero_le _, ?_⟩, ?_⟩
  · exact ((application_ends.1 optionsGrammar hoptions c (Nat.zero_le _)).1 "s").1
  · have hprint : print letterDeclarations = "s -> \"a\" ;" := by decide
    have hparse := parse_print letterDeclarations_wellFormed.each
    rw [hprint] at hparse
    obtain ⟨p, hp, -⟩ := load_implements letterDeclarations_wellFormed hparse
    exact ⟨p, hp, application_ends.2.2.2 _ p hp⟩

end Peg
