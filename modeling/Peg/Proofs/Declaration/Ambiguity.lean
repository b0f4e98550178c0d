import Peg.Proofs.Declaration.Faults
import Peg.Proofs.Pattern.Scanning

/-!
Neither of the two notations has an ambiguous word. Both lexers ask for exactly one kind at
each place, and at no place of any text is there another, so that nothing that is wrong with
a source is told to be ambiguous. How a pattern is cut into tokens is even told by one pass
over its characters.
-/

namespace Peg

namespace Pattern

variable {src : String} {f : Failure}

theorem lexer_exclusive : lexer.Exclusive :=
  firstTells.exclusive (Lexer.nullClosed_rootName (by decide))

theorem parse_unambiguous (h : parser.parse src = .failed f) : f.Unambiguous :=
  Parser.parse_unambiguous lexer_exclusive (by decide) (by decide) h

theorem load_unambiguous (h : load src = .failed f) : f.Unambiguous := by
  rw [load_eq_compile] at h
  obtain ⟨e, he, rfl⟩ := compile_eq_failed_iff.mp h
  exact .node (by simp [malformed]) (List.forall_mem_singleton.mpr (parse_unambiguous he))

end Pattern

namespace Declaration

variable {src : String} {f : Failure}

theorem parse_unambiguous (h : parser.parse src = .failed f) : f.Unambiguous :=
  Parser.parse_unambiguous lexer_exclusive (by decide) (by decide) h

/-- Whatever is wrong with declarations by themselves is not ambiguous. -/
theorem FirstFault.unambiguous {taken : List String} {es : List Entry}
    (h : FirstFault taken es f) : f.Unambiguous := by
  induction h with
  | here fault =>
      cases fault with
      | duplicate mem => exact Failure.unambiguous_leaf (by simp) _ _
      | rejected fresh compile fails => exact Pattern.load_unambiguous fails
  | later fresh compile tail ih => exact ih

theorem load_unambiguous (h : load src = .failed f) : f.Unambiguous := by
  rcases parsed_or_failed src with ⟨tree, htree⟩ | ⟨e, he⟩
  · obtain ⟨ds, ts, hds, -, -, hsound⟩ := exists_parse htree
    rw [load_of_parse htree hds, ofDeclarations_eq_failed_iff hsound] at h
    rcases h with hfault | ⟨-, -, rfl⟩
    · exact hfault.unambiguous
    · exact Failure.unambiguous_leaf (by simp) _ _
  · rw [load_of_failed he] at h
    cases h
    exact .node (by simp [malformed]) (List.forall_mem_singleton.mpr (parse_unambiguous he))

/-- At no place of a text does more than one kind of token of either notation match, and so no
failure to load a source has anything ambiguous in it. The tokens of a pattern are those that
one pass over its characters finds; there are none just if it ends on a backslash with nothing
behind it. -/
theorem lexers_unambiguous :
    (Pattern.lexer.Exclusive ∧ ∃ p, loadParser = .done p ∧ p.lexer.Exclusive) ∧
    (∀ src f, Pattern.load src = .failed f ∨ load src = .failed f →
      ∀ entry ∈ f.preorder 0, ∀ matched, entry.2.cause ≠ .ambiguous matched) ∧
    ∀ text, (∀ ts, Pattern.lexer.tokens text = .done ts ↔ Pattern.scan text = some ts) ∧
      ((∃ f, Pattern.lexer.tokens text = .failed f) ↔ Pattern.scan text = none) := by
  refine ⟨⟨Pattern.lexer_exclusive, parser, loadParser_eq, lexer_exclusive⟩, ?_,
    Pattern.tokens_scan⟩
  rintro src f (h | h) entry hentry
  · exact (Pattern.load_unambiguous h).of_mem_preorder hentry
  · exact (load_unambiguous h).of_mem_preorder hentry

/-- Sources that break off, and one in which an operator stands with and without a backslash. -/
theorem lexers_unambiguous_unfinished :
    (∃ f, Pattern.load "a\\" = .failed f ∧
        ∀ entry ∈ f.preorder 0, ∀ matched, entry.2.cause ≠ .ambiguous matched) ∧
      (∃ f, load "\"" = .failed f ∧
        ∀ entry ∈ f.preorder 0, ∀ matched, entry.2.cause ≠ .ambiguous matched) ∧
      Pattern.lexer.tokens "**\\*a" =
        .done [⟨"*", "*", 0⟩, ⟨"*", "*", 1⟩, ⟨"special", "\\*", 2⟩, ⟨"literal", "a", 4⟩] := by
  have hpattern : ∃ f, Pattern.load "a\\" = .failed f := ⟨_, rfl⟩
  have hunclosed : ∃ e, parser.parse "\"" = .failed e := ⟨_, rfl⟩
  obtain ⟨f, hf⟩ := hpattern
  obtain ⟨e, he⟩ := hunclosed
  have hload := load_of_failed he
  obtain ⟨-, hfailures, hscan⟩ := lexers_unambiguous
  exact ⟨⟨f, hf, hfailures _ _ (.inl hf)⟩, ⟨_, hload, hfailures _ _ (.inr hload)⟩,
    ((hscan "**\\*a").1 _).mpr rfl⟩

end Declaration

end Peg
