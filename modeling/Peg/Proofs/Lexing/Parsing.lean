import Peg.Parser
import Peg.Proofs.Lexing.Segmentation
import Peg.Proofs.Matching.Reading

/-!
What a parser makes of a text. It has a tree if the lexer cuts the text into tokens and
the start rule matches all of them. So what the grammar yields on the tokens is what the
parser yields on the text, and what every rule passes on holds of the tree. The tree keeps
all of the text but hidden tokens.
-/

namespace Peg.Parser

variable {p : Parser} {text : String} {ts : List Token}

/-- The start rule has to match all tokens. -/
theorem parse_eq_done_iff {tree : ParseTree Token} :
    p.parse text = .done tree ↔
      ∃ ts, p.lexer.tokens text = .done ts ∧
        p.grammar.matchStart ts.toArray = .done ⟨tree, ts.length⟩ := by
  simp only [parse, parseTokens, Outcome.bind_eq_done_iff]
  constructor
  · rintro ⟨ts, hts, s, hs, htree⟩
    have hlossless := p.grammar.namedMatcher_lossless ts.toArray p.grammar.start
    have hle : s.stop ≤ ts.length := (hlossless 0 s (Nat.zero_le _) hs).stop_le
    by_cases hlt : s.stop < ts.length
    · simp [hlt] at htree
    · rw [if_neg hlt] at htree
      obtain rfl : s.tree = tree := Outcome.done.inj htree
      have hstop : s.stop = ts.length := by omega
      exact ⟨ts, hts, hstop ▸ hs⟩
  · rintro ⟨ts, hts, hs⟩
    exact ⟨ts, hts, _, hs, if_neg (Nat.lt_irrefl _)⟩

theorem parse_of_yields {r : Rule Token String} {os : List (Outline Token)}
    (hts : p.lexer.tokens text = .done ts)
    (hrule : p.grammar.rule? p.grammar.start = some r)
    (h : p.grammar.Yields ts.toArray r ts [] os) :
    ∃ tree, p.parse text = .done tree ∧ tree.outline = [.node p.grammar.start os] := by
  obtain ⟨tree, htree, houtline⟩ := Grammar.matchStart_of_yields hrule h
  exact ⟨tree, parse_eq_done_iff.mpr ⟨ts, hts, htree⟩, houtline⟩

theorem parse_tells {C : String → List Token → List (Outline Token) → Prop}
    (hC : p.grammar.Closed C) {tree : ParseTree Token} (h : p.parse text = .done tree) :
    ∃ ts os, p.lexer.tokens text = .done ts ∧
      tree.outline = [.node p.grammar.start os] ∧ C p.grammar.start ts os := by
  obtain ⟨ts, hts, htree⟩ := parse_eq_done_iff.mp h
  obtain ⟨os, houtline, hread⟩ :=
    hC.namedMatcher_tells ts.toArray p.grammar.start 0 _ (Nat.zero_le _) htree
  have hcovers := p.grammar.namedMatcher_lossless ts.toArray p.grammar.start 0 _
    (Nat.zero_le _) htree
  have hvalues : tree.values = ts := by
    simpa using hcovers.values_eq_extract (Nat.zero_le _)
  exact ⟨ts, os, hts, houtline, hvalues ▸ hread⟩

open Lexer

/-- What a tree keeps of a text. It holds the visible tokens, each in a leaf of its own, and
what lies between them are hidden tokens. -/
structure Keeps (p : Parser) (text : String) (tree : ParseTree Token) : Prop where
  label : tree.label = some p.grammar.start
  tokens : p.lexer.tokens text = .done tree.values
  valued : (tree.preorder 0).filterMap (·.2.value) = tree.values
  leaves : ∀ entry ∈ tree.preorder 0, entry.2.value.isSome → entry.2.children = []
  laidOut : LaidOut text tree.values
  increasing : tree.values.Pairwise fun s t => s.pos < t.pos
  gaps : ∃ all, p.lexer.allTokens text = .done all ∧ LaidOut text all ∧
    tree.values = all.filter (fun t => !p.lexer.hidden t.kind) ∧
    ∀ i < text.length, (∀ t ∈ tree.values, ¬ Spans t i) →
      ∃ t ∈ all, p.lexer.hidden t.kind = true ∧ Spans t i

theorem keeps_of_parse {tree : ParseTree Token} (h : p.parse text = .done tree) :
    p.Keeps text tree := by
  obtain ⟨ts, hts, htree⟩ := parse_eq_done_iff.mp h
  have hcovers := p.grammar.namedMatcher_lossless ts.toArray p.grammar.start 0 _
    (Nat.zero_le _) htree
  have hvalues : tree.values = ts := by
    simpa using hcovers.values_eq_extract (Nat.zero_le _)
  subst hvalues
  obtain ⟨all, hall, hfilter⟩ := Outcome.map_eq_done_iff.mp hts
  have hlaidOut : LaidOut text tree.values := hfilter ▸ (laidOut_of_allTokens hall).filter _
  exact
    { label := p.grammar.namedMatcher_label (Nat.zero_le _) htree
      tokens := hts
      valued := tree.filterMap_preorder 0
      leaves := fun entry hentry => hcovers.leaves.children_eq_nil hentry
      laidOut := hlaidOut
      increasing := hlaidOut.increasing
      gaps := by
        refine ⟨all, hall, laidOut_of_allTokens hall, hfilter.symm, ?_⟩
        intro i hi hgap
        obtain ⟨t, ht, hspans⟩ := exists_spans_of_allTokens hall hi
        refine ⟨t, ht, ?_, hspans⟩
        by_contra hvisible
        have hmem : t ∈ tree.values := by
          rw [← hfilter, List.mem_filter]
          exact ⟨ht, by simpa using hvisible⟩
        exact hgap t hmem hspans }

/-- A start rule that leaves tokens behind fails with how many it has matched. -/
theorem parse_eq_incomplete {r : Match Token} (hts : p.lexer.tokens text = .done ts)
    (hr : p.grammar.matchStart ts.toArray = .done r) (hstop : r.stop ≠ ts.length) :
    r.stop < ts.length ∧
      p.parse text = .failed
        { cause := .incomplete r.stop ts.length
          pos := r.stop
          name := some p.grammar.start } := by
  have hlossless := p.grammar.namedMatcher_lossless ts.toArray p.grammar.start
  have hle : r.stop ≤ ts.length := (hlossless 0 r (Nat.zero_le _) hr).stop_le
  have hlt : r.stop < ts.length := Nat.lt_of_le_of_ne hle hstop
  refine ⟨hlt, ?_⟩
  rw [parse, hts, Outcome.bind, parseTokens, hr, Outcome.bind, if_pos hlt]

/-- Parsing loses nothing of a text but its hidden tokens. There is a tree just if the start
rule matches all visible tokens, and where it leaves some of them the failure says how
many. -/
theorem parse_lossless (p : Parser) (text : String) :
    (∀ tree, p.parse text = .done tree ↔
        ∃ ts, p.lexer.tokens text = .done ts ∧
          p.grammar.matchStart ts.toArray = .done ⟨tree, ts.length⟩) ∧
      (∀ tree, p.parse text = .done tree → p.Keeps text tree) ∧
      ∀ ts r, p.lexer.tokens text = .done ts → p.grammar.matchStart ts.toArray = .done r →
        r.stop ≠ ts.length →
          r.stop < ts.length ∧
            p.parse text = .failed
              { cause := .incomplete r.stop ts.length
                pos := r.stop
                name := some p.grammar.start } :=
  ⟨fun _ => parse_eq_done_iff, fun _ => keeps_of_parse, fun _ _ => parse_eq_incomplete⟩

/-- Words with blanks between them, which are hidden, and commas. Lists are made of words. -/
private def wordsParser : Parser where
  lexer :=
    { kinds := [("_blank", .plus (.literal ' ')), ("word", .plus (.range 'a' 'z')),
        ("comma", .literal ',')]
      dispatch := .firstMatch
      hidden := hiddenByName
      distinct := by decide }
  grammar :=
    { start := "words"
      rules := [("words", .star (.literal "word"))]
      distinct := by decide
      start_declared := by decide }

theorem parse_lossless_blanks :
    let tree : ParseTree Token :=
      .branch [.leaf ⟨"word", "ab", 1⟩, .leaf ⟨"word", "c", 5⟩]
    (wordsParser.parse " ab  c" = .done (tree.labelled "words") ∧
        wordsParser.Keeps " ab  c" (tree.labelled "words")) ∧
      2 ≠ 3 ∧ wordsParser.parse "a b," = .failed
        { cause := .incomplete 2 3, pos := 2, name := some "words" } := by
  intro tree
  have hparse : wordsParser.parse " ab  c" = .done (tree.labelled "words") := rfl
  have htokens : wordsParser.lexer.tokens "a b," =
      .done [⟨"word", "a", 0⟩, ⟨"word", "b", 2⟩, ⟨"comma", ",", 3⟩] := rfl
  have hstart : wordsParser.grammar.matchStart
      [(⟨"word", "a", 0⟩ : Token), ⟨"word", "b", 2⟩, ⟨"comma", ",", 3⟩].toArray =
        .done ⟨(ParseTree.branch [.leaf ⟨"word", "a", 0⟩, .leaf ⟨"word", "b", 2⟩]).labelled
          "words", 2⟩ := rfl
  refine ⟨⟨hparse, ((wordsParser.parse_lossless " ab  c").2.1 _ hparse)⟩, by decide, ?_⟩
  exact ((wordsParser.parse_lossless "a b,").2.2 _ _ htokens hstart (by decide)).2

end Peg.Parser
