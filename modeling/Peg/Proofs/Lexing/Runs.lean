import Peg.Proofs.Lexing.Lexemes
import Peg.Proofs.Matching.RepetitionLaws

/-!
Runs of characters that make up one token. A kind whose rule repeats another one takes as
many repetitions as there are, so that two tokens of that kind never stand side by side:
where the first one ends, what is repeated fails or matches nothing, and it does so again
when the kind is tried afresh there.
-/

namespace Peg.Lexer

variable {l : Lexer} {input : Array Char} {kind : String} {r : Rule Char Char} {p q : Nat}

/-- A kind repeats a rule as often as it matches, or as often but at least once. -/
def Repeats (l : Lexer) (kind : String) (r : Rule Char Char) : Prop :=
  (kind, .star r) ∈ l.kinds ∨ (kind, .plus r) ∈ l.kinds

theorem ends_iff_of_mem_kinds (h : (kind, r) ∈ l.kinds) (hp : p ≤ input.size) :
    l.Ends input kind p q ↔ ∃ tree, l.grammar.ruleMatcher input r p = .done ⟨tree, q⟩ := by
  unfold Ends
  rw [Grammar.namedMatcher_of_rule (rule?_of_mem_kinds h) hp]
  constructor
  · rintro ⟨tree, htree⟩
    obtain ⟨s, hs, hlabelled⟩ := Matcher.labelled_eq_done_iff.mp htree
    obtain ⟨-, rfl⟩ := Match.mk.inj hlabelled
    exact ⟨s.tree, hs⟩
  · rintro ⟨tree, htree⟩
    exact ⟨_, Matcher.labelled_eq_done_iff.mpr ⟨_, htree, rfl⟩⟩

/-- Where a repeating kind ends, there is nothing left of what it repeats. -/
theorem Repeats.givesUp (h : l.Repeats kind r) (hp : p ≤ input.size)
    (hends : l.Ends input kind p q) : Matcher.GivesUp (l.grammar.ruleMatcher input r) q := by
  rcases h with hstar | hplus
  · obtain ⟨tree, htree⟩ := (ends_iff_of_mem_kinds hstar hp).mp hends
    rw [Grammar.ruleMatcher_star] at htree
    exact Matcher.zeroOrMore_givesUp htree
  · obtain ⟨tree, htree⟩ := (ends_iff_of_mem_kinds hplus hp).mp hends
    rw [Grammar.ruleMatcher_plus] at htree
    exact Matcher.oneOrMore_givesUp htree

/-- Where there is nothing left of what it repeats, a repeating kind matches nothing. -/
theorem Repeats.eq_of_givesUp (h : l.Repeats kind r) (hp : p ≤ input.size)
    (hgives : Matcher.GivesUp (l.grammar.ruleMatcher input r) p)
    (hends : l.Ends input kind p q) : q = p := by
  rcases h with hstar | hplus
  · obtain ⟨tree, htree⟩ := (ends_iff_of_mem_kinds hstar hp).mp hends
    have hbounded := l.grammar.ruleMatcher_bounded input r
    rw [Grammar.ruleMatcher_star, hgives.zeroOrMore_eq hbounded hp] at htree
    cases htree
    rfl
  · obtain ⟨tree, htree⟩ := (ends_iff_of_mem_kinds hplus hp).mp hends
    rw [Grammar.ruleMatcher_plus] at htree
    exact hgives.oneOrMore_stop htree

/-- A segment of a repeating kind is not followed by another one. -/
theorem Repeats.start_ne_stop (h : l.Repeats kind r) {segments : List Segment}
    (hsegments : l.Segmentation input p segments) (hp : p ≤ input.size) {s t : Segment}
    (hs : s ∈ segments) (ht : t ∈ segments) (hskind : s.kind = kind) (htkind : t.kind = kind) :
    t.start ≠ s.stop := by
  obtain ⟨hsle, hsends⟩ := hsegments.ends hp s hs
  obtain ⟨htle, htends⟩ := hsegments.ends hp t ht
  have htadvances : t.start < t.stop := (hsegments.bounds hp t ht).2.1
  intro hnext
  rw [hskind] at hsends
  rw [htkind] at htends
  have hgives := h.givesUp hsle hsends
  rw [← hnext] at hgives
  have hstop : t.stop = t.start := h.eq_of_givesUp htle hgives htends
  omega

/-- Two tokens of a kind that repeats a rule never stand side by side: each takes the whole
run. What is repeated may match nothing, call other kinds or depend on where the text ends,
the lexer may pick among kinds either way, and any kinds may be hidden. -/
theorem tokens_take_runs (l : Lexer) (kind : String) (r : Rule Char Char)
    (hkind : l.Repeats kind r) (text : String) (ts : List Token) (h : l.tokens text = .done ts)
    (s t : Token) (hs : s ∈ ts) (ht : t ∈ ts) (hskind : s.kind = kind) (htkind : t.kind = kind) :
    t.pos ≠ s.pos + s.value.length := by
  obtain ⟨segments, hsegments, -, rfl⟩ := tokens_eq_done_iff.mp h
  obtain ⟨a, ha, rfl⟩ := List.mem_map.mp (List.mem_of_mem_filter hs)
  obtain ⟨b, hb, rfl⟩ := List.mem_map.mp (List.mem_of_mem_filter ht)
  have hapart : b.start ≠ a.stop :=
    hkind.start_ne_stop hsegments (Nat.zero_le _) ha hb hskind htkind
  obtain ⟨-, hlt, hstop⟩ := hsegments.bounds (Nat.zero_le _) a ha
  rw [Segment.length_token hstop]
  simp only [Segment.token]
  omega

private def wordsLexer : Lexer where
  kinds :=
    [("sign", .literal '+'), ("word", .plus (.opt (.ref "letter"))), ("letter", .range 'a' 'z')]
  dispatch := .firstMatch
  hidden := hiddenByName
  distinct := by decide

/-- A word takes all letters there are, although it repeats what may match nothing and
letters are tokens as well. -/
theorem tokens_take_runs_words :
    wordsLexer.Repeats "word" (.opt (.ref "letter")) ∧
      wordsLexer.tokens "ab+c" =
        .done [⟨"word", "ab", 0⟩, ⟨"sign", "+", 2⟩, ⟨"word", "c", 3⟩] ∧
      (3 : Nat) ≠ 0 + "ab".length := by
  have hkind : wordsLexer.Repeats "word" (.opt (.ref "letter")) :=
    .inr (List.mem_cons_of_mem _ List.mem_cons_self)
  have htokens : wordsLexer.tokens "ab+c" =
      .done [⟨"word", "ab", 0⟩, ⟨"sign", "+", 2⟩, ⟨"word", "c", 3⟩] := rfl
  exact ⟨hkind, htokens, wordsLexer.tokens_take_runs "word" _ hkind "ab+c" _ htokens
    ⟨"word", "ab", 0⟩ ⟨"word", "c", 3⟩ (by simp) (by simp) rfl rfl⟩

end Peg.Lexer
