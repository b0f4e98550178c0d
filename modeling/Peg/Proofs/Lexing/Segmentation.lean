import Peg.Lexer
import Peg.Proofs.Matching.Depth

/-!
Which tokens a lexer cuts a text into. A segmentation goes through a text from one
position to the next; at each of them the lexer picks a kind by its dispatch, and the
rule of that kind says where the segment ends. The tokens of a text are the segments of
its segmentation whose kinds are not hidden, whatever the rules of the kinds refer to.
-/

namespace Peg.Lexer

/-- A stretch of a text that is taken as one token of a kind. -/
structure Segment where
  kind : String
  start : Nat
  stop : Nat

def Segment.token (input : Array Char) (s : Segment) : Token :=
  ⟨s.kind, String.ofList (input.extract s.start s.stop).toList, s.start⟩

section Definitions

variable (l : Lexer) (input : Array Char)

/-- The rule of a kind matches between two positions. -/
def Ends (kind : String) (p q : Nat) : Prop :=
  ∃ tree, l.grammar.namedMatcher input kind p = .done ⟨tree, q⟩

/-- What a lexer picks at a position: the kind declared first among those whose rules
succeed there or, if dispatch is to be unambiguous, the only such kind. -/
def Picks (kind : String) (p : Nat) : Prop :=
  match l.dispatch with
  | .firstMatch =>
      ∃ before after, l.kindNames = before ++ kind :: after ∧
        (∃ q, l.Ends input kind p q) ∧ ∀ k ∈ before, ¬ ∃ q, l.Ends input k p q
  | .unambiguous =>
      kind ∈ l.kindNames ∧ (∃ q, l.Ends input kind p q) ∧
        ∀ k ∈ l.kindNames, (∃ q, l.Ends input k p q) → k = kind

/-- Segments that begin at a position, follow one another, and reach the end of the
input. -/
inductive Segmentation : Nat → List Segment → Prop
  | nil : Segmentation input.size []
  | cons {kind : String} {p q : Nat} {segments : List Segment} (pick : l.Picks input kind p)
      (ends : l.Ends input kind p q) (advances : p < q)
      (tail : Segmentation q segments) : Segmentation p (⟨kind, p, q⟩ :: segments)

/-- The matcher of one token of any kind, as the start rule calls it. -/
def cut : Matcher Char :=
  l.grammar.ruleMatcher input (.ref tokenName)

end Definitions

variable {l : Lexer} {input : Array Char} {p : Nat}

/-- What the start rule sees of a match of a kind: the two added layers around it. -/
def tokenMatch (s : Match Char) : Match Char :=
  ⟨.branch [(ParseTree.branch [.branch [s.tree]]).labelled tokenName], s.stop⟩

theorem cut_lossless (l : Lexer) (input : Array Char) :
    Matcher.Lossless input (l.cut input) :=
  l.grammar.ruleMatcher_lossless input _

theorem cut_eq (hp : p ≤ input.size) :
    l.cut input p =
      Matcher.within (Matcher.labelled tokenName (l.grammar.ruleMatcher input l.tokenRule)) p := by
  have hne : (tokenName == rootName) = false := by decide
  have hrule : l.grammar.rule? tokenName = some l.tokenRule := by
    simp [Grammar.rule?, grammar, List.lookup_cons, hne]
  unfold cut
  rw [Grammar.ruleMatcher_ref, Matcher.within, Matcher.within, Grammar.namedMatcher_of_rule hrule hp]

/-- The matcher of a kind as the rule for a token of any kind calls it. -/
def kindMatcher (l : Lexer) (input : Array Char) (kind : String) : Matcher Char :=
  Matcher.within (l.grammar.namedMatcher input kind)

/-- A kind as an alternative of which exactly one may match. -/
def kindAlternative (l : Lexer) (input : Array Char) (kind : String) :
    Rule Char Char × Matcher Char :=
  (.ref kind, l.kindMatcher input kind)

theorem kindMatcher_eq_done_iff {kind : String} {r : Match Char} :
    l.kindMatcher input kind p = .done r ↔
      ∃ s, l.grammar.namedMatcher input kind p = .done s ∧ Matcher.wrap s = r :=
  Matcher.within_eq_done_iff

theorem ends_iff {kind : String} :
    (∃ q, l.Ends input kind p q) ↔ ∃ r, l.kindMatcher input kind p = .done r := by
  constructor
  · rintro ⟨q, tree, h⟩
    exact ⟨_, kindMatcher_eq_done_iff.mpr ⟨_, h, rfl⟩⟩
  · rintro ⟨r, h⟩
    obtain ⟨s, hs, -⟩ := kindMatcher_eq_done_iff.mp h
    exact ⟨s.stop, s.tree, hs⟩

theorem ruleMatcher_tokenRule (l : Lexer) (input : Array Char) :
    l.grammar.ruleMatcher input l.tokenRule =
      match l.dispatch with
      | .firstMatch => Matcher.firstOf (l.kindNames.map (l.kindMatcher input))
      | .unambiguous =>
          Matcher.exactlyOne Rule.render (l.kindNames.map (l.kindAlternative input)) := by
  unfold tokenRule
  cases l.dispatch with
  | firstMatch =>
      rw [Grammar.ruleMatcher_alt, List.map_map]
      rfl
  | unambiguous =>
      rw [Grammar.ruleMatcher_oneOf, List.map_map]
      rfl

theorem kindNames_nodup (l : Lexer) : l.kindNames.Nodup :=
  (List.nodup_cons.mp (List.nodup_cons.mp l.distinct).2).2

/-- The rule for a token of any kind matches as the picked kind does. -/
theorem tokenRule_eq_done {r : Match Char}
    (h : l.grammar.ruleMatcher input l.tokenRule p = .done r) :
    ∃ kind s, l.Picks input kind p ∧ l.grammar.namedMatcher input kind p = .done s ∧
      Matcher.wrap (Matcher.wrap s) = r := by
  rw [ruleMatcher_tokenRule] at h
  unfold Picks
  cases hdispatch : l.dispatch with
  | firstMatch =>
      simp only [hdispatch, Matcher.firstOf_eq_done_iff] at h
      obtain ⟨before, m, after, t, hsplit, hbefore, hm, rfl⟩ := h
      obtain ⟨names, rest, hnames, rfl, hrest⟩ := List.map_eq_append_iff.mp hsplit
      obtain ⟨kind, later, rfl, rfl, rfl⟩ := List.map_eq_cons_iff.mp hrest
      obtain ⟨s, hs, rfl⟩ := kindMatcher_eq_done_iff.mp hm
      refine ⟨kind, s, ⟨names, later, hnames, ends_iff.mpr ⟨_, hm⟩, ?_⟩, hs, rfl⟩
      intro k hk hends
      obtain ⟨t, ht⟩ := ends_iff.mp hends
      obtain ⟨f, hf⟩ := hbefore _ (List.mem_map_of_mem hk)
      cases hf.symm.trans ht
  | unambiguous =>
      simp only [hdispatch, Matcher.exactlyOne_eq_done_iff] at h
      obtain ⟨before, b, m, after, t, hsplit, hothers, hm, rfl⟩ := h
      obtain ⟨names, rest, hnames, rfl, hrest⟩ := List.map_eq_append_iff.mp hsplit
      obtain ⟨kind, later, rfl, hkind, rfl⟩ := List.map_eq_cons_iff.mp hrest
      cases hkind
      obtain ⟨s, hs, rfl⟩ := kindMatcher_eq_done_iff.mp hm
      refine ⟨kind, s, ⟨by simp [hnames], ends_iff.mpr ⟨_, hm⟩, ?_⟩, hs, rfl⟩
      intro k hk hends
      obtain ⟨t, ht⟩ := ends_iff.mp hends
      by_contra hne
      have hother : l.kindAlternative input k ∈
          names.map (l.kindAlternative input) ++ later.map (l.kindAlternative input) := by
        rw [← List.map_append]
        apply List.mem_map_of_mem
        rw [hnames, List.perm_middle.mem_iff, List.mem_cons] at hk
        exact hk.resolve_left hne
      obtain ⟨f, hf⟩ := hothers _ hother
      cases hf.symm.trans ht

/-- Unless an attempt has no end, the picked kind is taken. -/
theorem tokenRule_eq {kind : String} {s : Match Char} (hpick : l.Picks input kind p)
    (hs : l.grammar.namedMatcher input kind p = .done s)
    (hends : l.grammar.ruleMatcher input l.tokenRule p ≠ .endless) :
    l.grammar.ruleMatcher input l.tokenRule p = .done (Matcher.wrap (Matcher.wrap s)) := by
  have hkind : l.kindMatcher input kind p = .done (Matcher.wrap s) :=
    kindMatcher_eq_done_iff.mpr ⟨s, hs, rfl⟩
  rw [ruleMatcher_tokenRule] at hends ⊢
  unfold Picks at hpick
  cases hdispatch : l.dispatch with
  | firstMatch =>
      simp only [hdispatch] at hpick hends ⊢
      obtain ⟨before, after, hnames, -, hbefore⟩ := hpick
      rw [hnames, List.map_append, List.map_cons] at hends ⊢
      refine Matcher.firstOf_eq ?_ hkind hends
      intro b hb t ht
      obtain ⟨k, hk, rfl⟩ := List.mem_map.mp hb
      exact hbefore k hk (ends_iff.mpr ⟨t, ht⟩)
  | unambiguous =>
      simp only [hdispatch] at hpick hends ⊢
      obtain ⟨hmem, -, honly⟩ := hpick
      obtain ⟨before, after, hnames⟩ := List.append_of_mem hmem
      have hdistinct := l.kindNames_nodup
      have hall := Matcher.ne_endless_of_exactlyOne hends
      rw [hnames] at hdistinct
      rw [Matcher.exactlyOne_eq_done_iff]
      refine ⟨before.map (l.kindAlternative input), .ref kind, l.kindMatcher input kind,
        after.map (l.kindAlternative input), _, ?_, ?_, hkind, rfl⟩
      · rw [hnames, List.map_append, List.map_cons]
        rfl
      intro x hx
      rw [← List.map_append] at hx
      obtain ⟨k, hk, rfl⟩ := List.mem_map.mp hx
      have hmem' : k ∈ l.kindNames := by
        rw [hnames, List.perm_middle.mem_iff]
        exact List.mem_cons_of_mem kind hk
      have hne : k ≠ kind := by
        rintro rfl
        exact (List.nodup_middle.mp hdistinct |> List.nodup_cons.mp).1 hk
      cases hout : l.kindMatcher input k p with
      | done t => exact absurd (honly k hmem' (ends_iff.mpr ⟨t, hout⟩)) hne
      | failed f => exact ⟨f, hout⟩
      | endless =>
          exact absurd hout (hall (l.kindAlternative input k) (List.mem_map_of_mem hmem'))

theorem cut_eq_done (hp : p ≤ input.size) {r : Match Char} (h : l.cut input p = .done r) :
    ∃ kind s, l.Picks input kind p ∧ l.grammar.namedMatcher input kind p = .done s ∧
      tokenMatch s = r := by
  rw [cut_eq hp] at h
  obtain ⟨t, ht, rfl⟩ := Matcher.within_eq_done_iff.mp h
  obtain ⟨u, hu, rfl⟩ := Matcher.labelled_eq_done_iff.mp ht
  obtain ⟨kind, s, hpick, hs, rfl⟩ := tokenRule_eq_done hu
  exact ⟨kind, s, hpick, hs, rfl⟩

theorem cut_of_picks (hp : p ≤ input.size) {kind : String} {s : Match Char}
    (hpick : l.Picks input kind p) (hs : l.grammar.namedMatcher input kind p = .done s)
    (hends : l.cut input p ≠ .endless) : l.cut input p = .done (tokenMatch s) := by
  rw [cut_eq hp] at hends ⊢
  have htoken : l.grammar.ruleMatcher input l.tokenRule p ≠ .endless := by
    intro h
    simp [Matcher.within, Matcher.labelled, h, Outcome.mapFailure, Outcome.map] at hends
  have hdone := tokenRule_eq hpick hs htoken
  exact Matcher.within_eq_done_iff.mpr
    ⟨_, Matcher.labelled_eq_done_iff.mpr ⟨_, hdone, rfl⟩, rfl⟩

theorem cut_ne_endless (hp : p ≤ input.size)
    (hends : ∀ kind ∈ l.kindNames, l.grammar.namedMatcher input kind p ≠ .endless) :
    l.cut input p ≠ .endless := by
  have hkinds (kind : String) (hkind : kind ∈ l.kindNames) :
      l.kindMatcher input kind p ≠ .endless := by
    rw [kindMatcher, ne_eq, Matcher.within_eq_endless_iff]
    exact hends kind hkind
  rw [cut_eq hp, ne_eq, Matcher.within_eq_endless_iff, Matcher.labelled_eq_endless_iff,
    ruleMatcher_tokenRule]
  cases l.dispatch with
  | firstMatch => exact Matcher.firstOf_ne_endless (List.forall_mem_map.mpr hkinds)
  | unambiguous => exact Matcher.exactlyOne_ne_endless (List.forall_mem_map.mpr hkinds)

theorem mem_kindNames_of_picks {kind : String} (h : l.Picks input kind p) :
    kind ∈ l.kindNames := by
  unfold Picks at h
  cases hdispatch : l.dispatch with
  | firstMatch =>
      simp only [hdispatch] at h
      obtain ⟨before, after, hnames, -⟩ := h
      simp [hnames]
  | unambiguous =>
      simp only [hdispatch] at h
      exact h.1

/-- Whether a node carries the name of a kind. -/
def isKind (l : Lexer) (t : ParseTree Char) : Bool :=
  t.isLabelledAny l.kindNames

/-- Of the layers around the tree of a kind, the query for tokens takes that tree. -/
theorem outermost_tokenMatch {kind : String} (hkind : kind ∈ l.kindNames) {s : Match Char}
    (hlabel : s.tree.label = some kind) :
    (tokenMatch s).tree.outermost l.isKind = [s.tree] := by
  have htoken : tokenName ∉ l.kindNames :=
    (List.nodup_cons.mp (List.nodup_cons.mp l.distinct).2).1
  simp [tokenMatch, ParseTree.outermost_eq, isKind, ParseTree.isLabelledAny, ParseTree.branch,
    ParseTree.labelled, htoken, hlabel, hkind]

/-- The token of a picked kind, in front of what is placed behind it. -/
theorem place_tokenMatch (hp : p ≤ input.size) {kind : String} {s : Match Char}
    (hpick : l.Picks input kind p) (hs : l.grammar.namedMatcher input kind p = .done s)
    (ts : List (ParseTree Char)) :
    place p ((tokenMatch s).tree.outermost l.isKind ++ ts) =
      Segment.token input ⟨kind, p, s.stop⟩ :: place s.stop ts := by
  have hcovers := l.grammar.namedMatcher_lossless input kind p s hp hs
  have hlabel := l.grammar.namedMatcher_label hp hs
  rw [outermost_tokenMatch (mem_kindNames_of_picks hpick) hlabel, List.singleton_append, place]
  simp only [hlabel, ← hcovers.stop_eq hp]
  rw [hcovers.values_eq_extract hp]
  rfl

theorem Ends.stop_le {kind : String} {q : Nat} (h : l.Ends input kind p q)
    (hp : p ≤ input.size) : q ≤ input.size := by
  obtain ⟨tree, htree⟩ := h
  exact (l.grammar.namedMatcher_lossless input kind p _ hp htree).stop_le

theorem segmentation_of_rounds {run : Run Char} (h : Matcher.Rounds (l.cut input) p run)
    (hp : p ≤ input.size) (hend : input.size ≤ run.stop) :
    ∃ segments, l.Segmentation input p segments ∧
      (∀ s ∈ segments, l.cut input s.start ≠ .endless) ∧
      place p (run.trees.flatMap (·.outermost l.isKind)) =
        segments.map (Segment.token input) := by
  induction h with
  | nil p =>
      obtain rfl : p = input.size := Nat.le_antisymm hp hend
      exact ⟨[], .nil, by simp, rfl⟩
  | @cons p _ _ run head advances tail ih =>
      obtain ⟨kind, s, hpick, hs, hmatch⟩ := cut_eq_done hp head
      cases hmatch
      obtain ⟨hle, hstop⟩ := (l.cut_lossless input).bounded _ _ hp head
      obtain ⟨segments, hsegments, hends, hplace⟩ := ih hstop hend
      refine ⟨⟨kind, p, s.stop⟩ :: segments, ?_, ?_, ?_⟩
      · exact .cons hpick ⟨s.tree, hs⟩ (Nat.lt_of_le_of_ne hle advances.symm) hsegments
      · intro segment hsegment
        rcases List.mem_cons.mp hsegment with rfl | hsegment
        · simp [head]
        · exact hends segment hsegment
      · rw [Run.cons, List.flatMap_cons, List.map_cons, ← hplace]
        exact place_tokenMatch hp hpick hs _

theorem Segmentation.rounds {segments : List Segment} (h : l.Segmentation input p segments)
    (hp : p ≤ input.size) (hends : ∀ s ∈ segments, l.cut input s.start ≠ .endless) :
    ∃ run, Matcher.Rounds (l.cut input) p run ∧ input.size ≤ run.stop ∧
      place p (run.trees.flatMap (·.outermost l.isKind)) =
        segments.map (Segment.token input) := by
  induction h with
  | nil => exact ⟨⟨[], input.size⟩, .nil _, Nat.le_refl _, rfl⟩
  | cons pick ends advances tail ih =>
      obtain ⟨tree, htree⟩ := ends
      have hcut := cut_of_picks hp pick htree (hends _ List.mem_cons_self)
      obtain ⟨run, hrun, hend, hplace⟩ := ih (Ends.stop_le ⟨tree, htree⟩ hp)
        fun s hs => hends s (List.mem_cons_of_mem _ hs)
      refine ⟨run.cons _, .cons hcut (Nat.ne_of_gt advances) hrun, hend, ?_⟩
      rw [Run.cons, List.flatMap_cons, List.map_cons, ← hplace]
      exact place_tokenMatch hp pick htree _

theorem matchStart_eq (l : Lexer) (input : Array Char) :
    l.grammar.matchStart input =
      Matcher.labelled rootName (Matcher.untilEnd input (l.cut input)) 0 := by
  have hrule : l.grammar.rule? rootName = some (.untilEnd (.ref tokenName)) := by
    simp [Grammar.rule?, grammar]
  exact Grammar.namedMatcher_of_rule hrule (Nat.zero_le _)

theorem outermost_root (l : Lexer) (ts : List (ParseTree Char)) :
    ((ParseTree.branch ts).labelled rootName).outermost l.isKind =
      ts.flatMap (·.outermost l.isKind) := by
  have hroot : rootName ∉ l.kindNames := fun h =>
    (List.nodup_cons.mp l.distinct).1 (List.mem_cons_of_mem _ h)
  rw [ParseTree.outermost_eq]
  simp [isKind, ParseTree.isLabelledAny, ParseTree.labelled, ParseTree.branch, hroot]

/-- All tokens of a text are those of a segmentation at whose positions no attempt is
without end. -/
theorem allTokens_eq_done_iff {text : String} {ts : List Token} :
    l.allTokens text = .done ts ↔
      ∃ segments, l.Segmentation text.toList.toArray 0 segments ∧
        (∀ s ∈ segments, l.cut text.toList.toArray s.start ≠ .endless) ∧
        ts = segments.map (Segment.token text.toList.toArray) := by
  unfold allTokens
  rw [matchStart_eq, Outcome.map_eq_done_iff]
  constructor
  · rintro ⟨r, hr, rfl⟩
    obtain ⟨s, hs, rfl⟩ := Matcher.labelled_eq_done_iff.mp hr
    obtain ⟨run, hrun, hend, rfl⟩ := Matcher.untilEnd_eq_done hs
    obtain ⟨segments, hsegments, hends, hplace⟩ :=
      segmentation_of_rounds hrun (Nat.zero_le _) hend
    refine ⟨segments, hsegments, hends, ?_⟩
    rw [← hplace, ← outermost_root]
    rfl
  · rintro ⟨segments, hsegments, hends, rfl⟩
    obtain ⟨run, hrun, hend, hplace⟩ := hsegments.rounds (Nat.zero_le _) hends
    have hdone := Matcher.untilEnd_eq (l.cut_lossless _).bounded (Nat.zero_le _) hrun hend
    refine ⟨_, Matcher.labelled_eq_done_iff.mpr ⟨_, hdone, rfl⟩, ?_⟩
    rw [← hplace, ← outermost_root]
    rfl

/-- Where tokens come to an end, so does every attempt that a segmentation goes through. -/
theorem Segmentation.ends_of_repeatedToEnd {segments : List Segment}
    (h : l.Segmentation input p segments) (hp : p ≤ input.size) {start rounds : Nat}
    (hends : Matcher.repeatedToEnd input (l.cut input) start rounds p ≠ .endless) :
    ∀ s ∈ segments, l.cut input s.start ≠ .endless := by
  induction h generalizing rounds with
  | nil => simp
  | @cons kind p q segments pick ends advances tail ih =>
      obtain ⟨tree, htree⟩ := ends
      have hstop := Ends.stop_le ⟨tree, htree⟩ hp
      cases rounds with
      | zero => exact absurd rfl hends
      | succ rounds =>
          unfold Matcher.repeatedToEnd at hends
          rw [if_neg (by omega)] at hends
          have hcut : l.cut input p ≠ .endless := by
            intro h
            simp [h] at hends
          have hdone := cut_of_picks hp pick htree hcut
          simp only [hdone, tokenMatch, Nat.ne_of_gt advances, if_false, ne_eq,
            Outcome.map_eq_endless_iff] at hends
          intro s hs
          rcases List.mem_cons.mp hs with rfl | hs
          · exact hcut
          · exact ih hstop hends s hs

theorem Segmentation.bounds {segments : List Segment} (h : l.Segmentation input p segments)
    (hp : p ≤ input.size) :
    ∀ s ∈ segments, p ≤ s.start ∧ s.start < s.stop ∧ s.stop ≤ input.size := by
  induction h with
  | nil => simp
  | cons pick ends advances tail ih =>
      have hstop := ends.stop_le hp
      intro s hs
      rcases List.mem_cons.mp hs with rfl | hs
      · exact ⟨Nat.le_refl _, advances, hstop⟩
      · have hlater := ih hstop s hs
        exact ⟨by omega, hlater.2⟩

theorem Segmentation.apart {segments : List Segment} (h : l.Segmentation input p segments)
    (hp : p ≤ input.size) : segments.Pairwise fun s t => s.stop ≤ t.start := by
  induction h with
  | nil => exact .nil
  | cons pick ends advances tail ih =>
      have hstop := ends.stop_le hp
      exact .cons (fun t ht => (tail.bounds hstop t ht).1) (ih hstop)

/-- No position is left out. -/
theorem Segmentation.covers {segments : List Segment} (h : l.Segmentation input p segments)
    {i : Nat} (hp : p ≤ i) (hi : i < input.size) :
    ∃ s ∈ segments, s.start ≤ i ∧ i < s.stop := by
  induction h with
  | nil => omega
  | @cons kind p q segments pick ends advances tail ih =>
      by_cases hq : i < q
      · exact ⟨_, List.mem_cons_self, hp, hq⟩
      · obtain ⟨s, hs, hspan⟩ := ih (Nat.le_of_not_lt hq)
        exact ⟨s, List.mem_cons_of_mem _ hs, hspan⟩

theorem Segmentation.flatMap_extract {segments : List Segment}
    (h : l.Segmentation input p segments) (hp : p ≤ input.size) :
    (segments.flatMap fun s => (input.extract s.start s.stop).toList) =
      input.toList.drop p := by
  induction h with
  | nil => simp
  | cons pick ends advances tail ih =>
      obtain ⟨tree, htree⟩ := ends
      have hcovers := l.grammar.namedMatcher_lossless input _ _ _ hp htree
      rw [List.flatMap_cons, ih hcovers.stop_le, hcovers.split, ← hcovers.values_eq_extract hp]

theorem Segment.length_token {s : Segment} (h : s.stop ≤ input.size) :
    (s.token input).value.length = s.stop - s.start := by
  simp [token]
  omega

theorem Segment.toList_token (s : Segment) :
    (s.token input).value.toList = (input.toList.drop s.start).take (s.stop - s.start) := by
  simp [token, List.extract_eq_take_drop]

/-- The character at a position belongs to a token. -/
def Spans (t : Token) (i : Nat) : Prop :=
  t.pos ≤ i ∧ i < t.pos + t.value.length

theorem Segment.spans_token {s : Segment} {i : Nat} (h : s.stop ≤ input.size)
    (hstart : s.start ≤ i) (hstop : i < s.stop) : Spans (s.token input) i := by
  have hlength := Segment.length_token h
  exact ⟨hstart, by rw [hlength]; simp only [token]; omega⟩

/-- Tokens that are stretches of a text, none of them empty, one behind the other. -/
structure LaidOut (text : String) (ts : List Token) : Prop where
  nonempty : ∀ t ∈ ts, t.value ≠ ""
  slice : ∀ t ∈ ts, t.value.toList = (text.toList.drop t.pos).take t.value.length
  apart : ts.Pairwise fun s t => s.pos + s.value.length ≤ t.pos

theorem LaidOut.filter {text : String} {ts : List Token} (h : LaidOut text ts)
    (keep : Token → Bool) : LaidOut text (ts.filter keep) where
  nonempty t ht := h.nonempty t (List.mem_of_mem_filter ht)
  slice t ht := h.slice t (List.mem_of_mem_filter ht)
  apart := h.apart.filter keep

theorem LaidOut.increasing {text : String} {ts : List Token} (h : LaidOut text ts) :
    ts.Pairwise fun s t => s.pos < t.pos := by
  refine h.apart.imp_of_mem ?_
  intro s t hs _ hle
  have hlength : s.value.length ≠ 0 := by
    rw [← String.length_toList, ne_eq, List.length_eq_zero_iff, String.toList_eq_nil_iff]
    exact h.nonempty s hs
  omega

theorem Segmentation.laidOut {text : String} {segments : List Segment}
    (h : l.Segmentation text.toList.toArray 0 segments) :
    LaidOut text (segments.map (Segment.token text.toList.toArray)) := by
  have hbounds := h.bounds (Nat.zero_le _)
  have hlength (s : Segment) (hs : s ∈ segments) :=
    Segment.length_token (hbounds s hs).2.2
  refine ⟨List.forall_mem_map.mpr ?_, List.forall_mem_map.mpr ?_, List.pairwise_map.mpr ?_⟩
  · intro s hs hempty
    have hzero : (s.token text.toList.toArray).value.length = 0 := by rw [hempty]; rfl
    have hbound := hbounds s hs
    rw [hlength s hs] at hzero
    omega
  · intro s hs
    rw [hlength s hs, Segment.toList_token]
    rfl
  · refine (h.apart (Nat.zero_le _)).imp_of_mem ?_
    intro s t hs ht hle
    have hbound := hbounds s hs
    rw [hlength s hs]
    simp only [Segment.token]
    omega

theorem Segmentation.flatMap_value {text : String} {segments : List Segment}
    (h : l.Segmentation text.toList.toArray 0 segments) :
    (segments.map (Segment.token text.toList.toArray)).flatMap (·.value.toList) =
      text.toList := by
  have hvalues := h.flatMap_extract (Nat.zero_le _)
  simpa [List.flatMap_map, Segment.token] using hvalues

theorem laidOut_of_allTokens {text : String} {ts : List Token}
    (h : l.allTokens text = .done ts) : LaidOut text ts := by
  obtain ⟨segments, hsegments, -, rfl⟩ := allTokens_eq_done_iff.mp h
  exact hsegments.laidOut

/-- Every character belongs to a token, if hidden ones are counted. -/
theorem exists_spans_of_allTokens {text : String} {ts : List Token}
    (h : l.allTokens text = .done ts) {i : Nat} (hi : i < text.length) :
    ∃ t ∈ ts, Spans t i := by
  obtain ⟨segments, hsegments, -, rfl⟩ := allTokens_eq_done_iff.mp h
  have hsize : i < text.toList.toArray.size := by rwa [List.size_toArray, String.length_toList]
  obtain ⟨s, hs, hstart, hstop⟩ := hsegments.covers (Nat.zero_le i) hsize
  have hbound := hsegments.bounds (Nat.zero_le _) s hs
  exact ⟨_, List.mem_map_of_mem hs, Segment.spans_token hbound.2.2 hstart hstop⟩

theorem Segmentation.kind_mem {segments : List Segment} (h : l.Segmentation input p segments) :
    ∀ s ∈ segments, s.kind ∈ l.kindNames := by
  induction h with
  | nil => simp
  | cons pick ends advances tail ih =>
      exact List.forall_mem_cons.mpr ⟨mem_kindNames_of_picks pick, ih⟩

theorem tokens_eq_done_iff {text : String} {ts : List Token} :
    l.tokens text = .done ts ↔
      ∃ segments, l.Segmentation text.toList.toArray 0 segments ∧
        (∀ s ∈ segments, l.cut text.toList.toArray s.start ≠ .endless) ∧
        ts = (segments.map (Segment.token text.toList.toArray)).filter
          fun t => !l.hidden t.kind := by
  unfold tokens
  rw [Outcome.map_eq_done_iff]
  constructor
  · rintro ⟨all, hall, rfl⟩
    obtain ⟨segments, hsegments, hends, rfl⟩ := allTokens_eq_done_iff.mp hall
    exact ⟨segments, hsegments, hends, rfl⟩
  · rintro ⟨segments, hsegments, hends, rfl⟩
    exact ⟨_, allTokens_eq_done_iff.mpr ⟨segments, hsegments, hends, rfl⟩, rfl⟩

/-- Every token has one of the kinds of the lexer. -/
theorem kind_mem_of_tokens {text : String} {ts : List Token} (h : l.tokens text = .done ts) :
    ∀ t ∈ ts, t.kind ∈ l.kindNames := by
  obtain ⟨segments, hsegments, -, rfl⟩ := tokens_eq_done_iff.mp h
  intro t ht
  obtain ⟨s, hs, rfl⟩ := List.mem_map.mp (List.mem_of_mem_filter ht)
  exact hsegments.kind_mem s hs

/-- The tokens of a lexer without hidden kinds make up the text. -/
theorem flatMap_value_of_tokens (hvisible : ∀ kind ∈ l.kindNames, l.hidden kind = false)
    {text : String} {ts : List Token} (h : l.tokens text = .done ts) :
    ts.flatMap (·.value.toList) = text.toList := by
  obtain ⟨segments, hsegments, -, rfl⟩ := tokens_eq_done_iff.mp h
  rw [List.filter_eq_self.mpr]
  · exact hsegments.flatMap_value
  · refine List.forall_mem_map.mpr ?_
    intro s hs
    simp [Segment.token, hvisible s.kind (hsegments.kind_mem s hs)]

/-- Tokenizing computes the segmentation of a text. Wherever it comes to an end at all,
its tokens are the segments of visible kinds: stretches of the text, none empty, that do
not overlap, and that make up the text if no kind is hidden. Which kinds are hidden has
no influence on anything but which tokens are left out. -/
theorem tokens_segmentation (l : Lexer) (text : String) (hends : l.tokens text ≠ .endless) :
    (∀ ts, l.tokens text = .done ts ↔
      ∃ segments, l.Segmentation text.toList.toArray 0 segments ∧
        ts = (segments.map (Segment.token text.toList.toArray)).filter
          fun t => !l.hidden t.kind) ∧
    (∀ ts, l.tokens text = .done ts →
      LaidOut text ts ∧
        ((∀ kind ∈ l.kindNames, l.hidden kind = false) →
          ts.flatMap (·.value.toList) = text.toList)) ∧
    ∀ hidden, { l with hidden := hidden }.tokens text =
      (l.allTokens text).map (·.filter fun t => !hidden t.kind) := by
  refine ⟨?_, ?_, fun _ => rfl⟩
  · intro ts
    rw [tokens_eq_done_iff]
    constructor
    · rintro ⟨segments, hsegments, -, hts⟩
      exact ⟨segments, hsegments, hts⟩
    · rintro ⟨segments, hsegments, hts⟩
      have hrounds : Matcher.repeatedToEnd text.toList.toArray (l.cut text.toList.toArray) 0
          (Matcher.roundsFrom text.toList.toArray 0) 0 ≠ .endless := by
        intro h
        apply hends
        unfold tokens allTokens
        rw [matchStart_eq]
        simp [Matcher.labelled, Matcher.untilEnd, h, Outcome.map, Outcome.mapFailure]
      exact ⟨segments, hsegments, hsegments.ends_of_repeatedToEnd (Nat.zero_le _) hrounds, hts⟩
  · intro ts hts
    refine ⟨?_, fun hvisible => flatMap_value_of_tokens hvisible hts⟩
    obtain ⟨segments, hsegments, -, rfl⟩ := tokens_eq_done_iff.mp hts
    exact hsegments.laidOut.filter _

/-- A lexer with a kind that refers to tokens of any kind, itself included. -/
private def nestingLexer : Lexer where
  kinds :=
    [("_blank", .plus (.literal ' ')),
     ("pair", .seq [.literal '(', .ref tokenName, .literal ')']),
     ("a", .plus (.literal 'a'))]
  dispatch := .unambiguous
  hidden := hiddenByName
  distinct := by decide

/-- The tokens inside a token do not come up, and the blank is left out. -/
theorem tokens_segmentation_nested :
    nestingLexer.tokens "((aa)) a" ≠ .endless ∧
      LaidOut "((aa)) a" [⟨"pair", "((aa))", 0⟩, ⟨"a", "a", 7⟩] := by
  have htokens : nestingLexer.tokens "((aa)) a" =
      .done [⟨"pair", "((aa))", 0⟩, ⟨"a", "a", 7⟩] := by
    rfl
  have hends : nestingLexer.tokens "((aa)) a" ≠ .endless := by simp [htokens]
  exact ⟨hends, ((nestingLexer.tokens_segmentation "((aa)) a" hends).2.1 _ htokens).1⟩

end Peg.Lexer
