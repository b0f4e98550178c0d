import Peg.Proofs.Lexing.Segmentation
import Peg.Proofs.Matching.Agreement

/-!
Where dispatch is unambiguous, the order of kinds has no influence. A lexer that insists
on a single kind at every place it comes to, and finds one, yields the tokens that any
other lexer of the same kinds yields, whichever kind that one tries first.
-/

namespace Peg.Lexer

variable {l l' : Lexer} {input : Array Char} {p : Nat}

/-- The names that kinds may have: those of the two added rules are taken. -/
def kindable : Set String :=
  {name | name ≠ rootName ∧ name ≠ tokenName}

theorem kindable_of_mem_kindNames {kind : String} (h : kind ∈ l.kindNames) :
    kind ∈ kindable := by
  obtain ⟨hroot, hrest⟩ := List.nodup_cons.mp l.distinct
  obtain ⟨htoken, -⟩ := List.nodup_cons.mp hrest
  constructor
  · rintro rfl
    exact hroot (List.mem_cons_of_mem _ h)
  · rintro rfl
    exact htoken h

theorem rule?_eq_some_iff_of_kindable {name : String} (hname : name ∈ kindable)
    {r : Rule Char Char} : l.grammar.rule? name = some r ↔ (name, r) ∈ l.kinds := by
  rw [Grammar.rule?_eq_some_iff, grammar, List.mem_cons, List.mem_cons, Prod.mk.injEq,
    Prod.mk.injEq]
  constructor
  · rintro (⟨hroot, -⟩ | ⟨htoken, -⟩ | hkind)
    · exact absurd hroot hname.1
    · exact absurd htoken hname.2
    · exact hkind
  · exact fun hkind => .inr (.inr hkind)

/-- Lexers of the same kinds have the same rules but for the two that they add. -/
theorem agreesOn_kindable (hperm : l'.kinds.Perm l.kinds)
    (hrefs : ∀ kind ∈ l.kinds, ∀ m ∈ kind.2.refs, m ∈ kindable) :
    l.grammar.AgreesOn l'.grammar kindable where
  same name hname := by
    ext r
    rw [rule?_eq_some_iff_of_kindable hname, rule?_eq_some_iff_of_kindable hname,
      hperm.mem_iff]
  closed name hname r hrule :=
    hrefs (name, r) ((rule?_eq_some_iff_of_kindable hname).mp hrule)

theorem mem_kindNames_iff_of_perm (hperm : l'.kinds.Perm l.kinds) {kind : String} :
    kind ∈ l'.kindNames ↔ kind ∈ l.kindNames :=
  (hperm.map Prod.fst).mem_iff

section Agreement

variable (hagree : l.grammar.AgreesOn l'.grammar kindable) (hperm : l'.kinds.Perm l.kinds)
include hagree

theorem ends_iff_of_agreesOn {kind : String} (hkind : kind ∈ l.kindNames)
    (hp : p ≤ input.size) {q : Nat} : l'.Ends input kind p q ↔ l.Ends input kind p q := by
  unfold Ends
  rw [hagree.namedMatcher_eq (kindable_of_mem_kindNames hkind) hp]

include hperm

/-- The only kind that succeeds is the first one that does, whatever stands before it. -/
theorem Picks.of_unambiguous (hdispatch : l.dispatch = .unambiguous) {kind : String}
    (hp : p ≤ input.size) (h : l.Picks input kind p) : l'.Picks input kind p := by
  have hends {k : String} (hk : k ∈ l.kindNames) {q : Nat} :
      l'.Ends input k p q ↔ l.Ends input k p q :=
    ends_iff_of_agreesOn hagree hk hp
  have hmem {k : String} : k ∈ l'.kindNames ↔ k ∈ l.kindNames :=
    mem_kindNames_iff_of_perm hperm
  unfold Picks at h ⊢
  simp only [hdispatch] at h
  obtain ⟨hkind, ⟨q, hq⟩, honly⟩ := h
  have hsucceeds : ∃ q, l'.Ends input kind p q := ⟨q, (hends hkind).mpr hq⟩
  have honly' : ∀ k ∈ l'.kindNames, (∃ q, l'.Ends input k p q) → k = kind := by
    rintro k hk ⟨s, hs⟩
    exact honly k (hmem.mp hk) ⟨s, (hends (hmem.mp hk)).mp hs⟩
  cases l'.dispatch with
  | unambiguous => exact ⟨hmem.mpr hkind, hsucceeds, honly'⟩
  | firstMatch =>
      obtain ⟨before, after, hnames⟩ := List.append_of_mem (hmem.mpr hkind)
      refine ⟨before, after, hnames, hsucceeds, ?_⟩
      intro k hk hend
      obtain rfl := honly' k (by simp [hnames, hk]) hend
      have hdistinct := l'.kindNames_nodup
      rw [hnames] at hdistinct
      exact (List.nodup_append.mp hdistinct).2.2 k hk k List.mem_cons_self rfl

/-- Whoever insists on a single kind has to try all of them. -/
theorem cut_ne_endless_of_unambiguous (hdispatch : l.dispatch = .unambiguous)
    (hp : p ≤ input.size) (h : l.cut input p ≠ .endless) : l'.cut input p ≠ .endless := by
  rw [cut_eq hp, ne_eq, Matcher.within_eq_endless_iff, Matcher.labelled_eq_endless_iff,
    ruleMatcher_tokenRule] at h
  simp only [hdispatch] at h
  have hall := Matcher.ne_endless_of_exactlyOne h
  refine cut_ne_endless hp ?_
  intro kind hkind
  have hkind : kind ∈ l.kindNames := (mem_kindNames_iff_of_perm hperm).mp hkind
  have hend := hall (l.kindAlternative input kind) (List.mem_map_of_mem hkind)
  rw [kindAlternative, kindMatcher, ne_eq, Matcher.within_eq_endless_iff] at hend
  rwa [← hagree.namedMatcher_eq (kindable_of_mem_kindNames hkind) hp]

/-- A segmentation goes through the same kinds at the same positions. -/
theorem Segmentation.of_unambiguous (hdispatch : l.dispatch = .unambiguous)
    {segments : List Segment} (h : l.Segmentation input p segments) (hp : p ≤ input.size)
    (hends : ∀ s ∈ segments, l.cut input s.start ≠ .endless) :
    l'.Segmentation input p segments ∧ ∀ s ∈ segments, l'.cut input s.start ≠ .endless := by
  induction h with
  | nil => exact ⟨.nil, by simp⟩
  | cons pick ends advances tail ih =>
      obtain ⟨hhead, htail⟩ := List.forall_mem_cons.mp hends
      obtain ⟨hsegments, hcuts⟩ := ih (ends.stop_le hp) htail
      have hpick := pick.of_unambiguous hagree hperm hdispatch hp
      have hend := (ends_iff_of_agreesOn hagree (mem_kindNames_of_picks pick) hp).mpr ends
      have hcut := cut_ne_endless_of_unambiguous hagree hperm hdispatch hp hhead
      exact ⟨.cons hpick hend advances hsegments, List.forall_mem_cons.mpr ⟨hcut, hcuts⟩⟩

end Agreement

theorem tokens_eq_of_perm (hdispatch : l.dispatch = .unambiguous)
    (hhidden : l'.hidden = l.hidden) (hperm : l'.kinds.Perm l.kinds)
    (hrefs : ∀ kind ∈ l.kinds, ∀ m ∈ kind.2.refs, m ∈ kindable) {text : String}
    {ts : List Token} (h : l.tokens text = .done ts) : l'.tokens text = .done ts := by
  obtain ⟨segments, hsegments, hends, rfl⟩ := tokens_eq_done_iff.mp h
  obtain ⟨hsegments', hends'⟩ := hsegments.of_unambiguous (agreesOn_kindable hperm hrefs)
    hperm hdispatch (Nat.zero_le _) hends
  exact tokens_eq_done_iff.mpr ⟨segments, hsegments', hends', by rw [hhidden]⟩

/-- If every place of a text has a single kind, then kinds may be declared in any order, and
the first that matches may be taken: the tokens are the same. Kinds may refer to one another
for this, but not to the two rules that lexers add. -/
theorem tokens_of_unambiguous (kinds kinds' : List (String × Rule Char Char))
    (hrefs : ∀ kind ∈ kinds, ∀ m ∈ kind.2.refs, m ≠ rootName ∧ m ≠ tokenName)
    (hperm : kinds'.Perm kinds) (hidden : String → Bool) (l : Lexer)
    (hl : ofKinds kinds .unambiguous hidden = .ok l) (text : String) (ts : List Token)
    (h : l.tokens text = .done ts) (dispatch : Dispatch) :
    ∃ l', ofKinds kinds' dispatch hidden = .ok l' ∧ l'.tokens text = .done ts := by
  obtain ⟨rfl, hdispatch, rfl⟩ := of_ofKinds hl
  have hdistinct : (rootName :: tokenName :: kinds'.map Prod.fst).Nodup :=
    (((hperm.map Prod.fst).cons tokenName).cons rootName).nodup_iff.mpr l.distinct
  let l' : Lexer := ⟨kinds', dispatch, l.hidden, hdistinct⟩
  have hhidden : l'.hidden = l.hidden := rfl
  exact ⟨l', ofKinds_eq_ok hdistinct dispatch l.hidden,
    tokens_eq_of_perm hdispatch hhidden hperm hrefs h⟩

private def wordKind : String × Rule Char Char :=
  ("word", .plus (.range 'a' 'z'))

/-- A call is a word in brackets, so that the first character of a token tells its kind. -/
private def callKind : String × Rule Char Char :=
  ("call", .seq [.literal '(', .ref "word", .literal ')'])

private def callsLexer : Lexer where
  kinds := [wordKind, callKind]
  dispatch := .unambiguous
  hidden := hiddenByName
  distinct := by decide

theorem tokens_of_unambiguous_swapped :
    (∀ kind ∈ [wordKind, callKind], ∀ m ∈ kind.2.refs, m ≠ rootName ∧ m ≠ tokenName) ∧
      [callKind, wordKind].Perm [wordKind, callKind] ∧
      (ofKinds [wordKind, callKind] .unambiguous = .ok callsLexer ∧
        callsLexer.tokens "f(ab)" = .done [⟨"word", "f", 0⟩, ⟨"call", "(ab)", 1⟩]) ∧
      ∃ l', ofKinds [callKind, wordKind] .firstMatch = .ok l' ∧
        l'.tokens "f(ab)" = .done [⟨"word", "f", 0⟩, ⟨"call", "(ab)", 1⟩] := by
  have hrefs : ∀ kind ∈ [wordKind, callKind], ∀ m ∈ kind.2.refs,
      m ≠ rootName ∧ m ≠ tokenName := by
    decide
  have hperm : [callKind, wordKind].Perm [wordKind, callKind] := .swap _ _ _
  have hlexer : ofKinds [wordKind, callKind] .unambiguous = .ok callsLexer :=
    ofKinds_eq_ok callsLexer.distinct .unambiguous hiddenByName
  have htokens : callsLexer.tokens "f(ab)" =
      .done [⟨"word", "f", 0⟩, ⟨"call", "(ab)", 1⟩] := rfl
  exact ⟨hrefs, hperm, ⟨hlexer, htokens⟩,
    tokens_of_unambiguous _ _ hrefs hperm hiddenByName _ hlexer _ _ htokens .firstMatch⟩

end Peg.Lexer
