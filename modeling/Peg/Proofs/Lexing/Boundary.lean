import Mathlib.Logic.Relation
import Peg.Failure.Furthest
import Peg.Proofs.Lexing.Segmentation

/-!
Where a text cannot be cut any further. The tokens of a text lead from its beginning to one
position at which they come to a halt: nothing that is dispatched there goes on. If that is
not the end of the text, a failure tells the position, and what each kind makes of it.
-/

namespace Peg.Lexer

section Definitions

variable (l : Lexer) (input : Array Char)

/-- What is dispatched at a position goes on to another. -/
def Step (p q : Nat) : Prop :=
  ∃ kind, l.Picks input kind p ∧ l.Ends input kind p q ∧ p < q

/-- The tokens from the beginning of the input lead to a position, and no further. -/
def Halts (p : Nat) : Prop :=
  Relation.ReflTransGen (l.Step input) 0 p ∧ ∀ q, ¬ l.Step input p q

/-- The kinds that match at a position, in the order of their declaration. -/
def matching (p : Nat) : List String :=
  l.kindNames.filter fun kind => (l.grammar.namedMatcher input kind p).value?.isSome

/-- The failure of a lexer that has one for a token of any kind below it. -/
def failureAt (p : Nat) (token : Failure) : Failure :=
  { cause := .nested
    name := some rootName
    children := [{ cause := .nested, pos := p, children := [token] }] }

/-- How a lexer fails at a position. -/
inductive FailsAt (p : Nat) : Failure → Prop
  /-- The dispatched kind matches nothing. -/
  | noProgress {kind : String} (pick : l.Picks input kind p) (ends : l.Ends input kind p p) :
      FailsAt p { cause := .noProgress, pos := p, name := some rootName }
  /-- Several kinds match where one of them has to be the only one. -/
  | ambiguous (dispatch : l.dispatch = .unambiguous) (several : 2 ≤ (l.matching input p).length) :
      FailsAt p (failureAt p
        { cause := .ambiguous (l.matching input p), pos := p, name := some tokenName })
  /-- Every kind fails. -/
  | noAlternative (failures : List Failure)
      (all : l.kindNames.map (fun kind => l.grammar.namedMatcher input kind p) =
        failures.map .failed) :
      FailsAt p (failureAt p
        { cause := .noAlternative
          pos := p
          name := some tokenName
          children := failures.map (.nested p) })

end Definitions

variable {l : Lexer} {input : Array Char} {kind kind' : String} {p q : Nat} {f : Failure}

theorem Ends.unique {q' : Nat} (h : l.Ends input kind p q) (h' : l.Ends input kind p q') :
    q = q' := by
  obtain ⟨tree, htree⟩ := h
  obtain ⟨tree', htree'⟩ := h'
  cases htree.symm.trans htree'
  rfl

theorem Picks.unique (h : l.Picks input kind p) (h' : l.Picks input kind' p) :
    kind = kind' := by
  unfold Picks at h h'
  cases hdispatch : l.dispatch with
  | firstMatch =>
      classical
      simp only [hdispatch] at h h'
      have hfirst {k : String} (hk : ∃ before after, l.kindNames = before ++ k :: after ∧
          (∃ q, l.Ends input k p q) ∧ ∀ k ∈ before, ¬ ∃ q, l.Ends input k p q) :
          l.kindNames.find? (fun k => decide (∃ q, l.Ends input k p q)) = some k := by
        obtain ⟨before, after, hnames, hends, hbefore⟩ := hk
        refine List.find?_eq_some_iff_append.mpr ⟨?_, before, after, hnames, ?_⟩
        · exact decide_eq_true hends
        · intro k hk
          simpa using hbefore k hk
      exact Option.some.inj ((hfirst h).symm.trans (hfirst h'))
  | unambiguous =>
      simp only [hdispatch] at h h'
      exact h'.2.2 kind h.1 h.2.1

theorem step_rightUnique (l : Lexer) (input : Array Char) :
    Relator.RightUnique (l.Step input) := by
  rintro p q q' ⟨kind, hpick, hends, -⟩ ⟨kind', hpick', hends', -⟩
  obtain rfl := hpick.unique hpick'
  exact hends.unique hends'

/-- Tokens come to a halt at one position only. -/
theorem Halts.unique (h : l.Halts input p) (h' : l.Halts input q) : p = q := by
  obtain ⟨hreaches, hlast⟩ := h
  obtain ⟨hreaches', hlast'⟩ := h'
  rcases hreaches.total_of_right_unique (l.step_rightUnique input) hreaches' with hon | hon
  · rcases hon.cases_head with heq | ⟨q', hstep, -⟩
    · exact heq
    · exact absurd hstep (hlast q')
  · rcases hon.cases_head with heq | ⟨q', hstep, -⟩
    · exact heq.symm
    · exact absurd hstep (hlast' q')

theorem reaches_of_rounds {run : Run Char} (h : Matcher.Rounds (l.cut input) p run)
    (hp : p ≤ input.size) :
    Relation.ReflTransGen (l.Step input) p run.stop ∧ run.stop ≤ input.size := by
  induction h with
  | nil p => exact ⟨.refl, hp⟩
  | @cons p _ _ run head advances tail ih =>
      obtain ⟨kind, s, hpick, hs, hmatch⟩ := cut_eq_done hp head
      cases hmatch
      obtain ⟨hle, hstop⟩ := (l.cut_lossless input).bounded _ _ hp head
      obtain ⟨hreaches, hend⟩ := ih hstop
      have hlt : p < s.stop := Nat.lt_of_le_of_ne hle advances.symm
      exact ⟨.head ⟨kind, hpick, ⟨s.tree, hs⟩, hlt⟩ hreaches, hend⟩

/-- Where an attempt at a token ends without a token, the tokens come to a halt. -/
theorem not_step_of_breaksOff {start : Nat} (h : Matcher.BreaksOff (l.cut input) start p f)
    (hp : p ≤ input.size) : ¬ l.Step input p q := by
  rintro ⟨kind, hpick, ⟨tree, hs⟩, hlt⟩
  rcases h with ⟨e, he, -⟩ | ⟨t, ht, -⟩
  · have hdone := cut_of_picks hp hpick hs (by simp [he])
    cases he.symm.trans hdone
  · have hdone := cut_of_picks hp hpick hs (by simp [ht])
    cases ht.symm.trans hdone
    exact absurd hlt (Nat.lt_irrefl _)

theorem names_eq_matching (l : Lexer) (input : Array Char) (p : Nat) :
    ((l.kindNames.map (l.kindAlternative input)).filter fun x => (x.2 p).value?.isSome).map
        (fun x => x.1.render) = l.matching input p := by
  have hkind (kind : String) : (l.kindMatcher input kind p).value?.isSome =
      (l.grammar.namedMatcher input kind p).value?.isSome := by
    unfold kindMatcher Matcher.within
    cases l.grammar.namedMatcher input kind p <;> rfl
  have hname : (fun x => x.1.render) ∘ l.kindAlternative input = id := by
    funext kind
    rfl
  rw [matching, List.filter_map, List.map_map, hname, List.map_id]
  exact List.filter_congr fun kind _ => hkind kind

theorem tokenRule_eq_failed (h : l.grammar.ruleMatcher input l.tokenRule p = .failed f) :
    (∃ failures : List Failure, l.kindNames.map (fun kind => l.grammar.namedMatcher input kind p) =
        failures.map .failed ∧ f = Matcher.noAlternative p (failures.map (.nested p))) ∨
      (l.dispatch = .unambiguous ∧ 2 ≤ (l.matching input p).length ∧
        f = { cause := .ambiguous (l.matching input p), pos := p }) := by
  rw [ruleMatcher_tokenRule] at h
  cases hdispatch : l.dispatch with
  | firstMatch =>
      simp only [hdispatch, Matcher.firstOf_eq_failed_iff, List.map_map] at h
      obtain ⟨fs, hfs, rfl⟩ := h
      obtain ⟨failures, hfailures, rfl⟩ := Matcher.within_eq_failures hfs
      exact .inl ⟨failures, hfailures, rfl⟩
  | unambiguous =>
      simp only [hdispatch] at h
      rcases Matcher.exactlyOne_eq_failed h with ⟨fs, hfs, rfl⟩ | ⟨names, hnames, hseveral, rfl⟩
      · rw [List.map_map] at hfs
        obtain ⟨failures, hfailures, rfl⟩ := Matcher.within_eq_failures hfs
        exact .inl ⟨failures, hfailures, rfl⟩
      · obtain rfl := hnames.trans (names_eq_matching l input p)
        exact .inr ⟨rfl, hseveral, rfl⟩

theorem failsAt_of_breaksOff (h : Matcher.BreaksOff (l.cut input) 0 p f) (hp : p ≤ input.size) :
    l.FailsAt input p (f.named rootName) := by
  rcases h with ⟨e, he, rfl⟩ | ⟨tree, htree, rfl⟩
  · rw [cut_eq hp, Matcher.within_eq_failed_iff] at he
    obtain ⟨token, htoken, rfl⟩ := he
    obtain ⟨e, he, rfl⟩ := Matcher.labelled_eq_failed_iff.mp htoken
    rcases tokenRule_eq_failed he with ⟨failures, hall, rfl⟩ | ⟨hdispatch, hseveral, rfl⟩
    · exact .noAlternative failures hall
    · exact .ambiguous hdispatch hseveral
  · obtain ⟨kind, s, hpick, hs, hmatch⟩ := cut_eq_done hp htree
    cases hmatch
    exact .noProgress hpick ⟨s.tree, hs⟩

/-- The failure tells of the position. -/
theorem FailsAt.le_furthest (h : l.FailsAt input p f) : p ≤ f.furthest.pos := by
  have hbelow (token : Failure) : p ≤ (failureAt p token).reach := by
    let cut : Failure := { cause := .nested, pos := p, children := [token] }
    calc
      p ≤ cut.reach := cut.pos_le_reach
      _ ≤ (failureAt p token).reach := Failure.reach_le_of_mem List.mem_cons_self
  cases h with
  | noProgress =>
      exact Failure.pos_le_reach { cause := .noProgress, pos := p, name := some rootName }
  | ambiguous => exact hbelow _
  | noAlternative => exact hbelow _

/-- Where the tokens of a text come to a halt before its end, the lexer fails just there: what
is dispatched matches nothing, or several kinds match and are named, or no kind matches and
each tells why. The furthest failure is not before that position. -/
theorem tokens_fail_at_boundary (l : Lexer) (text : String) (f : Failure)
    (h : l.tokens text = .failed f) :
    ∃ p, (∀ q, l.Halts text.toList.toArray q ↔ q = p) ∧ l.FailsAt text.toList.toArray p f ∧
      p < text.length ∧ p ≤ f.furthest.pos := by
  have hroot : l.grammar.matchStart text.toList.toArray = .failed f :=
    Outcome.map_eq_failed_iff.mp (Outcome.map_eq_failed_iff.mp h)
  rw [matchStart_eq] at hroot
  obtain ⟨e, he, rfl⟩ := Matcher.labelled_eq_failed_iff.mp hroot
  obtain ⟨run, hrounds, hbefore, hbreak⟩ := Matcher.untilEnd_eq_failed he
  obtain ⟨hreaches, hstop⟩ := reaches_of_rounds hrounds (Nat.zero_le _)
  have hhalts : l.Halts text.toList.toArray run.stop :=
    ⟨hreaches, fun q => not_step_of_breaksOff hbreak hstop⟩
  have hfails := failsAt_of_breaksOff hbreak hstop
  refine ⟨run.stop, fun q => ⟨fun hq => hq.unique hhalts, fun hq => hq ▸ hhalts⟩, hfails, ?_,
    hfails.le_furthest⟩
  simpa [String.length_toList] using hbefore

private def keywordLexer : Lexer where
  kinds :=
    [("keyword", Rule.word "if"), ("blank", .plus (.literal ' ')), ("word", .plus (.range 'a' 'z'))]
  dispatch := .unambiguous
  hidden := hiddenByName
  distinct := by decide

/-- Behind a word and a blank, a keyword is a word as well. -/
theorem tokens_fail_at_boundary_keyword :
    let input := "ab if".toList.toArray
    let f := failureAt 3
      { cause := .ambiguous ["keyword", "word"], pos := 3, name := some tokenName }
    keywordLexer.tokens "ab if" = .failed f ∧
      ∃ p, (∀ q, keywordLexer.Halts input q ↔ q = p) ∧ keywordLexer.FailsAt input p f ∧
        p < 5 ∧ p ≤ f.furthest.pos := by
  intro input f
  have hfailed : keywordLexer.tokens "ab if" = .failed f := rfl
  exact ⟨hfailed, keywordLexer.tokens_fail_at_boundary "ab if" f hfailed⟩

end Peg.Lexer
