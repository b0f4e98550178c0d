import Peg.Proofs.Matching.LeftRecursion

/-!
How the repetitions agree with one another. A repetition up to the end of the input is one
of any length that gets there. One repetition or more is the rule and then any number of
repetitions, and any number is one or more, or else none. All of them are greedy: where they
end, the rule fails or matches nothing. What is repeated may match nothing, and it may
depend on where the input ends.
-/

namespace Peg

/-- What a match takes, whatever its tree: the items, and the position behind them. -/
def Match.taken {α : Type} (r : Match α) : List α × Nat :=
  (r.tree.values, r.stop)

namespace Matcher

variable {α : Type} {input : Array α} {m : Matcher α} {p : Nat} {r : Match α}

theorem GivesUp.run_eq (h : GivesUp m p) {run : Run α} (hrounds : Rounds m p run) :
    run = ⟨[], p⟩ := by
  cases hrounds with
  | nil => rfl
  | cons head advances tail =>
      rcases h with ⟨f, hf⟩ | ⟨tree, htree⟩
      · cases hf.symm.trans head
      · cases htree.symm.trans head
        exact absurd rfl advances

theorem GivesUp.zeroOrMore_eq (h : GivesUp m p) (hb : Bounded input m) (hp : p ≤ input.size) :
    zeroOrMore input m p = .done ⟨.branch [], p⟩ :=
  Matcher.zeroOrMore_eq hb hp (.nil p) h

/-- The first of one or more repetitions may still match nothing. -/
theorem GivesUp.oneOrMore_stop (h : GivesUp m p) (hr : oneOrMore input m p = .done r) :
    r.stop = p := by
  obtain ⟨tree, stop, run, hfirst, hrounds, -, rfl⟩ := oneOrMore_eq_done hr
  have hstop : stop = p := by
    rcases h with ⟨f, hf⟩ | ⟨t, ht⟩
    · cases hf.symm.trans hfirst
    · cases ht.symm.trans hfirst
      rfl
  subst hstop
  rw [h.run_eq hrounds]
  rfl

theorem zeroOrMore_givesUp (h : zeroOrMore input m p = .done r) : GivesUp m r.stop := by
  obtain ⟨run, -, hend, rfl⟩ := zeroOrMore_eq_done h
  exact hend

theorem oneOrMore_givesUp (h : oneOrMore input m p = .done r) : GivesUp m r.stop := by
  obtain ⟨tree, stop, run, -, -, hend, rfl⟩ := oneOrMore_eq_done h
  exact hend

/-- At the end of the input there is nothing left to consume. -/
theorem givesUp_at_end (hb : Bounded input m) (hends : m input.size ≠ .endless) :
    GivesUp m input.size := by
  rcases Outcome.ne_endless_iff.mp hends with ⟨⟨tree, stop⟩, hdone⟩ | hfailed
  · obtain ⟨hle, hstop⟩ := hb _ _ (Nat.le_refl _) hdone
    obtain rfl : stop = input.size := Nat.le_antisymm hstop hle
    exact .inr ⟨tree, hdone⟩
  · exact .inl hfailed

theorem untilEnd_eq_done_iff (hb : Bounded input m) (hends : m input.size ≠ .endless)
    (hp : p ≤ input.size) :
    untilEnd input m p = .done r ↔ zeroOrMore input m p = .done r ∧ r.stop = input.size := by
  constructor
  · intro h
    obtain ⟨run, hrounds, hend, rfl⟩ := untilEnd_eq_done h
    have hstop : run.stop = input.size := Nat.le_antisymm (hrounds.length_le hb hp).2 hend
    have hgives : GivesUp m run.stop := hstop ▸ givesUp_at_end hb hends
    exact ⟨zeroOrMore_eq hb hp hrounds hgives, hstop⟩
  · rintro ⟨h, hstop⟩
    obtain ⟨run, hrounds, -, rfl⟩ := zeroOrMore_eq_done h
    exact untilEnd_eq hb hp hrounds hstop.ge

/-- The two differ in their trees only: also what they fail with is the same. -/
theorem oneOrMore_taken (input : Array α) (m : Matcher α) (p : Nat) :
    (oneOrMore input m p).map Match.taken =
      (sequence [m, zeroOrMore input m] p).map Match.taken := by
  unfold oneOrMore sequence
  cases hfirst : m p with
  | failed f => simp [runAll, hfirst, Outcome.map]
  | endless => simp [runAll, hfirst, Outcome.map]
  | done s =>
      cases hrest : repeated m (roundsFrom input s.stop) s.stop with
      | failed f => exact absurd hrest repeated_ne_failed
      | endless => simp [runAll, hfirst, zeroOrMore, hrest, Outcome.map]
      | done run =>
          simp [runAll, hfirst, zeroOrMore, hrest, Outcome.map, Match.taken, Run.asMatch,
            Run.cons]

/-- What a repetition drops has no items. -/
theorem zeroOrMore_taken (hm : Lossless input m) (hp : p ≤ input.size)
    (h : zeroOrMore input m p = .done r) :
    ∃ s, optional (oneOrMore input m) p = .done s ∧ s.taken = r.taken := by
  obtain ⟨run, hrounds, hend, rfl⟩ := zeroOrMore_eq_done h
  cases hrounds with
  | cons head advances tail =>
      have hmore := oneOrMore_eq hm.bounded hp head tail hend
      exact ⟨_, optional_eq_done_iff.mpr (.inl ⟨_, hmore, rfl⟩), by
        simp [Match.taken, wrap, Run.asMatch]⟩
  | nil =>
      rcases hend with ⟨f, hf⟩ | ⟨tree, htree⟩
      · have hfailed : ∃ f, oneOrMore input m p = .failed f :=
          ⟨_, oneOrMore_eq_failed_iff.mpr ⟨f, hf, rfl⟩⟩
        exact ⟨_, optional_eq_done_iff.mpr (.inr ⟨hfailed, rfl⟩), rfl⟩
      · have hmore := oneOrMore_eq hm.bounded hp htree (.nil p) (.inr ⟨tree, htree⟩)
        have hvalues := (hm p _ hp htree).values_eq_extract hp
        refine ⟨_, optional_eq_done_iff.mpr (.inl ⟨_, hmore, rfl⟩), ?_⟩
        simp [Match.taken, wrap, Run.asMatch, Run.cons, hvalues]

end Matcher

namespace Grammar

variable {α κ : Type} [Key κ] [Item α κ]

/-- What a rule takes at a cursor, whatever tree it makes of it: the items, and the cursor
behind them. -/
def taken (g : Grammar α κ) (r : Rule α κ) (c : Cursor α) : Outcome (List α × Cursor α) :=
  (g.applyRule r c).map fun s => (s.1.values, s.2)

variable {g : Grammar α κ} {r : Rule α κ} {c : Cursor α}

theorem taken_eq (g : Grammar α κ) (r : Rule α κ) (c : Cursor α) :
    g.taken r c =
      ((g.ruleMatcher c.input r c.pos).map Match.taken).map fun s => (s.1, c.moveTo s.2) := by
  unfold taken applyRule
  cases g.ruleMatcher c.input r c.pos <;> rfl

theorem taken_eq_done {t : Match α} (h : g.ruleMatcher c.input r c.pos = .done t) :
    g.taken r c = .done (t.tree.values, c.moveTo t.stop) := by
  rw [taken_eq, h]
  rfl

/-- A repetition up to the end of the input is one of any length that gets there. -/
theorem applyRule_untilEnd_iff (hg : g.WithoutLeftRecursion) (hc : c.pos ≤ c.input.size)
    {tree : ParseTree α} {next : Cursor α} :
    g.applyRule (.untilEnd r) c = .done (tree, next) ↔
      g.applyRule (.star r) c = .done (tree, next) ∧ next.pos = c.input.size := by
  have hlaw (q : Nat) := Matcher.untilEnd_eq_done_iff (r := ⟨tree, q⟩)
    (g.ruleMatcher_bounded c.input r) (hg.ruleMatcher_ne_endless r (Nat.le_refl _)) hc
  simp only [applyRule_eq_done_iff, ruleMatcher_untilEnd, ruleMatcher_star, hlaw]
  constructor
  · rintro ⟨q, ⟨hq, hend⟩, rfl⟩
    exact ⟨⟨q, hq, rfl⟩, hend⟩
  · rintro ⟨⟨q, hq, rfl⟩, hend⟩
    exact ⟨q, ⟨hq, hend⟩, rfl⟩

theorem taken_plus (g : Grammar α κ) (r : Rule α κ) (c : Cursor α) :
    g.taken (.plus r) c = g.taken (.seq [r, .star r]) c := by
  rw [taken_eq, taken_eq, ruleMatcher_plus, ruleMatcher_seq, List.map_cons, List.map_singleton,
    ruleMatcher_star, Matcher.oneOrMore_taken]

theorem taken_star (hg : g.WithoutLeftRecursion) (r : Rule α κ) (hc : c.pos ≤ c.input.size) :
    ∃ items next, g.taken (.star r) c = .done (items, next) ∧
      g.taken (.opt (.plus r)) c = .done (items, next) := by
  have hends := hg.ruleMatcher_ne_endless (.star r) hc
  rw [ruleMatcher_star] at hends
  rcases Outcome.ne_endless_iff.mp hends with ⟨t, ht⟩ | ⟨f, hf⟩
  · obtain ⟨s, hs, htaken⟩ := Matcher.zeroOrMore_taken (g.ruleMatcher_lossless c.input r) hc ht
    obtain ⟨hvalues, hstop⟩ := Prod.mk.inj htaken
    refine ⟨t.tree.values, c.moveTo t.stop, ?_, ?_⟩
    · refine taken_eq_done ?_
      rw [ruleMatcher_star]
      exact ht
    · rw [← hvalues, ← hstop]
      refine taken_eq_done ?_
      rw [ruleMatcher_opt, ruleMatcher_plus]
      exact hs
  · exact absurd hf Matcher.zeroOrMore_ne_failed

/-- Where a repetition ends, nothing is left of what it repeats. -/
theorem star_greedy (hc : c.pos ≤ c.input.size) {tree : ParseTree α} {next : Cursor α}
    (h : g.applyRule (.star r) c = .done (tree, next)) :
    ((∃ f, g.applyRule r next = .failed f) ∨ ∃ t, g.applyRule r next = .done (t, next)) ∧
      g.applyRule (.star r) next = .done (.branch [], next) := by
  obtain ⟨q, hq, rfl⟩ := applyRule_eq_done_iff.mp h
  have hle : q ≤ c.input.size := (g.ruleMatcher_bounded c.input (.star r) c.pos _ hc hq).2
  rw [ruleMatcher_star] at hq
  have hgives : Matcher.GivesUp (g.ruleMatcher c.input r) q := Matcher.zeroOrMore_givesUp hq
  constructor
  · rcases hgives with ⟨f, hf⟩ | ⟨t, ht⟩
    · exact .inl ⟨f, applyRule_eq_failed_iff.mpr hf⟩
    · exact .inr ⟨t, applyRule_eq_done_iff.mpr ⟨q, ht, rfl⟩⟩
  · refine applyRule_eq_done_iff.mpr ⟨q, ?_, rfl⟩
    rw [ruleMatcher_star]
    exact hgives.zeroOrMore_eq (g.ruleMatcher_bounded c.input r) hle

/-- The repetitions of a rule agree: the one up to the end of the input is the one of any
length, if this gets there; one or more are one and then any number; and any number are one
or more, or none. Where a repetition of any length ends, the rule fails or matches nothing,
so that repeating it once more consumes nothing. -/
theorem repetitions_agree (g : Grammar α κ) (hg : g.WithoutLeftRecursion) (r : Rule α κ)
    (c : Cursor α) (hc : c.pos ≤ c.input.size) :
    (∀ tree next, g.applyRule (.untilEnd r) c = .done (tree, next) ↔
      g.applyRule (.star r) c = .done (tree, next) ∧ next.pos = c.input.size) ∧
    (g.taken (.plus r) c = g.taken (.seq [r, .star r]) c ∧
      ∃ items next, g.taken (.star r) c = .done (items, next) ∧
        g.taken (.opt (.plus r)) c = .done (items, next)) ∧
    ∀ tree next, g.applyRule (.star r) c = .done (tree, next) →
      ((∃ f, g.applyRule r next = .failed f) ∨ ∃ t, g.applyRule r next = .done (t, next)) ∧
        g.applyRule (.star r) next = .done (.branch [], next) := by
  refine ⟨?_, ⟨g.taken_plus r c, taken_star hg r hc⟩, ?_⟩
  · intro tree next
    exact applyRule_untilEnd_iff hg hc
  · intro tree next h
    exact star_greedy hc h

private def letterPairs : Grammar Char Char where
  start := "pair"
  rules := [("pair", .seq [.literal 'a', .literal 'b'])]
  distinct := by decide
  start_declared := by decide

/-- The body may match nothing, and what is left of the input keeps the repetition from
the end. -/
theorem repetitions_agree_nullable :
    let c : Cursor Char := ⟨#['a', 'b', 'a', 'b', 'x'], 0⟩
    let body : Rule Char Char := .opt (.ref "pair")
    letterPairs.WithoutLeftRecursion ∧ c.pos ≤ c.input.size ∧
      (∀ result, letterPairs.applyRule (.untilEnd body) c ≠ .done result) ∧
        letterPairs.taken (.seq [body, .star body]) c = .done (['a', 'b', 'a', 'b'], c.moveTo 4) ∧
          letterPairs.applyRule (.star body) (c.moveTo 4) = .done (.branch [], c.moveTo 4) := by
  intro c body
  have hg : letterPairs.WithoutLeftRecursion := withoutLeftRecursion_of_sorted (by decide)
  have hc : c.pos ≤ c.input.size := Nat.zero_le _
  obtain ⟨hend, ⟨hmore, -⟩, hgreedy⟩ := repetitions_agree letterPairs hg body c hc
  have hplus : letterPairs.taken (.plus body) c = .done (['a', 'b', 'a', 'b'], c.moveTo 4) :=
    rfl
  obtain ⟨tree, hstar⟩ : ∃ tree,
      letterPairs.applyRule (.star body) c = .done (tree, c.moveTo 4) := ⟨_, rfl⟩
  refine ⟨hg, hc, ?_, hmore ▸ hplus, (hgreedy tree _ hstar).2⟩
  rintro ⟨other, next⟩ h
  obtain ⟨hother, hnext⟩ := (hend other next).mp h
  rw [hstar] at hother
  cases hother
  exact absurd hnext (by decide)

end Grammar

end Peg
