import Peg.Proofs.Matching.Combinators

/-!
What repetitions do. Every round but the last one tried consumes something, so that
the rounds which a repetition may take are enough; where it ends, its matcher fails or
matches nothing, or the input has ended.
-/

namespace Peg.Matcher

variable {α : Type} {input : Array α} {m : Matcher α}

/-- A matcher whose matches lie within the input and never go back. -/
def Bounded (input : Array α) (m : Matcher α) : Prop :=
  ∀ p r, p ≤ input.size → m p = .done r → p ≤ r.stop ∧ r.stop ≤ input.size

/-- Matches one behind the other, each of which consumes something. -/
inductive Rounds (m : Matcher α) : Nat → Run α → Prop
  | nil (p : Nat) : Rounds m p ⟨[], p⟩
  | cons {p stop : Nat} {tree : ParseTree α} {run : Run α} (head : m p = .done ⟨tree, stop⟩)
      (advances : stop ≠ p) (tail : Rounds m stop run) : Rounds m p (run.cons tree)

/-- There is no further round where a matcher fails or matches nothing. -/
def GivesUp (m : Matcher α) (p : Nat) : Prop :=
  (∃ f, m p = .failed f) ∨ ∃ tree, m p = .done ⟨tree, p⟩

theorem Rounds.length_le (hm : Bounded input m) {p : Nat} {run : Run α}
    (h : Rounds m p run) (hp : p ≤ input.size) :
    p + run.trees.length ≤ run.stop ∧ run.stop ≤ input.size := by
  induction h with
  | nil p => exact ⟨Nat.le_refl _, hp⟩
  | cons head advances tail ih =>
      obtain ⟨hle, hstop⟩ := hm _ _ hp head
      have htail := ih hstop
      simp only [Run.cons, List.length_cons] at *
      omega

theorem repeated_eq_done {rounds p : Nat} {run : Run α}
    (h : repeated m rounds p = .done run) : Rounds m p run ∧ GivesUp m run.stop := by
  induction rounds generalizing p run with
  | zero => cases h
  | succ rounds ih =>
      unfold repeated at h
      cases hm : m p with
      | done r =>
          obtain ⟨tree, stop⟩ := r
          by_cases hstop : stop = p
          · subst hstop
            simp only [hm, if_true, Outcome.done.injEq] at h
            subst h
            exact ⟨.nil stop, .inr ⟨tree, hm⟩⟩
          · simp only [hm, hstop, if_false, Outcome.map_eq_done_iff] at h
            obtain ⟨rest, hrest, rfl⟩ := h
            obtain ⟨htail, hend⟩ := ih hrest
            exact ⟨.cons hm hstop htail, hend⟩
      | failed f =>
          simp only [hm, Outcome.done.injEq] at h
          subst h
          exact ⟨.nil p, .inl ⟨f, hm⟩⟩
      | endless => simp [hm] at h

theorem Rounds.repeated_eq {rounds p : Nat} {run : Run α} (h : Rounds m p run)
    (hend : GivesUp m run.stop) (hrounds : run.trees.length < rounds) :
    repeated m rounds p = .done run := by
  induction h generalizing rounds with
  | nil p =>
      obtain ⟨rounds, rfl⟩ := Nat.exists_eq_succ_of_ne_zero (Nat.ne_of_gt hrounds)
      rcases hend with ⟨f, hf⟩ | ⟨tree, htree⟩
      · simp [repeated, hf]
      · simp [repeated, htree]
  | cons head advances tail ih =>
      obtain ⟨rounds, rfl⟩ := Nat.exists_eq_succ_of_ne_zero (Nat.ne_of_gt (Nat.zero_lt_of_lt hrounds))
      have htail := ih hend (by simpa [Run.cons] using hrounds)
      simp [repeated, head, advances, htail, Outcome.map]

theorem repeated_eq_done_iff (hm : Bounded input m) {p : Nat} (hp : p ≤ input.size)
    {run : Run α} :
    repeated m (roundsFrom input p) p = .done run ↔ Rounds m p run ∧ GivesUp m run.stop := by
  constructor
  · exact repeated_eq_done
  · rintro ⟨hrounds, hend⟩
    have hlength := hrounds.length_le hm hp
    exact hrounds.repeated_eq hend (by unfold roundsFrom; omega)

/-- A repetition may run without end, but it never fails. -/
theorem repeated_ne_failed {rounds p : Nat} {f : Failure} :
    repeated m rounds p ≠ .failed f := by
  induction rounds generalizing p with
  | zero => simp [repeated]
  | succ rounds ih =>
      unfold repeated
      cases m p with
      | done r =>
          by_cases hstop : r.stop = p
          · simp [hstop]
          · simpa [hstop, Outcome.map_eq_failed_iff] using ih
      | failed f => simp
      | endless => simp

theorem zeroOrMore_eq_done {p : Nat} {r : Match α} (h : zeroOrMore input m p = .done r) :
    ∃ run, Rounds m p run ∧ GivesUp m run.stop ∧ run.asMatch = r := by
  obtain ⟨run, hrun, rfl⟩ := Outcome.map_eq_done_iff.mp h
  obtain ⟨hrounds, hend⟩ := repeated_eq_done hrun
  exact ⟨run, hrounds, hend, rfl⟩

theorem zeroOrMore_eq (hm : Bounded input m) {p : Nat} (hp : p ≤ input.size) {run : Run α}
    (hrounds : Rounds m p run) (hend : GivesUp m run.stop) :
    zeroOrMore input m p = .done run.asMatch := by
  have hrun := (repeated_eq_done_iff hm hp).mpr ⟨hrounds, hend⟩
  simp [zeroOrMore, hrun, Outcome.map]

theorem zeroOrMore_ne_failed {p : Nat} {f : Failure} : zeroOrMore input m p ≠ .failed f := by
  rw [zeroOrMore, ne_eq, Outcome.map_eq_failed_iff]
  exact repeated_ne_failed

theorem oneOrMore_eq_done {p : Nat} {r : Match α} (h : oneOrMore input m p = .done r) :
    ∃ tree stop run, m p = .done ⟨tree, stop⟩ ∧ Rounds m stop run ∧ GivesUp m run.stop ∧
      (run.cons tree).asMatch = r := by
  unfold oneOrMore at h
  cases hm : m p with
  | done s =>
      simp only [hm, Outcome.map_eq_done_iff] at h
      obtain ⟨run, hrun, rfl⟩ := h
      obtain ⟨hrounds, hend⟩ := repeated_eq_done hrun
      exact ⟨s.tree, s.stop, run, rfl, hrounds, hend, rfl⟩
  | failed f => simp [hm] at h
  | endless => simp [hm] at h

theorem oneOrMore_eq (hm : Bounded input m) {p stop : Nat} (hp : p ≤ input.size)
    {tree : ParseTree α} {run : Run α} (hfirst : m p = .done ⟨tree, stop⟩)
    (hrounds : Rounds m stop run) (hend : GivesUp m run.stop) :
    oneOrMore input m p = .done (run.cons tree).asMatch := by
  have hrun := (repeated_eq_done_iff hm (hm _ _ hp hfirst).2).mpr ⟨hrounds, hend⟩
  simp [oneOrMore, hfirst, hrun, Outcome.map]

/-- Only the first round can fail the whole. -/
theorem oneOrMore_eq_failed_iff {p : Nat} {f : Failure} :
    oneOrMore input m p = .failed f ↔ ∃ e, m p = .failed e ∧ f = .nested p e := by
  unfold oneOrMore
  cases hm : m p with
  | done s => simp [Outcome.map_eq_failed_iff, repeated_ne_failed]
  | failed e => simp [eq_comm (a := f)]
  | endless => simp

theorem repeatedToEnd_eq_done {start rounds p : Nat} {run : Run α}
    (h : repeatedToEnd input m start rounds p = .done run) :
    Rounds m p run ∧ input.size ≤ run.stop := by
  induction rounds generalizing p run with
  | zero => cases h
  | succ rounds ih =>
      unfold repeatedToEnd at h
      by_cases hp : input.size ≤ p
      · simp only [hp, if_true, Outcome.done.injEq] at h
        subst h
        exact ⟨.nil p, hp⟩
      · cases hm : m p with
        | done r =>
            obtain ⟨tree, stop⟩ := r
            by_cases hstop : stop = p
            · simp [hp, hm, hstop] at h
            · simp only [hp, hm, hstop, if_false, Outcome.map_eq_done_iff] at h
              obtain ⟨rest, hrest, rfl⟩ := h
              obtain ⟨htail, hend⟩ := ih hrest
              exact ⟨.cons hm hstop htail, hend⟩
        | failed f => simp [hp, hm] at h
        | endless => simp [hp, hm] at h

/-- What a repetition up to the end of the input fails with when its rounds stop at
`p`, before that end. -/
def BreaksOff (m : Matcher α) (start p : Nat) (f : Failure) : Prop :=
  (∃ e, m p = .failed e ∧ f = .nested start e) ∨
    ∃ tree, m p = .done ⟨tree, p⟩ ∧ f = { cause := .noProgress, pos := p }

theorem GivesUp.breaksOff {p : Nat} (h : GivesUp m p) (start : Nat) :
    ∃ f, BreaksOff m start p f := by
  rcases h with ⟨e, he⟩ | ⟨tree, htree⟩
  · exact ⟨_, .inl ⟨e, he, rfl⟩⟩
  · exact ⟨_, .inr ⟨tree, htree, rfl⟩⟩

theorem repeatedToEnd_eq_failed {start rounds p : Nat} {f : Failure}
    (h : repeatedToEnd input m start rounds p = .failed f) :
    ∃ run, Rounds m p run ∧ run.stop < input.size ∧ BreaksOff m start run.stop f := by
  induction rounds generalizing p with
  | zero => cases h
  | succ rounds ih =>
      unfold repeatedToEnd at h
      by_cases hp : input.size ≤ p
      · simp [hp] at h
      · cases hm : m p with
        | done r =>
            obtain ⟨tree, stop⟩ := r
            by_cases hstop : stop = p
            · subst hstop
              simp only [hp, hm, if_true, if_false, Outcome.failed.injEq] at h
              exact ⟨⟨[], stop⟩, .nil stop, Nat.lt_of_not_le hp, .inr ⟨tree, hm, h.symm⟩⟩
            · simp only [hp, hm, hstop, if_false, Outcome.map_eq_failed_iff] at h
              obtain ⟨run, hrun, hbefore, hbreak⟩ := ih h
              exact ⟨run.cons tree, .cons hm hstop hrun, hbefore, hbreak⟩
        | failed e =>
            simp only [hp, hm, if_false, Outcome.failed.injEq] at h
            exact ⟨⟨[], p⟩, .nil p, Nat.lt_of_not_le hp, .inl ⟨e, hm, h.symm⟩⟩
        | endless => simp [hp, hm] at h

theorem Rounds.repeatedToEnd_eq (hm : Bounded input m) {start rounds p : Nat} {run : Run α}
    (h : Rounds m p run) (hp : p ≤ input.size) (hend : input.size ≤ run.stop)
    (hrounds : run.trees.length < rounds) :
    repeatedToEnd input m start rounds p = .done run := by
  induction h generalizing rounds with
  | nil p =>
      obtain ⟨rounds, rfl⟩ := Nat.exists_eq_succ_of_ne_zero (Nat.ne_of_gt hrounds)
      simp [repeatedToEnd, hend]
  | cons head advances tail ih =>
      obtain ⟨rounds, rfl⟩ := Nat.exists_eq_succ_of_ne_zero (Nat.ne_of_gt (Nat.zero_lt_of_lt hrounds))
      obtain ⟨hle, hstop⟩ := hm _ _ hp head
      have htail := ih hstop hend (by simpa [Run.cons] using hrounds)
      have hinside : ¬ input.size ≤ _ := Nat.not_le.mpr
        (Nat.lt_of_lt_of_le (Nat.lt_of_le_of_ne hle advances.symm) hstop)
      simp [repeatedToEnd, hinside, head, advances, htail, Outcome.map]

theorem Rounds.repeatedToEnd_eq_failed (hm : Bounded input m) {start rounds p : Nat}
    {run : Run α} {f : Failure} (h : Rounds m p run) (hp : p ≤ input.size)
    (hbefore : run.stop < input.size) (hbreak : BreaksOff m start run.stop f)
    (hrounds : run.trees.length < rounds) :
    repeatedToEnd input m start rounds p = .failed f := by
  induction h generalizing rounds with
  | nil p =>
      obtain ⟨rounds, rfl⟩ := Nat.exists_eq_succ_of_ne_zero (Nat.ne_of_gt hrounds)
      have hinside : ¬ input.size ≤ p := Nat.not_le.mpr hbefore
      rcases hbreak with ⟨e, he, rfl⟩ | ⟨tree, htree, rfl⟩
      · simp [repeatedToEnd, hinside, he]
      · simp [repeatedToEnd, hinside, htree]
  | cons head advances tail ih =>
      obtain ⟨rounds, rfl⟩ := Nat.exists_eq_succ_of_ne_zero (Nat.ne_of_gt (Nat.zero_lt_of_lt hrounds))
      obtain ⟨hle, hstop⟩ := hm _ _ hp head
      have htail := ih hstop hbefore hbreak (by simpa [Run.cons] using hrounds)
      have hinside : ¬ input.size ≤ _ := Nat.not_le.mpr
        (Nat.lt_of_lt_of_le (Nat.lt_of_le_of_ne hle advances.symm) hstop)
      simp [repeatedToEnd, hinside, head, advances, htail, Outcome.map]

theorem untilEnd_eq_done {p : Nat} {r : Match α} (h : untilEnd input m p = .done r) :
    ∃ run, Rounds m p run ∧ input.size ≤ run.stop ∧ run.asMatch = r := by
  obtain ⟨run, hrun, rfl⟩ := Outcome.map_eq_done_iff.mp h
  obtain ⟨hrounds, hend⟩ := repeatedToEnd_eq_done hrun
  exact ⟨run, hrounds, hend, rfl⟩

theorem untilEnd_eq_failed {p : Nat} {f : Failure} (h : untilEnd input m p = .failed f) :
    ∃ run, Rounds m p run ∧ run.stop < input.size ∧ BreaksOff m p run.stop f :=
  repeatedToEnd_eq_failed (Outcome.map_eq_failed_iff.mp h)

theorem untilEnd_eq (hm : Bounded input m) {p : Nat} (hp : p ≤ input.size) {run : Run α}
    (hrounds : Rounds m p run) (hend : input.size ≤ run.stop) :
    untilEnd input m p = .done run.asMatch := by
  have hlength := hrounds.length_le hm hp
  have hrun : repeatedToEnd input m p (roundsFrom input p) p = .done run :=
    hrounds.repeatedToEnd_eq hm hp hend (by unfold roundsFrom; omega)
  simp [untilEnd, hrun, Outcome.map]

theorem untilEnd_eq_failed_iff (hm : Bounded input m) {p : Nat} (hp : p ≤ input.size)
    {f : Failure} :
    untilEnd input m p = .failed f ↔
      ∃ run, Rounds m p run ∧ run.stop < input.size ∧ BreaksOff m p run.stop f := by
  constructor
  · exact untilEnd_eq_failed
  · rintro ⟨run, hrounds, hbefore, hbreak⟩
    have hlength := hrounds.length_le hm hp
    rw [untilEnd, Outcome.map_eq_failed_iff]
    exact hrounds.repeatedToEnd_eq_failed hm hp hbefore hbreak (by unfold roundsFrom; omega)

theorem repeated_ne_endless (hm : Bounded input m) {rounds p : Nat} (hp : p ≤ input.size)
    (hends : ∀ q, p ≤ q → q ≤ input.size → m q ≠ .endless)
    (hrounds : input.size - p < rounds) : repeated m rounds p ≠ .endless := by
  induction rounds generalizing p with
  | zero => omega
  | succ rounds ih =>
      unfold repeated
      cases hmatch : m p with
      | done r =>
          by_cases hstop : r.stop = p
          · simp [hstop]
          · obtain ⟨hle, hstop'⟩ := hm p r hp hmatch
            simp only [hstop, if_false, ne_eq, Outcome.map_eq_endless_iff]
            exact ih hstop' (fun q hq => hends q (Nat.le_trans hle hq)) (by omega)
      | failed f => simp
      | endless => exact absurd hmatch (hends p (Nat.le_refl _) hp)

theorem zeroOrMore_ne_endless (hm : Bounded input m) {p : Nat} (hp : p ≤ input.size)
    (hends : ∀ q, p ≤ q → q ≤ input.size → m q ≠ .endless) :
    zeroOrMore input m p ≠ .endless := by
  rw [zeroOrMore, ne_eq, Outcome.map_eq_endless_iff]
  exact repeated_ne_endless hm hp hends (Nat.lt_succ_self _)

theorem oneOrMore_ne_endless (hm : Bounded input m) {p : Nat} (hp : p ≤ input.size)
    (hends : ∀ q, p ≤ q → q ≤ input.size → m q ≠ .endless) :
    oneOrMore input m p ≠ .endless := by
  unfold oneOrMore
  cases hmatch : m p with
  | done r =>
      obtain ⟨hle, hstop⟩ := hm p r hp hmatch
      simp only [ne_eq, Outcome.map_eq_endless_iff]
      exact repeated_ne_endless hm hstop (fun q hq => hends q (Nat.le_trans hle hq))
        (Nat.lt_succ_self _)
  | failed f => simp
  | endless => exact absurd hmatch (hends p (Nat.le_refl _) hp)

theorem repeatedToEnd_ne_endless (hm : Bounded input m) {start rounds p : Nat}
    (hp : p ≤ input.size) (hends : ∀ q, p ≤ q → q ≤ input.size → m q ≠ .endless)
    (hrounds : input.size - p < rounds) :
    repeatedToEnd input m start rounds p ≠ .endless := by
  induction rounds generalizing p with
  | zero => omega
  | succ rounds ih =>
      unfold repeatedToEnd
      by_cases hend : input.size ≤ p
      · simp [hend]
      · simp only [hend, if_false]
        cases hmatch : m p with
        | done r =>
            by_cases hstop : r.stop = p
            · simp [hstop]
            · obtain ⟨hle, hstop'⟩ := hm p r hp hmatch
              simp only [hstop, if_false, ne_eq, Outcome.map_eq_endless_iff]
              exact ih hstop' (fun q hq => hends q (Nat.le_trans hle hq)) (by omega)
        | failed f => simp
        | endless => exact absurd hmatch (hends p (Nat.le_refl _) hp)

theorem untilEnd_ne_endless (hm : Bounded input m) {p : Nat} (hp : p ≤ input.size)
    (hends : ∀ q, p ≤ q → q ≤ input.size → m q ≠ .endless) :
    untilEnd input m p ≠ .endless := by
  rw [untilEnd, ne_eq, Outcome.map_eq_endless_iff]
  exact repeatedToEnd_ne_endless hm hp hends (Nat.lt_succ_self _)

end Peg.Matcher
