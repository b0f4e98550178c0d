import Peg.Matcher

/-!
What the ways to combine matchers do, said once as relations: a sequence takes
consecutive matches, a repetition takes rounds that each consume something, and a
choice asks every matcher at the same place. Later modules argue about these relations
and do not open the loops that compute them.
-/

namespace Peg.Outcome

variable {β γ : Type}

/-- The value of an attempt that has one. -/
def value? : Outcome β → Option β
  | .done b => some b
  | _ => none

/-- The failure of an attempt that has one. -/
def failure? : Outcome β → Option Failure
  | .failed f => some f
  | _ => none

@[simp] theorem value?_eq_some_iff {o : Outcome β} {b : β} :
    o.value? = some b ↔ o = .done b := by
  cases o <;> simp [value?]

theorem value?_eq_none_iff {o : Outcome β} : o.value? = none ↔ ∀ b, o ≠ .done b := by
  cases o <;> simp [value?]

theorem ne_endless_iff {o : Outcome β} :
    o ≠ .endless ↔ (∃ b, o = .done b) ∨ ∃ f, o = .failed f := by
  cases o <;> simp

/-- What neither has a value nor goes on without end has failed. -/
theorem exists_failed_iff {o : Outcome β} :
    (∃ f, o = .failed f) ↔ o ≠ .endless ∧ ∀ b, o ≠ .done b := by
  cases o <;> simp

theorem ofExcept_eq_done_iff {e : Except Failure β} {b : β} :
    ofExcept e = .done b ↔ e = .ok b := by
  cases e <;> simp [ofExcept]

theorem ofExcept_ne_endless {e : Except Failure β} : ofExcept e ≠ .endless := by
  cases e <;> simp [ofExcept]

theorem bind_eq_endless_iff {o : Outcome β} {next : β → Outcome γ} :
    o.bind next = .endless ↔ o = .endless ∨ ∃ b, o = .done b ∧ next b = .endless := by
  cases o <;> simp [Outcome.bind]

theorem map_eq_endless_iff {o : Outcome β} {g : β → γ} :
    o.map g = .endless ↔ o = .endless := by
  cases o <;> simp [Outcome.map]

theorem mapFailure_eq_done_iff {o : Outcome β} {g : Failure → Failure} {b : β} :
    o.mapFailure g = .done b ↔ o = .done b := by
  cases o <;> simp [mapFailure]

theorem mapFailure_eq_failed_iff {o : Outcome β} {g : Failure → Failure} {f : Failure} :
    o.mapFailure g = .failed f ↔ ∃ e, o = .failed e ∧ g e = f := by
  cases o <;> simp [mapFailure]

theorem mapFailure_eq_endless_iff {o : Outcome β} {g : Failure → Failure} :
    o.mapFailure g = .endless ↔ o = .endless := by
  cases o <;> simp [mapFailure]

/-- What fails one by one fails with a list of failures. -/
theorem exists_failures {ι : Type} {xs : List ι} {o : ι → Outcome β}
    (h : ∀ x ∈ xs, ∃ f, o x = .failed f) :
    ∃ fs : List Failure, xs.map o = fs.map .failed := by
  induction xs with
  | nil => exact ⟨[], rfl⟩
  | cons x xs ih =>
      obtain ⟨⟨f, hf⟩, hxs⟩ := List.forall_mem_cons.mp h
      obtain ⟨fs, hfs⟩ := ih hxs
      exact ⟨f :: fs, by rw [List.map_cons, List.map_cons, hf, hfs]⟩

end Peg.Outcome

namespace Peg.Matcher

variable {α β : Type} {input : Array α} {m : Matcher α} {ms : List (Matcher α)}

theorem one_eq (input : Array α) (accept : α → Bool) (refusal : α → Cause) (p : Nat) :
    one input accept refusal p =
      match input[p]? with
      | none => .failed { cause := .exhausted, pos := p }
      | some x =>
          if accept x then .done ⟨.leaf x, p + 1⟩
          else .failed { cause := refusal x, pos := p } := by
  unfold one itemAt
  cases input[p]? <;> rfl

theorem one_eq_done_iff {accept : α → Bool} {refusal : α → Cause} {p : Nat} {r : Match α} :
    one input accept refusal p = .done r ↔
      ∃ x, input[p]? = some x ∧ accept x = true ∧ r = ⟨.leaf x, p + 1⟩ := by
  rw [one_eq]
  cases hx : input[p]? with
  | none => simp
  | some x =>
      by_cases haccept : accept x = true
      · simp only [haccept, if_true, Outcome.done.injEq, Option.some.injEq]
        exact ⟨fun h => ⟨x, rfl, haccept, h.symm⟩, fun ⟨_, hx, _, hr⟩ => hx ▸ hr.symm⟩
      · simp [haccept]

/-- A single item fails at the end of the input, and where it is refused. -/
theorem one_eq_failed_iff {accept : α → Bool} {refusal : α → Cause} {p : Nat} {f : Failure} :
    one input accept refusal p = .failed f ↔
      (input[p]? = none ∧ f = { cause := .exhausted, pos := p }) ∨
        ∃ x, input[p]? = some x ∧ accept x = false ∧ f = { cause := refusal x, pos := p } := by
  rw [one_eq]
  cases hx : input[p]? with
  | none => simp [eq_comm (a := f)]
  | some x => cases haccept : accept x <;> simp [haccept, eq_comm (a := f)]

theorem one_ne_endless {accept : α → Bool} {refusal : α → Cause} {p : Nat} :
    one input accept refusal p ≠ .endless := by
  rw [one_eq]
  cases input[p]? with
  | none => simp
  | some x => cases haccept : accept x <;> simp [haccept]

theorem except_eq (input : Array α) (m : Matcher α) (refusal : Unit → Cause) (p : Nat) :
    except input m refusal p =
      match input[p]? with
      | none => .failed { cause := .exhausted, pos := p }
      | some x =>
          match m p with
          | .done _ => .failed { cause := refusal (), pos := p }
          | .failed _ => .done ⟨.leaf x, p + 1⟩
          | .endless => .endless := by
  unfold except itemAt
  cases input[p]? <;> rfl

theorem except_eq_done_iff {refusal : Unit → Cause} {p : Nat} {r : Match α} :
    except input m refusal p = .done r ↔
      ∃ x, input[p]? = some x ∧ (∃ f, m p = .failed f) ∧ r = ⟨.leaf x, p + 1⟩ := by
  rw [except_eq]
  cases hx : input[p]? with
  | none => simp
  | some x =>
      cases hm : m p with
      | failed f =>
          simp only [Outcome.done.injEq, Option.some.injEq]
          exact ⟨fun h => ⟨x, rfl, ⟨f, rfl⟩, h.symm⟩, fun ⟨_, hx, _, hr⟩ => hx ▸ hr.symm⟩
      | done s => simp
      | endless => simp

theorem except_eq_failed_iff {refusal : Unit → Cause} {p : Nat} {f : Failure} :
    except input m refusal p = .failed f ↔
      (input[p]? = none ∧ f = { cause := .exhausted, pos := p }) ∨
        ∃ x r, input[p]? = some x ∧ m p = .done r ∧ f = { cause := refusal (), pos := p } := by
  rw [except_eq]
  cases hx : input[p]? with
  | none => simp [eq_comm (a := f)]
  | some x => cases hm : m p <;> simp [eq_comm (a := f)]

theorem except_ne_endless {refusal : Unit → Cause} {p : Nat} (hends : m p ≠ .endless) :
    except input m refusal p ≠ .endless := by
  rw [except_eq]
  cases input[p]? with
  | none => simp
  | some x => cases hm : m p <;> simp_all

/-- A match of each matcher of a list, every one beginning where the last one stopped. -/
inductive Consecutive : List (Matcher α) → Nat → Run α → Prop
  | nil (p : Nat) : Consecutive [] p ⟨[], p⟩
  | cons {m : Matcher α} {ms : List (Matcher α)} {p stop : Nat} {tree : ParseTree α}
      {run : Run α} (head : m p = .done ⟨tree, stop⟩) (tail : Consecutive ms stop run) :
      Consecutive (m :: ms) p (run.cons tree)

theorem runAll_eq_done_iff {start p : Nat} {run : Run α} :
    runAll start ms p = .done run ↔ Consecutive ms p run := by
  constructor
  · intro h
    induction ms generalizing p run with
    | nil =>
        cases h
        exact .nil p
    | cons m ms ih =>
        unfold runAll at h
        cases hm : m p with
        | done r =>
            simp only [hm, Outcome.map_eq_done_iff] at h
            obtain ⟨rest, hrest, rfl⟩ := h
            exact .cons hm (ih hrest)
        | failed f => simp [hm] at h
        | endless => simp [hm] at h
  · intro h
    induction h with
    | nil p => rfl
    | cons head tail ih => simp [runAll, head, ih, Outcome.map]

/-- A sequence fails with its first matcher that fails behind the matches of those
before it. -/
theorem runAll_eq_failed_iff {start p : Nat} {f : Failure} :
    runAll start ms p = .failed f ↔
      ∃ before m after run e, ms = before ++ m :: after ∧ Consecutive before p run ∧
        m run.stop = .failed e ∧ f = .nested start e := by
  constructor
  · intro h
    induction ms generalizing p with
    | nil => cases h
    | cons m ms ih =>
        unfold runAll at h
        cases hm : m p with
        | done r =>
            simp only [hm, Outcome.map_eq_failed_iff] at h
            obtain ⟨before, m', after, run, e, rfl, hbefore, he, rfl⟩ := ih h
            exact ⟨m :: before, m', after, run.cons r.tree, e, rfl, .cons hm hbefore, he, rfl⟩
        | failed e =>
            simp only [hm, Outcome.failed.injEq] at h
            exact ⟨[], m, ms, ⟨[], p⟩, e, rfl, .nil p, hm, h.symm⟩
        | endless => simp [hm] at h
  · rintro ⟨before, m, after, run, e, rfl, hbefore, he, rfl⟩
    induction hbefore with
    | nil p => simp [runAll, he]
    | cons head tail ih => simp [runAll, head, ih he, Outcome.map]

theorem sequence_eq_done_iff {p : Nat} {r : Match α} :
    sequence ms p = .done r ↔ ∃ run, Consecutive ms p run ∧ run.asMatch = r := by
  simp [sequence, Outcome.map_eq_done_iff, runAll_eq_done_iff]

theorem sequence_eq_failed_iff {p : Nat} {f : Failure} :
    sequence ms p = .failed f ↔
      ∃ before m after run e, ms = before ++ m :: after ∧ Consecutive before p run ∧
        m run.stop = .failed e ∧ f = .nested p e := by
  rw [sequence, Outcome.map_eq_failed_iff, runAll_eq_failed_iff]

/-- A sequence comes to an end if each of its matchers does behind the matches of those
before it. -/
theorem runAll_ne_endless {start p : Nat}
    (hends : ∀ before m after run, ms = before ++ m :: after → Consecutive before p run →
      m run.stop ≠ .endless) : runAll start ms p ≠ .endless := by
  induction ms generalizing p with
  | nil => simp [runAll]
  | cons m ms ih =>
      unfold runAll
      cases hm : m p with
      | done r =>
          simp only [ne_eq, Outcome.map_eq_endless_iff]
          refine ih ?_
          rintro before m' after run rfl hbefore
          exact hends (m :: before) m' after (run.cons r.tree) rfl (.cons hm hbefore)
      | failed f => simp
      | endless => exact absurd hm (hends [] m ms ⟨[], p⟩ rfl (.nil p))

theorem sequence_ne_endless {p : Nat}
    (hends : ∀ before m after run, ms = before ++ m :: after → Consecutive before p run →
      m run.stop ≠ .endless) : sequence ms p ≠ .endless := by
  rw [sequence, ne_eq, Outcome.map_eq_endless_iff]
  exact runAll_ne_endless hends

theorem tryAll_eq_ok_iff {p : Nat} {r : Match α} :
    tryAll p ms = .done (.ok r) ↔
      ∃ before m after, ms = before ++ m :: after ∧
        (∀ b ∈ before, ∃ f, b p = .failed f) ∧ m p = .done r := by
  constructor
  · intro h
    induction ms with
    | nil => cases h
    | cons m ms ih =>
        unfold tryAll at h
        cases hm : m p with
        | done r' =>
            simp only [hm, Outcome.done.injEq, Except.ok.injEq] at h
            exact ⟨[], m, ms, rfl, by simp, h ▸ hm⟩
        | failed f =>
            simp only [hm, Outcome.map_eq_done_iff] at h
            obtain ⟨rest, hrest, heq⟩ := h
            cases rest with
            | error fs => cases heq
            | ok r' =>
                cases heq
                obtain ⟨before, m', after, rfl, hbefore, hm'⟩ := ih hrest
                exact ⟨m :: before, m', after, rfl, by simpa [hm] using hbefore, hm'⟩
        | endless => simp [hm] at h
  · rintro ⟨before, m, after, rfl, hbefore, hm⟩
    induction before with
    | nil => simp [tryAll, hm]
    | cons b before ih =>
        obtain ⟨f, hb⟩ := hbefore b (by simp)
        have hrest := ih (fun b' hb' => hbefore b' (by simp [hb']))
        simp only [List.cons_append, tryAll, hb, hrest]
        rfl

/-- The first matcher with a match is taken, unless one before it has no end. -/
theorem tryAll_eq_ok {before after : List (Matcher α)} {p : Nat} {r : Match α}
    (hbefore : ∀ b ∈ before, ∀ s, b p ≠ .done s) (hm : m p = .done r)
    (hends : tryAll p (before ++ m :: after) ≠ .endless) :
    tryAll p (before ++ m :: after) = .done (.ok r) := by
  induction before with
  | nil => simp [tryAll, hm]
  | cons b before ih =>
      simp only [List.cons_append, tryAll] at hends ⊢
      cases hb : b p with
      | done s => exact absurd hb (hbefore b List.mem_cons_self s)
      | failed f =>
          simp only [hb, ne_eq, Outcome.map_eq_endless_iff] at hends ⊢
          rw [ih (fun b' h => hbefore b' (List.mem_cons_of_mem _ h)) hends]
          rfl
      | endless => simp [hb] at hends

/-- What the matchers of a choice fail with is no failure of trying them. -/
theorem tryAll_ne_failed {p : Nat} {f : Failure} : tryAll p ms ≠ .failed f := by
  induction ms with
  | nil => simp [tryAll]
  | cons m ms ih =>
      unfold tryAll
      cases m p with
      | done r => simp
      | failed e => simpa [Outcome.map_eq_failed_iff] using ih
      | endless => simp

theorem tryAll_ne_endless {p : Nat} (hends : ∀ m ∈ ms, m p ≠ .endless) :
    tryAll p ms ≠ .endless := by
  induction ms with
  | nil => simp [tryAll]
  | cons m ms ih =>
      have htail := ih (fun m' h => hends m' (List.mem_cons_of_mem _ h))
      unfold tryAll
      cases hm : m p with
      | done s => simp
      | failed f => simpa [Outcome.map_eq_endless_iff] using htail
      | endless => exact absurd hm (hends m List.mem_cons_self)

theorem tryAll_eq_error_iff {p : Nat} {fs : List Failure} :
    tryAll p ms = .done (.error fs) ↔ ms.map (fun m => m p) = fs.map .failed := by
  induction ms generalizing fs with
  | nil => cases fs <;> simp [tryAll]
  | cons m ms ih =>
      unfold tryAll
      cases hm : m p with
      | done r => cases fs <;> simp [hm]
      | endless => cases fs <;> simp [hm]
      | failed f =>
          simp only [Outcome.map_eq_done_iff, List.map_cons, hm]
          constructor
          · rintro ⟨rest, hrest, heq⟩
            cases rest with
            | ok r => cases heq
            | error fs' =>
                cases heq
                simp [ih.mp hrest]
          · intro h
            cases fs with
            | nil => cases h
            | cons f' fs' =>
                obtain ⟨hf, hfs⟩ := List.cons.inj h
                cases hf
                exact ⟨.error fs', ih.mpr hfs, rfl⟩

theorem firstOf_eq_done_iff {p : Nat} {r : Match α} :
    firstOf ms p = .done r ↔
      ∃ before m after s, ms = before ++ m :: after ∧
        (∀ b ∈ before, ∃ f, b p = .failed f) ∧ m p = .done s ∧ wrap s = r := by
  simp only [firstOf, Outcome.bind_eq_done_iff]
  constructor
  · rintro ⟨choice, hchoice, heq⟩
    cases choice with
    | error fs => cases heq
    | ok s =>
        obtain ⟨before, m, after, hms, hbefore, hm⟩ := tryAll_eq_ok_iff.mp hchoice
        exact ⟨before, m, after, s, hms, hbefore, hm, Outcome.done.inj heq⟩
  · rintro ⟨before, m, after, s, hms, hbefore, hm, rfl⟩
    exact ⟨.ok s, tryAll_eq_ok_iff.mpr ⟨before, m, after, hms, hbefore, hm⟩, rfl⟩

theorem firstOf_eq {before after : List (Matcher α)} {p : Nat} {r : Match α}
    (hbefore : ∀ b ∈ before, ∀ s, b p ≠ .done s) (hm : m p = .done r)
    (hends : firstOf (before ++ m :: after) p ≠ .endless) :
    firstOf (before ++ m :: after) p = .done (wrap r) := by
  unfold firstOf at hends ⊢
  have hchoice : tryAll p (before ++ m :: after) ≠ .endless := by
    intro h
    simp [h, Outcome.bind] at hends
  rw [tryAll_eq_ok hbefore hm hchoice]
  rfl

theorem firstOf_ne_endless {p : Nat} (hends : ∀ m ∈ ms, m p ≠ .endless) :
    firstOf ms p ≠ .endless := by
  have hchoice := tryAll_ne_endless hends
  unfold firstOf
  cases h : tryAll p ms with
  | done choice => cases choice <;> simp [Outcome.bind]
  | failed f => simp [Outcome.bind]
  | endless => exact absurd h hchoice

theorem firstOf_eq_failed_iff {p : Nat} {f : Failure} :
    firstOf ms p = .failed f ↔
      ∃ fs, ms.map (fun m => m p) = fs.map .failed ∧ f = noAlternative p fs := by
  simp only [firstOf, Outcome.bind_eq_failed_iff]
  constructor
  · rintro (h | ⟨choice, hchoice, heq⟩)
    · exact absurd h tryAll_ne_failed
    · cases choice with
      | ok s => cases heq
      | error fs => exact ⟨fs, tryAll_eq_error_iff.mp hchoice, (Outcome.failed.inj heq).symm⟩
  · rintro ⟨fs, hfs, rfl⟩
    exact .inr ⟨.error fs, tryAll_eq_error_iff.mpr hfs, rfl⟩

theorem firstOf_fails {p : Nat} (h : ∀ m ∈ ms, ∃ f, m p = .failed f) :
    ∃ f, firstOf ms p = .failed f := by
  obtain ⟨fs, hfs⟩ := Outcome.exists_failures h
  exact ⟨_, firstOf_eq_failed_iff.mpr ⟨fs, hfs, rfl⟩⟩

/-- A survey ends where each of its matchers does, and sorts what they came to. -/
theorem survey_eq_done_iff {p : Nat} {ms : List (β × Matcher α)}
    {matched : List (β × Match α)} {failures : List Failure} :
    survey p ms = .done (matched, failures) ↔
      (∀ x ∈ ms, x.2 p ≠ .endless) ∧
        matched = ms.filterMap (fun x => (x.2 p).value?.map (x.1, ·)) ∧
        failures = ms.filterMap (fun x => (x.2 p).failure?) := by
  induction ms generalizing matched failures with
  | nil => simp [survey, eq_comm]
  | cons x ms ih =>
      obtain ⟨b, m⟩ := x
      unfold survey
      cases hm : m p with
      | done r =>
          simp only [Outcome.map_eq_done_iff, Prod.exists, ih]
          simp only [List.mem_cons, forall_eq_or_imp, hm, List.filterMap_cons, Outcome.value?,
            Outcome.failure?, Option.map_some, Prod.mk.injEq]
          grind
      | failed f =>
          simp only [Outcome.map_eq_done_iff, Prod.exists, ih]
          simp only [List.mem_cons, forall_eq_or_imp, hm, List.filterMap_cons, Outcome.value?,
            Outcome.failure?, Option.map_none, Prod.mk.injEq]
          grind
      | endless => simp [hm]

theorem survey_ne_failed {p : Nat} {ms : List (β × Matcher α)} {f : Failure} :
    survey p ms ≠ .failed f := by
  induction ms generalizing f with
  | nil => simp [survey]
  | cons x ms ih =>
      unfold survey
      cases x.2 p with
      | done r => simpa [Outcome.map_eq_failed_iff] using ih
      | failed e => simpa [Outcome.map_eq_failed_iff] using ih
      | endless => simp

theorem matches_eq_singleton_iff {p : Nat} {ms : List (β × Matcher α)} {b : β} {s : Match α} :
    ms.filterMap (fun x => (x.2 p).value?.map (x.1, ·)) = [(b, s)] ↔
      ∃ (before : List (β × Matcher α)) (m : Matcher α) (after : List (β × Matcher α)),
        ms = before ++ (b, m) :: after ∧
          (∀ x ∈ before ++ after, ∀ r, x.2 p ≠ .done r) ∧ m p = .done s := by
  have hnone (x : β × Matcher α) :
      (x.2 p).value?.map (x.1, ·) = none ↔ ∀ r, x.2 p ≠ .done r := by
    rw [Option.map_eq_none_iff, Outcome.value?_eq_none_iff]
  constructor
  · intro h
    obtain ⟨before, x, after, rfl, hbefore, hx, hafter⟩ := List.filterMap_eq_cons_iff.mp h
    obtain ⟨s', hs', hbs⟩ := Option.map_eq_some_iff.mp hx
    cases hbs
    refine ⟨before, x.2, after, rfl, ?_, Outcome.value?_eq_some_iff.mp hs'⟩
    intro y hy
    rcases List.mem_append.mp hy with hy | hy
    · exact (hnone y).mp (hbefore y hy)
    · exact (hnone y).mp (List.filterMap_eq_nil_iff.mp hafter y hy)
  · rintro ⟨before, m, after, rfl, hothers, hm⟩
    refine List.filterMap_eq_cons_iff.mpr ⟨before, (b, m), after, rfl, ?_, ?_, ?_⟩
    · exact fun x hx => (hnone x).mpr (hothers x (List.mem_append_left _ hx))
    · simp [hm]
    · exact List.filterMap_eq_nil_iff.mpr fun x hx =>
        (hnone x).mpr (hothers x (List.mem_append_right _ hx))

/-- A choice of exactly one takes the match of a matcher when all others fail. -/
theorem exactlyOne_eq_done_iff {describe : β → String} {p : Nat}
    {ms : List (β × Matcher α)} {r : Match α} :
    exactlyOne describe ms p = .done r ↔
      ∃ (before : List (β × Matcher α)) (b : β) (m : Matcher α)
          (after : List (β × Matcher α)) (s : Match α), ms = before ++ (b, m) :: after ∧
        (∀ x ∈ before ++ after, ∃ f, x.2 p = .failed f) ∧ m p = .done s ∧ wrap s = r := by
  simp only [exactlyOne, Outcome.bind_eq_done_iff, Outcome.exists_failed_iff]
  constructor
  · rintro ⟨⟨matched, failures⟩, hsurvey, heq⟩
    obtain ⟨hends, hmatched, -⟩ := survey_eq_done_iff.mp hsurvey
    match matched, heq with
    | [], heq => cases heq
    | _ :: _ :: _, heq => cases heq
    | [(b, s)], heq =>
        obtain ⟨before, m, after, rfl, hothers, hm⟩ := matches_eq_singleton_iff.mp hmatched.symm
        refine ⟨before, b, m, after, s, rfl, ?_, hm, Outcome.done.inj heq⟩
        intro x hx
        have hmem := List.mem_cons_of_mem (b, m) hx
        exact ⟨hends x (List.perm_middle.mem_iff.mpr hmem), hothers x hx⟩
  · rintro ⟨before, b, m, after, s, rfl, hothers, hm, rfl⟩
    have hends : ∀ x ∈ before ++ (b, m) :: after, x.2 p ≠ .endless := by
      intro x hx
      rcases List.mem_cons.mp (List.perm_middle.mem_iff.mp hx) with rfl | hx
      · simp [hm]
      · exact (hothers x hx).1
    refine ⟨([(b, s)], _), survey_eq_done_iff.mpr ⟨hends, ?_, rfl⟩, rfl⟩
    symm
    rw [matches_eq_singleton_iff]
    exact ⟨before, m, after, rfl, fun x hx => (hothers x hx).2, hm⟩

/-- A choice of exactly one fails if none of its matchers has a match or several do. -/
theorem exactlyOne_eq_failed_iff {describe : β → String} {p : Nat}
    {ms : List (β × Matcher α)} {f : Failure} :
    exactlyOne describe ms p = .failed f ↔
      (∀ x ∈ ms, x.2 p ≠ .endless) ∧
        ((ms.filterMap (fun x => (x.2 p).value?.map (x.1, ·)) = [] ∧
            f = noAlternative p (ms.filterMap fun x => (x.2 p).failure?)) ∨
          ∃ a b rest, ms.filterMap (fun x => (x.2 p).value?.map (x.1, ·)) = a :: b :: rest ∧
            f = { cause := .ambiguous ((a :: b :: rest).map fun x => describe x.1), pos := p }) := by
  simp only [exactlyOne, Outcome.bind_eq_failed_iff, survey_ne_failed, false_or]
  constructor
  · rintro ⟨⟨matched, failures⟩, hsurvey, heq⟩
    obtain ⟨hends, hmatched, rfl⟩ := survey_eq_done_iff.mp hsurvey
    refine ⟨hends, ?_⟩
    match matched, heq with
    | [], heq => exact .inl ⟨hmatched.symm, (Outcome.failed.inj heq).symm⟩
    | [_], heq => cases heq
    | a :: b :: rest, heq =>
        exact .inr ⟨a, b, rest, hmatched.symm, (Outcome.failed.inj heq).symm⟩
  · rintro ⟨hends, ⟨hnil, rfl⟩ | ⟨a, b, rest, hlist, rfl⟩⟩
    · exact ⟨_, survey_eq_done_iff.mpr ⟨hends, hnil.symm, rfl⟩, rfl⟩
    · exact ⟨_, survey_eq_done_iff.mpr ⟨hends, hlist.symm, rfl⟩, rfl⟩

theorem exactlyOne_fails {describe : β → String} {p : Nat} {ms : List (β × Matcher α)}
    (hends : ∀ x ∈ ms, x.2 p ≠ .endless)
    (hmatched : (ms.filterMap fun x => (x.2 p).value?.map (x.1, ·)).length ≠ 1) :
    ∃ f, exactlyOne describe ms p = .failed f := by
  match hlist : ms.filterMap (fun x => (x.2 p).value?.map (x.1, ·)) with
  | [] => exact ⟨_, exactlyOne_eq_failed_iff.mpr ⟨hends, .inl ⟨hlist, rfl⟩⟩⟩
  | [_] => simp [hlist] at hmatched
  | a :: b :: rest =>
      exact ⟨_, exactlyOne_eq_failed_iff.mpr ⟨hends, .inr ⟨a, b, rest, hlist, rfl⟩⟩⟩

theorem exactlyOne_eq_noAlternative {describe : β → String} {p : Nat}
    {ms : List (β × Matcher α)} {fs : List Failure}
    (h : ms.map (fun x => x.2 p) = fs.map .failed) :
    exactlyOne describe ms p = .failed (noAlternative p fs) := by
  have hfails : ∀ x ∈ ms, ∃ f, x.2 p = .failed f := by
    intro x hx
    have hmem : x.2 p ∈ ms.map fun x => x.2 p := List.mem_map_of_mem hx
    rw [h] at hmem
    obtain ⟨f, -, hf⟩ := List.mem_map.mp hmem
    exact ⟨f, hf.symm⟩
  refine exactlyOne_eq_failed_iff.mpr ⟨?_, .inl ⟨List.filterMap_eq_nil_iff.mpr ?_, ?_⟩⟩
  · intro x hx
    obtain ⟨f, hf⟩ := hfails x hx
    simp [hf]
  · intro x hx
    obtain ⟨f, hf⟩ := hfails x hx
    simp [hf, Outcome.value?]
  · have hfailures := congrArg (List.filterMap Outcome.failure?) h
    rw [List.filterMap_map, List.filterMap_map] at hfailures
    exact congrArg (noAlternative p) (hfailures.trans List.filterMap_some).symm

theorem exactlyOne_eq_ambiguous {describe : β → String} {p : Nat} {ms : List (β × Matcher α)}
    (hends : ∀ x ∈ ms, x.2 p ≠ .endless)
    (hseveral : 2 ≤ (ms.filterMap fun x => (x.2 p).value?.map (x.1, ·)).length) :
    exactlyOne describe ms p = .failed
      { cause := .ambiguous ((ms.filterMap fun x => (x.2 p).value?.map (x.1, ·)).map
          fun x => describe x.1)
        pos := p } := by
  match hlist : ms.filterMap (fun x => (x.2 p).value?.map (x.1, ·)) with
  | [] => simp [hlist] at hseveral
  | [_] => simp [hlist] at hseveral
  | a :: b :: rest =>
      exact exactlyOne_eq_failed_iff.mpr ⟨hends, .inr ⟨a, b, rest, hlist, by rw [hlist]⟩⟩

theorem names_of_matches {describe : β → String} {p : Nat} (ms : List (β × Matcher α)) :
    (ms.filterMap fun x => (x.2 p).value?.map (x.1, ·)).map (fun x => describe x.1) =
      (ms.filter fun x => (x.2 p).value?.isSome).map fun x => describe x.1 := by
  induction ms with
  | nil => rfl
  | cons x ms ih => cases hx : (x.2 p).value? <;> simp [hx, ih]

/-- A choice of exactly one fails if no matcher has a match, or if several have one. -/
theorem exactlyOne_eq_failed {describe : β → String} {p : Nat} {ms : List (β × Matcher α)}
    {f : Failure} (h : exactlyOne describe ms p = .failed f) :
    (∃ fs : List Failure, ms.map (fun x => x.2 p) = fs.map .failed ∧ f = noAlternative p fs) ∨
      ∃ names, names = (ms.filter fun x => (x.2 p).value?.isSome).map (fun x => describe x.1) ∧
        2 ≤ names.length ∧ f = { cause := .ambiguous names, pos := p } := by
  obtain ⟨hends, ⟨hnone, -⟩ | ⟨a, b, rest, hmatched, rfl⟩⟩ := exactlyOne_eq_failed_iff.mp h
  · have hfails : ∀ x ∈ ms, ∃ f, x.2 p = .failed f := by
      intro x hx
      have hvalue := List.filterMap_eq_nil_iff.mp hnone x hx
      rw [Option.map_eq_none_iff, Outcome.value?_eq_none_iff] at hvalue
      exact Outcome.exists_failed_iff.mpr ⟨hends x hx, hvalue⟩
    obtain ⟨fs, hfs⟩ := Outcome.exists_failures hfails
    exact .inl ⟨fs, hfs, Outcome.failed.inj (h.symm.trans (exactlyOne_eq_noAlternative hfs))⟩
  · refine .inr ⟨_, ?_, ?_, rfl⟩
    · rw [← hmatched, names_of_matches]
    · simp

/-- A choice of exactly one comes to an end only if all its matchers do. -/
theorem ne_endless_of_exactlyOne {describe : β → String} {p : Nat}
    {ms : List (β × Matcher α)} (h : exactlyOne describe ms p ≠ .endless) :
    ∀ x ∈ ms, x.2 p ≠ .endless := by
  unfold exactlyOne at h
  cases hsurvey : survey p ms with
  | done result => exact (survey_eq_done_iff.mp hsurvey).1
  | failed f => exact absurd hsurvey survey_ne_failed
  | endless => simp [hsurvey, Outcome.bind] at h

theorem exactlyOne_ne_endless {describe : β → String} {p : Nat} {ms : List (β × Matcher α)}
    (hends : ∀ x ∈ ms, x.2 p ≠ .endless) : exactlyOne describe ms p ≠ .endless := by
  obtain ⟨result, hdone⟩ : ∃ result, survey p ms = .done result :=
    ⟨(_, _), survey_eq_done_iff.mpr ⟨hends, rfl, rfl⟩⟩
  unfold exactlyOne
  rw [hdone]
  simp only [Outcome.bind]
  split <;> simp

theorem optional_eq_done_iff {p : Nat} {r : Match α} :
    optional m p = .done r ↔
      (∃ s, m p = .done s ∧ wrap s = r) ∨ (∃ f, m p = .failed f) ∧ ⟨.branch [], p⟩ = r := by
  unfold optional
  cases m p <;> simp

theorem optional_ne_endless {p : Nat} (hends : m p ≠ .endless) :
    optional m p ≠ .endless := by
  unfold optional
  cases hm : m p <;> simp_all

theorem optional_ne_failed {p : Nat} {f : Failure} : optional m p ≠ .failed f := by
  unfold optional
  cases m p <;> simp

theorem within_eq_done_iff {p : Nat} {r : Match α} :
    within m p = .done r ↔ ∃ s, m p = .done s ∧ wrap s = r := by
  simp [within, Outcome.map_eq_done_iff, Outcome.mapFailure_eq_done_iff]

theorem within_eq_wrap_iff {p : Nat} {s : Match α} :
    within m p = .done (wrap s) ↔ m p = .done s := by
  rw [within_eq_done_iff]
  constructor
  · rintro ⟨t, ht, heq⟩
    obtain ⟨htree, hstop⟩ := Match.mk.inj heq
    have hparts : [t.tree] = [s.tree] := congrArg ParseTree.children htree
    have hsame : t = s := by
      cases t
      cases s
      cases hstop
      cases List.singleton_inj.mp hparts
      rfl
    exact hsame ▸ ht
  · intro h
    exact ⟨s, h, rfl⟩

theorem labelled_eq_done_iff {name : String} {p : Nat} {r : Match α} :
    labelled name m p = .done r ↔
      ∃ s, m p = .done s ∧ { s with tree := s.tree.labelled name } = r := by
  simp [labelled, Outcome.map_eq_done_iff, Outcome.mapFailure_eq_done_iff]

theorem within_eq_failed_iff {p : Nat} {f : Failure} :
    within m p = .failed f ↔ ∃ e, m p = .failed e ∧ f = .nested p e := by
  simp only [within, Outcome.map_eq_failed_iff, Outcome.mapFailure_eq_failed_iff,
    eq_comm (a := f)]

/-- Matchers under another rule fail with the same, one level down. -/
theorem within_eq_failures {ι : Type} {p : Nat} {xs : List ι} {m : ι → Matcher α}
    {fs : List Failure} (h : xs.map (fun x => within (m x) p) = fs.map .failed) :
    ∃ es : List Failure, xs.map (fun x => m x p) = es.map .failed ∧ fs = es.map (.nested p) := by
  induction xs generalizing fs with
  | nil => exact ⟨[], rfl, List.map_eq_nil_iff.mp h.symm⟩
  | cons x xs ih =>
      obtain ⟨f, rest, rfl, hf, hrest⟩ := List.map_eq_cons_iff.mp h.symm
      obtain ⟨e, he, rfl⟩ := within_eq_failed_iff.mp hf.symm
      obtain ⟨es, hes, rfl⟩ := ih hrest.symm
      exact ⟨e :: es, by simp [he, hes], rfl⟩

theorem labelled_eq_failed_iff {name : String} {p : Nat} {f : Failure} :
    labelled name m p = .failed f ↔ ∃ e, m p = .failed e ∧ f = e.named name := by
  simp only [labelled, Outcome.map_eq_failed_iff, Outcome.mapFailure_eq_failed_iff,
    eq_comm (a := f)]

theorem within_eq_endless_iff {p : Nat} : within m p = .endless ↔ m p = .endless := by
  rw [within, Outcome.map_eq_endless_iff, Outcome.mapFailure_eq_endless_iff]

theorem labelled_eq_endless_iff {name : String} {p : Nat} :
    labelled name m p = .endless ↔ m p = .endless := by
  rw [labelled, Outcome.map_eq_endless_iff, Outcome.mapFailure_eq_endless_iff]

end Peg.Matcher
