import Mathlib.Data.List.Forall2
import Peg.ParseTree.Selection
import Peg.Proofs.Matching.Depth

/-!
The operators on rules. One rule and then another, or one or else another, is a rule with one
more part where the first is a sequence or a choice already. So parts that are put together
one by one all stand side by side, and it cannot be told how they were grouped: not from the
values of a tree, and not by queries for names. Only the nodes without a label differ, and the
failures.
-/

namespace Peg

namespace ParseTree

variable {α : Type} {r s t : ParseTree α} {ss ts ts' : List (ParseTree α)}

/-- Trees with the same values, in which queries for names find the same nodes in the same
order. -/
structure LooksLike (s t : ParseTree α) : Prop where
  values : s.values = t.values
  found : ∀ names, s.selected.selectLabelled names = t.selected.selectLabelled names

theorem selectLabelled_eq (t : ParseTree α) (names : List String) :
    t.selected.selectLabelled names = ⟨t.outermost (·.isLabelledAny names)⟩ := by
  simp [selected, Selection.selectLabelled, Selection.select]

/-- A query for names goes through a node without a label. -/
theorem outermost_branch (ts : List (ParseTree α)) (names : List String) :
    (branch ts).outermost (·.isLabelledAny names) =
      ts.flatMap (outermost (·.isLabelledAny names)) :=
  outermost_eq _ _

namespace LooksLike

theorem refl (t : ParseTree α) : t.LooksLike t :=
  ⟨rfl, fun _ => rfl⟩

theorem symm (h : s.LooksLike t) : t.LooksLike s :=
  ⟨h.values.symm, fun names => (h.found names).symm⟩

theorem trans (h : r.LooksLike s) (h' : s.LooksLike t) : r.LooksLike t :=
  ⟨h.values.trans h'.values, fun names => (h.found names).trans (h'.found names)⟩

theorem outermost_eq (h : s.LooksLike t) (names : List String) :
    s.outermost (·.isLabelledAny names) = t.outermost (·.isLabelledAny names) := by
  have hfound := h.found names
  rw [selectLabelled_eq, selectLabelled_eq] at hfound
  exact congrArg Selection.nodes hfound

/-- Parts look the same as others if the values and what is found are the same on the whole. -/
theorem of_parts (hvalues : ss.flatMap ParseTree.values = ts.flatMap ParseTree.values)
    (hfound : ∀ names, ss.flatMap (outermost (·.isLabelledAny names)) =
      ts.flatMap (outermost (·.isLabelledAny names))) :
    (branch ss).LooksLike (branch ts) := by
  refine ⟨by rw [values_branch, values_branch, hvalues], fun names => ?_⟩
  rw [selectLabelled_eq, selectLabelled_eq, outermost_branch, outermost_branch, hfound]

theorem wrap (t : ParseTree α) : (branch [t]).LooksLike t := by
  refine ⟨by simp, fun names => ?_⟩
  rw [selectLabelled_eq, selectLabelled_eq, outermost_branch, List.flatMap_singleton]

theorem cons (h : s.LooksLike t) (hts : (branch ss).LooksLike (branch ts)) :
    (branch (s :: ss)).LooksLike (branch (t :: ts)) := by
  have hvalues := hts.values
  rw [values_branch, values_branch] at hvalues
  refine of_parts ?_ fun names => ?_
  · rw [List.flatMap_cons, List.flatMap_cons, h.values, hvalues]
  · have hfound := hts.outermost_eq names
    rw [outermost_branch, outermost_branch] at hfound
    rw [List.flatMap_cons, List.flatMap_cons, h.outermost_eq, hfound]

/-- Parts may be put under two nodes, the first of them under one and the rest under the
other. -/
theorem append (ts ts' : List (ParseTree α)) :
    (branch (ts ++ ts')).LooksLike (branch [branch ts, branch ts']) := by
  refine of_parts (by simp) fun names => ?_
  rw [List.flatMap_append, List.flatMap_cons, List.flatMap_singleton, outermost_branch,
    outermost_branch]

end LooksLike

end ParseTree

namespace Outcome

variable {β γ δ ε : Type}

/-- Two attempts that come to related values, or that both fail, whatever with, or that both
have no end. -/
inductive Parallel (R : β → γ → Prop) : Outcome β → Outcome γ → Prop
  | done {b : β} {c : γ} (h : R b c) : Parallel R (.done b) (.done c)
  | failed (e f : Failure) : Parallel R (.failed e) (.failed f)
  | endless : Parallel R .endless .endless

namespace Parallel

variable {R : β → γ → Prop} {S : γ → δ → Prop} {T : β → δ → Prop} {o : Outcome β}
  {o' : Outcome γ} {o'' : Outcome δ}

theorem refl {R : β → β → Prop} (hR : ∀ b, R b b) (o : Outcome β) : Parallel R o o := by
  cases o with
  | done b => exact .done (hR b)
  | failed f => exact .failed f f
  | endless => exact .endless

theorem flip {R' : γ → β → Prop} (h : Parallel R o o') (hR : ∀ b c, R b c → R' c b) :
    Parallel R' o' o := by
  cases h with
  | done h => exact .done (hR _ _ h)
  | failed e f => exact .failed f e
  | endless => exact .endless

theorem trans (h : Parallel R o o') (h' : Parallel S o' o'')
    (hT : ∀ b c d, R b c → S c d → T b d) : Parallel T o o'' := by
  cases h with
  | done h =>
      cases h' with
      | done h' => exact .done (hT _ _ _ h h')
  | failed e f =>
      cases h' with
      | failed _ f' => exact .failed e f'
  | endless =>
      cases h'
      exact .endless

theorem bind {U : δ → ε → Prop} {next : β → Outcome δ} {next' : γ → Outcome ε}
    (h : Parallel R o o') (hnext : ∀ b c, R b c → Parallel U (next b) (next' c)) :
    Parallel U (o.bind next) (o'.bind next') := by
  cases h with
  | done h => exact hnext _ _ h
  | failed e f => exact .failed e f
  | endless => exact .endless

theorem map {U : δ → ε → Prop} {g : β → δ} {g' : γ → ε} (h : Parallel R o o')
    (hg : ∀ b c, R b c → U (g b) (g' c)) : Parallel U (o.map g) (o'.map g') := by
  cases h with
  | done h => exact .done (hg _ _ h)
  | failed e f => exact .failed e f
  | endless => exact .endless

theorem mapFailure (h : Parallel R o o') (g g' : Failure → Failure) :
    Parallel R (o.mapFailure g) (o'.mapFailure g') := by
  cases h with
  | done h => exact .done h
  | failed e f => exact .failed _ _
  | endless => exact .endless

end Parallel

end Outcome

/-- Matches that stop at the same place, with trees that look the same. -/
structure Match.LooksLike {α : Type} (r s : Match α) : Prop where
  stop : r.stop = s.stop
  tree : r.tree.LooksLike s.tree

/-- Runs of matches that look the same as one. -/
def Run.LooksLike {α : Type} (run run' : Run α) : Prop :=
  run.asMatch.LooksLike run'.asMatch

namespace Matcher

variable {α : Type} {m m' m'' : Matcher α} {ms ms' : List (Matcher α)}

/-- Matchers that match at the same places, to the same effect but for nodes without a label. -/
def LooksLike (m m' : Matcher α) : Prop :=
  ∀ p, Outcome.Parallel Match.LooksLike (m p) (m' p)

namespace LooksLike

theorem refl (m : Matcher α) : LooksLike m m :=
  fun p => .refl (fun r => ⟨rfl, .refl r.tree⟩) (m p)

theorem symm (h : LooksLike m m') : LooksLike m' m :=
  fun p => (h p).flip fun _ _ hr => ⟨hr.stop.symm, hr.tree.symm⟩

theorem trans (h : LooksLike m m') (h' : LooksLike m' m'') : LooksLike m m'' :=
  fun p => (h p).trans (h' p) fun _ _ _ hr hr' =>
    ⟨hr.stop.trans hr'.stop, hr.tree.trans hr'.tree⟩

end LooksLike

/-- A way to combine matchers in which it does not matter how they are grouped. -/
structure Associative (combine : List (Matcher α) → Matcher α) : Prop where
  pair : ∀ {m₁ m₂ m₁' m₂'}, LooksLike m₁ m₁' → LooksLike m₂ m₂' →
    LooksLike (combine [m₁, m₂]) (combine [m₁', m₂'])
  append : ∀ ms ms', LooksLike (combine (ms ++ ms')) (combine [combine ms, combine ms'])
  singleton : ∀ m, LooksLike (combine [m]) m

namespace Associative

variable {combine : List (Matcher α) → Matcher α} (h : Associative combine)
include h

/-- One more part at the end may be put beside the whole. -/
theorem concat (ms : List (Matcher α)) (m : Matcher α) :
    LooksLike (combine (ms ++ [m])) (combine [combine ms, m]) :=
  (h.append ms [m]).trans (h.pair (.refl _) (h.singleton m))

theorem cons (m : Matcher α) (ms : List (Matcher α)) :
    LooksLike (combine (m :: ms)) (combine [m, combine ms]) :=
  (h.append [m] ms).trans (h.pair (h.singleton m) (.refl _))

theorem assoc (m₁ m₂ m₃ : Matcher α) :
    LooksLike (combine [combine [m₁, m₂], m₃]) (combine [m₁, combine [m₂, m₃]]) :=
  (h.concat [m₁, m₂] m₃).symm.trans (h.cons m₁ [m₂, m₃])

/-- An operator that looks the same as a combination may be grouped as well. -/
theorem operator_assoc {γ : Type} {op : γ → γ → γ} {f : γ → Matcher α}
    (hop : ∀ a b, LooksLike (f (op a b)) (combine [f a, f b])) (a b c : γ) :
    LooksLike (f (op (op a b) c)) (f (op a (op b c))) := by
  have hleft : LooksLike (f (op (op a b) c)) (combine [combine [f a, f b], f c]) :=
    (hop (op a b) c).trans (h.pair (hop a b) (.refl (f c)))
  have hright : LooksLike (f (op a (op b c))) (combine [f a, combine [f b, f c]]) :=
    (hop a (op b c)).trans (h.pair (.refl (f a)) (hop b c))
  exact hleft.trans ((h.assoc (f a) (f b) (f c)).trans hright.symm)

end Associative

theorem runAll_cons (start : Nat) (m : Matcher α) (ms : List (Matcher α)) (p : Nat) :
    runAll start (m :: ms) p =
      ((m p).mapFailure (.nested start)).bind fun r =>
        (runAll start ms r.stop).map (.cons r.tree) := by
  rw [runAll]
  cases m p <;> rfl

/-- Where a sequence began is told by its failure only. -/
theorem runAll_looksLike (h : List.Forall₂ LooksLike ms ms') (start start' p : Nat) :
    Outcome.Parallel Run.LooksLike (runAll start ms p) (runAll start' ms' p) := by
  induction h generalizing p with
  | nil => exact .done ⟨rfl, .refl _⟩
  | cons head tail ih =>
      rw [runAll_cons, runAll_cons]
      refine ((head p).mapFailure _ _).bind fun r r' hr => ?_
      rw [← hr.stop]
      exact (ih r.stop).map fun run run' hrun => ⟨hrun.stop, .cons hr.tree hrun.tree⟩

/-- A sequence of more matchers goes on where the first of them stop. -/
theorem runAll_append (start : Nat) (ms ms' : List (Matcher α)) (p : Nat) :
    runAll start (ms ++ ms') p =
      (runAll start ms p).bind fun run =>
        (runAll start ms' run.stop).map fun run' => ⟨run.trees ++ run'.trees, run'.stop⟩ := by
  induction ms generalizing p with
  | nil => cases h : runAll start ms' p <;> simp [runAll, Outcome.bind, Outcome.map, h]
  | cons m ms ih =>
      rw [List.cons_append, runAll, runAll]
      cases m p with
      | done r =>
          simp only [ih]
          cases runAll start ms r.stop with
          | done run =>
              simp only [Outcome.bind, Outcome.map, Run.cons]
              cases runAll start ms' run.stop <;> rfl
          | failed f => rfl
          | endless => rfl
      | failed f => rfl
      | endless => rfl

theorem sequence_append (ms ms' : List (Matcher α)) :
    LooksLike (sequence (ms ++ ms')) (sequence [sequence ms, sequence ms']) := by
  intro p
  simp only [sequence, runAll_append, runAll]
  cases runAll p ms p with
  | failed f => exact .failed _ _
  | endless => exact .endless
  | done run =>
      have hrest : Outcome.Parallel Run.LooksLike (runAll p ms' run.stop)
          (runAll run.stop ms' run.stop) :=
        runAll_looksLike (List.forall₂_same.mpr fun m _ => .refl m) p run.stop run.stop
      simp only [Outcome.bind, Outcome.map, Run.asMatch]
      generalize runAll p ms' run.stop = o at hrest ⊢
      generalize runAll run.stop ms' run.stop = o' at hrest ⊢
      cases hrest with
      | failed e f => exact .failed _ _
      | endless => exact .endless
      | done hrest =>
          refine .done ⟨hrest.stop, (ParseTree.LooksLike.append _ _).trans ?_⟩
          exact .cons (.refl _) (.cons hrest.tree (.refl _))

theorem sequence_associative : Associative (sequence : List (Matcher α) → Matcher α) where
  pair h₁ h₂ p :=
    (runAll_looksLike (.cons h₁ (.cons h₂ .nil)) p p p).map fun _ _ hrun => hrun
  append := sequence_append
  singleton m p := by
    simp only [sequence, runAll]
    cases m p with
    | done r => exact .done ⟨rfl, .wrap r.tree⟩
    | failed f => exact .failed _ _
    | endless => exact .endless

/-- A choice among more matchers goes on to the others where all of the first ones fail. -/
theorem tryAll_append (p : Nat) (ms ms' : List (Matcher α)) :
    tryAll p (ms ++ ms') =
      (tryAll p ms).bind fun
        | .ok r => .done (.ok r)
        | .error fs => (tryAll p ms').map (Except.mapError (fs ++ ·)) := by
  induction ms with
  | nil =>
      simp only [List.nil_append, tryAll, Outcome.bind]
      rcases tryAll p ms' with (fs | r) | f | _ <;> rfl
  | cons m ms ih =>
      rw [List.cons_append, tryAll, tryAll]
      cases m p with
      | done r => rfl
      | endless => rfl
      | failed f =>
          simp only [ih]
          rcases tryAll p ms with (fs | r) | e | _
          · simp only [Outcome.bind, Outcome.map, Except.mapError]
            rcases tryAll p ms' with (fs' | r) | e | _ <;> rfl
          · rfl
          · rfl
          · rfl

theorem firstOf_append (ms ms' : List (Matcher α)) :
    LooksLike (firstOf (ms ++ ms')) (firstOf [firstOf ms, firstOf ms']) := by
  intro p
  simp only [firstOf, tryAll_append, tryAll]
  rcases h : tryAll p ms with (fs | r) | e | _
  · rcases h' : tryAll p ms' with (fs' | r) | e | _
    · exact .failed _ _
    · exact .done ⟨rfl, (ParseTree.LooksLike.wrap _).symm⟩
    · exact absurd h' tryAll_ne_failed
    · exact .endless
  · exact .done ⟨rfl, (ParseTree.LooksLike.wrap _).symm⟩
  · exact absurd h tryAll_ne_failed
  · exact .endless

theorem firstOf_associative : Associative (firstOf : List (Matcher α) → Matcher α) where
  pair {m₁ m₂ m₁' m₂'} h₁ h₂ p := by
    have hfirst := h₁ p
    have hsecond := h₂ p
    simp only [firstOf, tryAll]
    generalize m₁ p = o₁, m₁' p = o₁' at hfirst ⊢
    generalize m₂ p = o₂, m₂' p = o₂' at hsecond ⊢
    cases hfirst with
    | done hr => exact .done ⟨hr.stop, .cons hr.tree (.refl _)⟩
    | endless => exact .endless
    | failed e f =>
        cases hsecond with
        | done hr => exact .done ⟨hr.stop, .cons hr.tree (.refl _)⟩
        | endless => exact .endless
        | failed e f => exact .failed _ _
  append := firstOf_append
  singleton m p := by
    simp only [firstOf, tryAll]
    cases m p with
    | done r => exact .done ⟨rfl, .wrap r.tree⟩
    | failed f => exact .failed _ _
    | endless => exact .endless

end Matcher

/-- Applications that move the cursor on alike, with trees that look the same. -/
structure Cursor.SameResult {α : Type} (result result' : ParseTree α × Cursor α) : Prop where
  tree : result.1.LooksLike result'.1
  next : result.2 = result'.2

namespace Rule

variable {α κ : Type} [Key κ] [Item α κ] {r s : Rule α κ}

/-- Rules that succeed at the same cursors of all inputs, whatever the grammar, and with results
that look the same. -/
def Equivalent (r s : Rule α κ) : Prop :=
  ∀ (g : Grammar α κ) (c : Cursor α),
    Outcome.Parallel Cursor.SameResult (g.applyRule r c) (g.applyRule s c)

theorem Equivalent.of_ruleMatcher
    (h : ∀ (g : Grammar α κ) (input : Array α),
      Matcher.LooksLike (g.ruleMatcher input r) (g.ruleMatcher input s)) :
    r.Equivalent s :=
  fun g c => (h g c.input c.pos).map fun _ _ hr => ⟨hr.tree, congrArg c.moveTo hr.stop⟩

section Operators

variable (g : Grammar α κ) (input : Array α)

/-- A sequence on the left takes the other rule in as its last part. -/
theorem ruleMatcher_add (a b : Rule α κ) :
    Matcher.LooksLike (g.ruleMatcher input (a + b))
      (Matcher.sequence [g.ruleMatcher input a, g.ruleMatcher input b]) := by
  show Matcher.LooksLike (g.ruleMatcher input (andThen a b)) _
  cases a with
  | seq rules =>
      rw [andThen, Grammar.ruleMatcher_seq, List.map_append, Grammar.ruleMatcher_seq]
      exact Matcher.sequence_associative.concat _ _
  | _ =>
      rw [andThen, Grammar.ruleMatcher_seq]
      · exact .refl _
      · simp

/-- A choice on the left takes the other rule in as its last alternative. -/
theorem ruleMatcher_or (a b : Rule α κ) :
    Matcher.LooksLike (g.ruleMatcher input (a ||| b))
      (Matcher.firstOf [g.ruleMatcher input a, g.ruleMatcher input b]) := by
  show Matcher.LooksLike (g.ruleMatcher input (orElse a b)) _
  cases a with
  | alt rules =>
      rw [orElse, Grammar.ruleMatcher_alt, List.map_append, Grammar.ruleMatcher_alt]
      exact Matcher.firstOf_associative.concat _ _
  | _ =>
      rw [orElse, Grammar.ruleMatcher_alt]
      · exact .refl _
      · simp

end Operators

/-- One rule and then another is a sequence of the two, and one rule or else another is a choice
between the two, also where the first rule is a sequence or a choice itself, of any length. So
three rules may be put together from the left or from the right. -/
theorem operators_flatten (a b c : Rule α κ) :
    (a + b).Equivalent (.seq [a, b]) ∧ (a ||| b).Equivalent (.alt [a, b]) ∧
      (a + b + c).Equivalent (a + (b + c)) ∧
      (a ||| b ||| c).Equivalent (a ||| (b ||| c)) := by
  refine ⟨.of_ruleMatcher fun g input => ?_, .of_ruleMatcher fun g input => ?_,
    .of_ruleMatcher fun g input => ?_, .of_ruleMatcher fun g input => ?_⟩
  · rw [Grammar.ruleMatcher_seq]
    exact ruleMatcher_add g input a b
  · rw [Grammar.ruleMatcher_alt]
    exact ruleMatcher_or g input a b
  · exact Matcher.sequence_associative.operator_assoc (ruleMatcher_add g input) a b c
  · exact Matcher.firstOf_associative.operator_assoc (ruleMatcher_or g input) a b c

end Rule

end Peg
