import Peg.Grammar.Matching
import Peg.Proofs.Matching.Repetitions

/-!
Matching loses nothing. The values of a tree are the items that were matched, in their
order, and only leaves carry them. What a discarded alternative or round has matched
leaves no trace. The main statement is on cursors: a rule moves on by just the items
that its tree holds.
-/

namespace Peg

namespace ParseTree

variable {α : Type}

/-- A tree in which a node has a value or children, but not both. -/
inductive ValuesAtLeaves : ParseTree α → Prop
  | leaf (label : Option String) (x : α) : ValuesAtLeaves ⟨label, some x, []⟩
  | branch (label : Option String) {ts : List (ParseTree α)}
      (parts : ∀ t ∈ ts, ValuesAtLeaves t) : ValuesAtLeaves ⟨label, none, ts⟩

theorem preorder_eq (depth : Nat) (t : ParseTree α) :
    t.preorder depth = (depth, t) :: t.children.flatMap (preorder (depth + 1)) := by
  cases t
  simp [preorder, preorderAll_eq_flatMap]

theorem values_eq (t : ParseTree α) :
    t.values = t.value.toList ++ t.children.flatMap values := by
  cases t
  simp [values, valuesAll_eq_flatMap]

theorem filterMap_preorder (depth : Nat) (t : ParseTree α) :
    (t.preorder depth).filterMap (·.2.value) = t.values := by
  induction t generalizing depth with
  | node label value children ih =>
      have hchildren : (children.flatMap (preorder (depth + 1))).filterMap (·.2.value) =
          children.flatMap values := by
        rw [List.filterMap_flatMap, List.flatMap_def, List.flatMap_def,
          List.map_congr_left fun t ht => ih t ht (depth + 1)]
      rw [preorder_eq, values_eq, List.filterMap_cons, hchildren]
      cases value <;> rfl

@[simp] theorem values_leaf (x : α) : (leaf x).values = [x] := by
  simp [values_eq, leaf]

@[simp] theorem values_branch (ts : List (ParseTree α)) :
    (branch ts).values = ts.flatMap values := by
  simp [values_eq, branch]

@[simp] theorem values_labelled (name : String) (t : ParseTree α) :
    (t.labelled name).values = t.values := by
  simp [values_eq, labelled]

theorem ValuesAtLeaves.labelled {t : ParseTree α} (h : t.ValuesAtLeaves) (name : String) :
    (t.labelled name).ValuesAtLeaves := by
  cases h with
  | leaf label x => exact .leaf (some name) x
  | branch label parts => exact .branch (some name) parts

theorem ValuesAtLeaves.children_eq_nil {t : ParseTree α} (h : t.ValuesAtLeaves)
    {depth : Nat} {entry : Nat × ParseTree α} (hentry : entry ∈ t.preorder depth)
    (hvalue : entry.2.value.isSome) : entry.2.children = [] := by
  induction h generalizing depth with
  | leaf label x =>
      rw [preorder_eq] at hentry
      simp only [List.flatMap_nil, List.mem_singleton] at hentry
      rw [hentry]
  | branch label parts ih =>
      rw [preorder_eq, List.mem_cons, List.mem_flatMap] at hentry
      rcases hentry with rfl | ⟨t, ht, hentry⟩
      · simp at hvalue
      · exact ih t ht hentry

end ParseTree

/-- A match from `p` on that holds just what lies before the place where it stops. -/
structure Match.Covers {α : Type} (input : Array α) (p : Nat) (r : Match α) : Prop where
  stop_le : r.stop ≤ input.size
  split : input.toList.drop p = r.tree.values ++ input.toList.drop r.stop
  leaves : r.tree.ValuesAtLeaves

namespace Match.Covers

variable {α : Type} {input : Array α} {p : Nat} {r : Match α}

theorem stop_eq (h : r.Covers input p) (hp : p ≤ input.size) :
    r.stop = p + r.tree.values.length := by
  have hlength := congrArg List.length h.split
  have hstop := h.stop_le
  simp only [List.length_append, List.length_drop, Array.length_toList] at hlength
  omega

theorem values_eq_extract (h : r.Covers input p) (hp : p ≤ input.size) :
    r.tree.values = (input.extract p r.stop).toList := by
  have hstop := h.stop_eq hp
  rw [Array.toList_extract, List.extract_eq_take_drop, h.split, hstop, Nat.add_sub_cancel_left]
  exact List.take_left.symm

theorem mem_of_mem_values (h : r.Covers input p) {x : α} (hx : x ∈ r.tree.values) :
    x ∈ input := by
  have hdrop : x ∈ input.toList.drop p := h.split ▸ List.mem_append_left _ hx
  exact Array.mem_toList_iff.mp (List.mem_of_mem_drop hdrop)

/-- The one item at a place, as a leaf. -/
theorem of_leaf {x : α} (hx : input[p]? = some x) : Covers input p ⟨.leaf x, p + 1⟩ := by
  obtain ⟨hp, rfl⟩ := Array.getElem?_eq_some_iff.mp hx
  refine ⟨hp, ?_, .leaf none _⟩
  rw [ParseTree.values_leaf, List.drop_eq_getElem_cons hp]
  rfl

theorem of_nothing (hp : p ≤ input.size) : Covers input p ⟨.branch [], p⟩ :=
  ⟨hp, by simp, .branch none (by simp)⟩

theorem wrap (h : r.Covers input p) : (Matcher.wrap r).Covers input p := by
  refine ⟨h.stop_le, ?_, .branch none ?_⟩
  · simpa [Matcher.wrap] using h.split
  · intro t ht
    rw [List.mem_singleton.mp ht]
    exact h.leaves

theorem labelled (h : r.Covers input p) (name : String) :
    Covers input p { r with tree := r.tree.labelled name } :=
  ⟨h.stop_le, by simpa using h.split, h.leaves.labelled name⟩

/-- One match in front of a run of others. -/
theorem cons {run : Run α} (h : r.Covers input p) (hrun : run.asMatch.Covers input r.stop) :
    (run.cons r.tree).asMatch.Covers input p := by
  refine ⟨hrun.stop_le, ?_, .branch none ?_⟩
  · have hsplit := hrun.split
    simp only [Run.asMatch, Run.cons, ParseTree.values_branch, List.flatMap_cons] at hsplit ⊢
    rw [h.split, hsplit, List.append_assoc]
  · intro t ht
    rcases List.mem_cons.mp ht with rfl | ht
    · exact h.leaves
    · cases hrun.leaves with
      | branch label parts => exact parts t ht

end Match.Covers

namespace Matcher

variable {α β : Type} {input : Array α} {m : Matcher α} {ms : List (Matcher α)}

/-- A matcher whose matches hold just what they consume. -/
def Lossless (input : Array α) (m : Matcher α) : Prop :=
  ∀ p r, p ≤ input.size → m p = .done r → r.Covers input p

theorem Lossless.bounded (hm : Lossless input m) : Bounded input m := by
  intro p r hp h
  have hcovers := hm p r hp h
  have hstop := hcovers.stop_eq hp
  exact ⟨by omega, hcovers.stop_le⟩

theorem one_lossless (accept : α → Bool) (refusal : α → Cause) :
    Lossless input (one input accept refusal) := by
  intro p r hp h
  obtain ⟨x, hx, -, rfl⟩ := one_eq_done_iff.mp h
  exact .of_leaf hx

theorem except_lossless (m : Matcher α) (refusal : Unit → Cause) :
    Lossless input (except input m refusal) := by
  intro p r hp h
  obtain ⟨x, hx, -, rfl⟩ := except_eq_done_iff.mp h
  exact .of_leaf hx

theorem Consecutive.covers {p : Nat} {run : Run α} (h : Consecutive ms p run)
    (hms : ∀ m ∈ ms, Lossless input m) (hp : p ≤ input.size) :
    run.asMatch.Covers input p := by
  induction h with
  | nil p => exact .of_nothing hp
  | cons head tail ih =>
      have hhead := hms _ List.mem_cons_self _ _ hp head
      exact hhead.cons (ih (fun m hm => hms m (List.mem_cons_of_mem _ hm)) hhead.stop_le)

theorem sequence_lossless (hms : ∀ m ∈ ms, Lossless input m) :
    Lossless input (sequence ms) := by
  intro p r hp h
  obtain ⟨run, hrun, rfl⟩ := sequence_eq_done_iff.mp h
  exact hrun.covers hms hp

theorem firstOf_lossless (hms : ∀ m ∈ ms, Lossless input m) :
    Lossless input (firstOf ms) := by
  intro p r hp h
  obtain ⟨before, m, after, s, rfl, -, hm, rfl⟩ := firstOf_eq_done_iff.mp h
  exact (hms m (by simp) p s hp hm).wrap

theorem exactlyOne_lossless (describe : β → String) {ms : List (β × Matcher α)}
    (hms : ∀ x ∈ ms, Lossless input x.2) : Lossless input (exactlyOne describe ms) := by
  intro p r hp h
  obtain ⟨before, b, m, after, s, rfl, -, hm, rfl⟩ := exactlyOne_eq_done_iff.mp h
  exact (hms (b, m) (by simp) p s hp hm).wrap

theorem Rounds.covers {p : Nat} {run : Run α} (h : Rounds m p run)
    (hm : Lossless input m) (hp : p ≤ input.size) : run.asMatch.Covers input p := by
  induction h with
  | nil p => exact .of_nothing hp
  | cons head advances tail ih =>
      have hhead := hm _ _ hp head
      exact hhead.cons (ih hhead.stop_le)

theorem zeroOrMore_lossless (hm : Lossless input m) :
    Lossless input (zeroOrMore input m) := by
  intro p r hp h
  obtain ⟨run, hrounds, -, rfl⟩ := zeroOrMore_eq_done h
  exact hrounds.covers hm hp

theorem oneOrMore_lossless (hm : Lossless input m) :
    Lossless input (oneOrMore input m) := by
  intro p r hp h
  obtain ⟨tree, stop, run, hfirst, hrounds, -, rfl⟩ := oneOrMore_eq_done h
  have hcovers := hm _ _ hp hfirst
  exact hcovers.cons (hrounds.covers hm hcovers.stop_le)

theorem optional_lossless (hm : Lossless input m) : Lossless input (optional m) := by
  intro p r hp h
  rcases optional_eq_done_iff.mp h with ⟨s, hs, rfl⟩ | ⟨-, rfl⟩
  · exact (hm p s hp hs).wrap
  · exact .of_nothing hp

theorem untilEnd_lossless (hm : Lossless input m) : Lossless input (untilEnd input m) := by
  intro p r hp h
  obtain ⟨run, hrounds, -, rfl⟩ := untilEnd_eq_done h
  exact hrounds.covers hm hp

theorem within_lossless (hm : Lossless input m) : Lossless input (within m) := by
  intro p r hp h
  obtain ⟨s, hs, rfl⟩ := within_eq_done_iff.mp h
  exact (hm p s hp hs).wrap

theorem labelled_lossless (hm : Lossless input m) (name : String) :
    Lossless input (labelled name m) := by
  intro p r hp h
  obtain ⟨s, hs, rfl⟩ := labelled_eq_done_iff.mp h
  exact (hm p s hp hs).labelled name

end Matcher

section Rules

variable {α κ : Type} [Key κ] [Item α κ] {input : Array α} {call : String → Matcher α}

/-- A rule is lossless if the matchers of the rules that it names are. -/
theorem Rule.matcher_lossless (hcall : ∀ name, Matcher.Lossless input (call name))
    (r : Rule α κ) : Matcher.Lossless input (r.matcher input call) := by
  induction r with
  | literal key => exact Matcher.one_lossless _ _
  | range lo hi => exact Matcher.one_lossless _ _
  | predicate p => exact Matcher.one_lossless _ _
  | seq rules ih =>
      rw [matcher_seq]
      exact Matcher.sequence_lossless (List.forall_mem_map.mpr ih)
  | alt rules ih =>
      rw [matcher_alt]
      exact Matcher.firstOf_lossless (List.forall_mem_map.mpr ih)
  | oneOf rules ih =>
      rw [matcher_oneOf]
      exact Matcher.exactlyOne_lossless _ (List.forall_mem_map.mpr ih)
  | star r ih => exact Matcher.zeroOrMore_lossless ih
  | plus r ih => exact Matcher.oneOrMore_lossless ih
  | opt r ih => exact Matcher.optional_lossless ih
  | untilEnd r ih => exact Matcher.untilEnd_lossless ih
  | except r ih => exact Matcher.except_lossless _ _
  | ref name => exact Matcher.within_lossless (hcall name)

namespace Grammar

theorem callMatcher_lossless (g : Grammar α κ) (input : Array α) (depth : Nat) :
    ∀ name, Matcher.Lossless input (g.callMatcher input depth name) := by
  induction depth with
  | zero =>
      intro name p r hp h
      cases h
  | succ depth ih =>
      intro name p r hp h
      unfold callMatcher at h
      cases hrule : g.rule? name with
      | none => simp [hrule] at h
      | some rule =>
          simp only [hrule] at h
          exact Matcher.labelled_lossless (Rule.matcher_lossless ih rule) name p r hp h

theorem namedMatcher_lossless (g : Grammar α κ) (input : Array α) (name : String) :
    Matcher.Lossless input (g.namedMatcher input name) :=
  g.callMatcher_lossless input _ name

theorem ruleMatcher_lossless (g : Grammar α κ) (input : Array α) (r : Rule α κ) :
    Matcher.Lossless input (g.ruleMatcher input r) :=
  Rule.matcher_lossless (g.namedMatcher_lossless input) r

theorem ruleMatcher_bounded (g : Grammar α κ) (input : Array α) (r : Rule α κ) :
    Matcher.Bounded input (g.ruleMatcher input r) :=
  (g.ruleMatcher_lossless input r).bounded

end Grammar

theorem Cursor.map_moveTo_eq_done_iff {c next : Cursor α} {o : Outcome (Match α)}
    {tree : ParseTree α} :
    (o.map fun r => (r.tree, c.moveTo r.stop)) = .done (tree, next) ↔
      ∃ q, o = .done ⟨tree, q⟩ ∧ c.moveTo q = next := by
  rw [Outcome.map_eq_done_iff]
  constructor
  · rintro ⟨r, hr, heq⟩
    obtain ⟨rfl, rfl⟩ := Prod.mk.inj heq
    exact ⟨r.stop, hr, rfl⟩
  · rintro ⟨q, hq, rfl⟩
    exact ⟨_, hq, rfl⟩

namespace Grammar

variable {g : Grammar α κ} {c next : Cursor α} {tree : ParseTree α}

theorem applyRule_eq_done_iff {r : Rule α κ} :
    g.applyRule r c = .done (tree, next) ↔
      ∃ q, g.ruleMatcher c.input r c.pos = .done ⟨tree, q⟩ ∧ c.moveTo q = next :=
  Cursor.map_moveTo_eq_done_iff

theorem applyRule_eq_failed_iff {r : Rule α κ} {f : Failure} :
    g.applyRule r c = .failed f ↔ g.ruleMatcher c.input r c.pos = .failed f :=
  Outcome.map_eq_failed_iff

theorem applyNamed_eq_done_iff {name : String} :
    g.applyNamed name c = .done (tree, next) ↔
      ∃ q, g.namedMatcher c.input name c.pos = .done ⟨tree, q⟩ ∧ c.moveTo q = next :=
  Cursor.map_moveTo_eq_done_iff

theorem applyNamed_eq_failed_iff {name : String} {f : Failure} :
    g.applyNamed name c = .failed f ↔ g.namedMatcher c.input name c.pos = .failed f :=
  Outcome.map_eq_failed_iff

end Grammar

/-- What an application has consumed: it goes on over the same input, not back and not
beyond the end, and its tree holds in its leaves the items in between. -/
structure Cursor.Consumes (c : Cursor α) (tree : ParseTree α) (next : Cursor α) : Prop where
  same_input : next.input = c.input
  pos_le : c.pos ≤ next.pos
  le_size : next.pos ≤ c.input.size
  values_eq : tree.values = (c.input.extract c.pos next.pos).toList
  leaves : ∀ entry ∈ tree.preorder 0, entry.2.value.isSome → entry.2.children = []

theorem Cursor.consumes_of_lossless {c : Cursor α} {m : Matcher α}
    (hm : Matcher.Lossless c.input m) (hc : c.pos ≤ c.input.size) {tree : ParseTree α}
    {next : Cursor α}
    (h : ((m c.pos).map fun r => (r.tree, c.moveTo r.stop)) = .done (tree, next)) :
    c.Consumes tree next := by
  obtain ⟨q, hq, rfl⟩ := map_moveTo_eq_done_iff.mp h
  have hcovers := hm c.pos _ hc hq
  exact
    { same_input := rfl
      pos_le := (hm.bounded c.pos _ hc hq).1
      le_size := hcovers.stop_le
      values_eq := hcovers.values_eq_extract hc
      leaves := fun entry hentry => hcovers.leaves.children_eq_nil hentry }

/-- Whether a rule is applied by itself or under its name, the cursor moves on by the
items of the tree and by no others. The grammar is fixed throughout. -/
theorem Grammar.application_lossless (g : Grammar α κ) (c next : Cursor α)
    (hc : c.pos ≤ c.input.size) (tree : ParseTree α) :
    (∀ r, g.applyRule r c = .done (tree, next) → c.Consumes tree next) ∧
      ∀ name, g.applyNamed name c = .done (tree, next) → c.Consumes tree next := by
  constructor
  · intro r h
    exact Cursor.consumes_of_lossless (g.ruleMatcher_lossless c.input r) hc h
  · intro name h
    exact Cursor.consumes_of_lossless (g.namedMatcher_lossless c.input name) hc h

end Rules

/-- A grammar whose one rule may be given up behind its first item. -/
private def pairGrammar : Grammar Char Char where
  start := "ab"
  rules := [("ab", .seq [.literal 'a', .literal 'b'])]
  distinct := by decide
  start_declared := by decide

/-- The first round takes up and discards the pair, the third one consumes nothing and
is dropped; neither shows in what is consumed. -/
theorem Grammar.application_lossless_backtracking :
    let c : Cursor Char := ⟨#['a', 'a', 'b', 'c'], 0⟩
    let pair : ParseTree Char := .branch [.leaf 'a', .leaf 'b']
    let tree : ParseTree Char :=
      .branch [.branch [.branch [.leaf 'a']], .branch [.branch [pair.labelled "ab"]]]
    c.pos ≤ c.input.size ∧
      pairGrammar.applyRule (.star (.alt [.ref "ab", .opt (.literal 'a')])) c =
        .done (tree, c.moveTo 3) ∧
      c.Consumes tree (c.moveTo 3) := by
  intro c pair tree
  have happly : pairGrammar.applyRule (.star (.alt [.ref "ab", .opt (.literal 'a')])) c =
      .done (tree, c.moveTo 3) := rfl
  refine ⟨Nat.zero_le _, happly, ?_⟩
  exact (pairGrammar.application_lossless c (c.moveTo 3) (Nat.zero_le _) tree).1 _ happly

end Peg
