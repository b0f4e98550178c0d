import Peg.Proofs.Matching.Failures

/-!
Named parts of a result are results of their own. A node that carries a name is what the
rule of this name comes to at the place where the values of the node begin, and a failure
that carries a name is what the rule of this name fails with. So what names come to could be
kept by position, and would not have to be tried again.
-/

namespace Peg.Grammar

variable {α κ : Type} [Key κ] [Item α κ] {g : Grammar α κ} {input : Array α}

/-- Nodes in document order, the values of which begin at a position. Each that carries a
name is what the rule of this name comes to at the place that the values before it reach. -/
def Replays (g : Grammar α κ) (input : Array α) : Nat → List (Nat × ParseTree α) → Prop
  | _, [] => True
  | p, (_, t) :: entries =>
      (∀ name, t.label = some name →
          g.namedMatcher input name p = .done ⟨t, p + t.values.length⟩) ∧
        Replays g input (p + t.value.toList.length) entries

theorem replays_append_iff {p : Nat} {entries entries' : List (Nat × ParseTree α)} :
    g.Replays input p (entries ++ entries') ↔
      g.Replays input p entries ∧
        g.Replays input (p + (entries.filterMap (·.2.value)).length) entries' := by
  induction entries generalizing p with
  | nil => simp [Replays]
  | cons entry entries ih =>
      obtain ⟨depth, t⟩ := entry
      have hlength : ((depth, t) :: entries).filterMap (·.2.value) =
          t.value.toList ++ entries.filterMap (·.2.value) := by
        cases hvalue : t.value <;> simp [hvalue]
      rw [List.cons_append, Replays, Replays, ih, hlength, List.length_append, Nat.add_assoc,
        and_assoc]

namespace Replays

variable {p depth : Nat}

theorem leaf (x : α) : g.Replays input p ((ParseTree.leaf x).preorder depth) := by
  rw [ParseTree.preorder_eq]
  exact ⟨fun _ h => (by cases h), trivial⟩

theorem branch {trees : List (ParseTree α)}
    (h : g.Replays input p (trees.flatMap (ParseTree.preorder (depth + 1)))) :
    g.Replays input p ((ParseTree.branch trees).preorder depth) := by
  rw [ParseTree.preorder_eq]
  exact ⟨fun _ h => (by cases h), h⟩

theorem wrap {tree : ParseTree α} (h : g.Replays input p (tree.preorder (depth + 1))) :
    g.Replays input p ((ParseTree.branch [tree]).preorder depth) := by
  apply branch
  rwa [List.flatMap_singleton]

theorem labelled {tree : ParseTree α} {name : String}
    (h : g.Replays input p (tree.preorder depth))
    (hnamed : g.namedMatcher input name p =
      .done ⟨tree.labelled name, p + tree.values.length⟩) :
    g.Replays input p ((tree.labelled name).preorder depth) := by
  rw [ParseTree.preorder_eq] at h ⊢
  refine ⟨?_, h.2⟩
  rintro _ ⟨⟩
  rwa [ParseTree.values_labelled]

/-- The values of trees that lie side by side begin where those of the tree before end. -/
theorem cons {q : Nat} {tree : ParseTree α} {trees : List (ParseTree α)}
    (h : g.Replays input p (tree.preorder depth)) (hq : q = p + tree.values.length)
    (htrees : g.Replays input q (trees.flatMap (ParseTree.preorder depth))) :
    g.Replays input p ((tree :: trees).flatMap (ParseTree.preorder depth)) := by
  rw [List.flatMap_cons, replays_append_iff, ParseTree.filterMap_preorder]
  exact ⟨h, hq ▸ htrees⟩

end Replays

mutual

theorem Matches.replays {r : Rule α κ} {p q : Nat} {tree : ParseTree α} :
    g.Matches input r p tree q → p ≤ input.size →
      ∀ depth, g.Replays input p (tree.preorder depth)
  | .item _ _ _, _, _ => .leaf _
  | .seq parts, hp, depth => .branch (parts.replays hp (depth + 1))
  | .alt _ chosen, hp, depth => .wrap (chosen.replays hp (depth + 1))
  | .oneOf _ only, hp, depth => .wrap (only.replays hp (depth + 1))
  | .star chain _, hp, depth => .branch (chain.replays hp (depth + 1))
  | .plus first chain _, hp, depth => by
      obtain ⟨hstop, hq⟩ := first.stop_eq hp
      exact .branch (.cons (first.replays hp (depth + 1)) hstop (chain.replays hq (depth + 1)))
  | .optSome part, hp, depth => .wrap (part.replays hp (depth + 1))
  | .optNone _, _, _ => .branch trivial
  | .untilEnd chain, hp, depth => .branch (chain.replays hp (depth + 1))
  | .except _ _, _, _ => .leaf _
  | .ref declared body, hp, depth => by
      have hnamed := namedMatcher_eq_done declared hp (body.ruleMatcher_eq hp)
      rw [(body.stop_eq hp).1] at hnamed
      exact .wrap (.labelled (body.replays hp (depth + 1)) hnamed)

theorem InOrder.replays {rules : List (Rule α κ)} {p q : Nat} {trees : List (ParseTree α)} :
    g.InOrder input rules p trees q → p ≤ input.size →
      ∀ depth, g.Replays input p (trees.flatMap (ParseTree.preorder depth))
  | .nil, _, _ => trivial
  | .cons head tail, hp, depth => by
      obtain ⟨hstop, hq⟩ := head.stop_eq hp
      exact .cons (head.replays hp depth) hstop (tail.replays hq depth)

theorem Chain.replays {r : Rule α κ} {p q : Nat} {trees : List (ParseTree α)} :
    g.Chain input r p trees q → p ≤ input.size →
      ∀ depth, g.Replays input p (trees.flatMap (ParseTree.preorder depth))
  | .nil, _, _ => trivial
  | .cons head _ tail, hp, depth => by
      obtain ⟨hstop, hq⟩ := head.stop_eq hp
      exact .cons (head.replays hp depth) hstop (tail.replays hq depth)

end

theorem namedMatcher_replays {name : String} {p : Nat} (hp : p ≤ input.size) {s : Match α}
    (h : g.namedMatcher input name p = .done s) (depth : Nat) :
    g.Replays input p (s.tree.preorder depth) := by
  cases hrule : g.rule? name with
  | none => simp [namedMatcher_undeclared hrule hp] at h
  | some r =>
      have hlabelled := h
      rw [namedMatcher_of_rule hrule hp, Matcher.labelled_eq_done_iff] at hlabelled
      obtain ⟨t, ht, rfl⟩ := hlabelled
      have hmatches := (ruleMatcher_eq_done_iff hp).mp ht
      have hstop := (hmatches.stop_eq hp).1
      rw [hstop] at h
      exact .labelled (hmatches.replays hp depth) h

/-- If a failure carries a name, the rule of this name fails with it where the attempt
began. A repetition that makes no progress tells where it got stuck instead. -/
def Refails (g : Grammar α κ) (input : Array α) (f : Failure) : Prop :=
  ∀ name, f.name = some name →
    ∃ p ≤ input.size, (f.cause ≠ .noProgress → p = f.pos) ∧
      g.namedMatcher input name p = .failed f

theorem FailsWith.refails_named {name : String} {r : Rule α κ} {p : Nat} {f : Failure}
    (h : g.FailsWith input r p f) (hrule : g.rule? name = some r) (hp : p ≤ input.size) :
    g.Refails input (f.named name) := by
  rintro _ ⟨⟩
  exact ⟨p, hp, fun hcause => (h.pos_eq hcause).symm,
    namedMatcher_eq_failed hrule hp (h.ruleMatcher_eq hp)⟩

theorem refails_of_unnamed {f : Failure} (h : f.name = none) : g.Refails input f := by
  intro name hname
  rw [h] at hname
  cases hname

theorem refails_nested {p : Nat} {f : Failure} (h : f.Everywhere (g.Refails input)) :
    (Failure.nested p f).Everywhere (g.Refails input) :=
  .node (refails_of_unnamed rfl) (List.forall_mem_singleton.mpr h)

theorem FailsWith.everywhere_named {name : String} {r : Rule α κ} {p : Nat} {f : Failure}
    (h : g.FailsWith input r p f) (hrule : g.rule? name = some r) (hp : p ≤ input.size)
    (hf : f.Everywhere (g.Refails input)) : (f.named name).Everywhere (g.Refails input) := by
  cases hf with
  | node here below => exact .node (h.refails_named hrule hp) below

mutual

theorem FailsWith.refails {r : Rule α κ} {p : Nat} {f : Failure} :
    g.FailsWith input r p f → p ≤ input.size → f.Everywhere (g.Refails input)
  | .exhausted _ _, _ => .node (refails_of_unnamed rfl) (by simp)
  | .refused _ _ _, _ => .node (refails_of_unnamed rfl) (by simp)
  | .seq parts part, hp => refails_nested (part.refails (parts.consecutive hp).2)
  | .alt all, hp => .node (refails_of_unnamed rfl) (all.refails hp)
  | .oneOf all, hp => .node (refails_of_unnamed rfl) (all.refails hp)
  | .ambiguous _ _, _ => .node (refails_of_unnamed rfl) (by simp)
  | .plus first, hp => refails_nested (first.refails hp)
  | .untilEnd chain _ part, hp => refails_nested (part.refails (chain.rounds hp).2)
  | .noProgress _ _ _, _ => .node (refails_of_unnamed rfl) (by simp)
  | .exceptEnd _, _ => .node (refails_of_unnamed rfl) (by simp)
  | .except _ _, _ => .node (refails_of_unnamed rfl) (by simp)
  | .undeclared _, _ => refails_nested (.node (refails_of_unnamed rfl) (by simp))
  | .ref declared body, hp =>
      refails_nested (body.everywhere_named declared hp (body.refails hp))

theorem AllFailWith.refails {rules : List (Rule α κ)} {p : Nat} {fs : List Failure} :
    g.AllFailWith input rules p fs → p ≤ input.size →
      ∀ f ∈ fs, f.Everywhere (g.Refails input)
  | .nil, _ => by simp
  | .cons head tail, hp => List.forall_mem_cons.mpr ⟨head.refails hp, tail.refails hp⟩

end

theorem namedMatcher_refails {name : String} {p : Nat} (hp : p ≤ input.size) {f : Failure}
    (h : g.namedMatcher input name p = .failed f) : f.Everywhere (g.Refails input) := by
  cases hrule : g.rule? name with
  | none =>
      rw [namedMatcher_undeclared hrule hp] at h
      cases h
      exact .node (refails_of_unnamed rfl) (by simp)
  | some r =>
      rw [namedMatcher_of_rule hrule hp, Matcher.labelled_eq_failed_iff] at h
      obtain ⟨e, he, rfl⟩ := h
      have hfails := (ruleMatcher_eq_failed_iff hp).mp he
      exact hfails.everywhere_named hrule hp (hfails.refails hp)

/-- Every named part of a result is what applying its name comes to by itself: a node at the
place that the values before it reach, a failure at its own position. -/
theorem named_parts_replay (g : Grammar α κ) (c : Cursor α) (hc : c.pos ≤ c.input.size) :
    (∀ tree next, ((∃ r, g.applyRule r c = .done (tree, next)) ∨
          ∃ name, g.applyNamed name c = .done (tree, next)) →
        ∀ before depth t after name, tree.preorder 0 = before ++ (depth, t) :: after →
          t.label = some name →
            let i := c.pos + (before.filterMap (·.2.value)).length
            g.applyNamed name (c.moveTo i) = .done (t, c.moveTo (i + t.values.length))) ∧
      ∀ f, ((∃ r, g.applyRule r c = .failed f) ∨ ∃ name, g.applyNamed name c = .failed f) →
        ∀ entry ∈ f.preorder 0, ∀ name, entry.2.name = some name →
          ∃ j ≤ c.input.size, (entry.2.cause ≠ .noProgress → j = entry.2.pos) ∧
            g.applyNamed name (c.moveTo j) = .failed entry.2 := by
  constructor
  · intro tree next h before depth t after name hsplit hname
    have hreplays : g.Replays c.input c.pos (tree.preorder 0) := by
      rcases h with ⟨r, h⟩ | ⟨name, h⟩
      · obtain ⟨q, hq, -⟩ := applyRule_eq_done_iff.mp h
        exact ((ruleMatcher_eq_done_iff hc).mp hq).replays hc 0
      · obtain ⟨q, hq, -⟩ := applyNamed_eq_done_iff.mp h
        exact namedMatcher_replays hc hq 0
    rw [hsplit, replays_append_iff] at hreplays
    exact applyNamed_eq_done_iff.mpr ⟨_, hreplays.2.1 name hname, rfl⟩
  · intro f h entry hentry name hname
    have heverywhere : f.Everywhere (g.Refails c.input) := by
      rcases h with ⟨r, h⟩ | ⟨name, h⟩
      · exact ((ruleMatcher_eq_failed_iff hc).mp (applyRule_eq_failed_iff.mp h)).refails hc
      · exact namedMatcher_refails hc (applyNamed_eq_failed_iff.mp h)
    obtain ⟨j, hj, hpos, hfailed⟩ := heverywhere.of_mem_preorder hentry name hname
    exact ⟨j, hj, hpos, applyNamed_eq_failed_iff.mpr hfailed⟩

/-- Pairs and single items, and what has to reach the end behind them. -/
private def restGrammar : Grammar Char Char where
  start := "s"
  rules :=
    [("s", .seq [.star (.alt [.ref "ab", .literal 'a']), .ref "rest"]),
     ("ab", .seq [.literal 'a', .literal 'b']),
     ("rest", .untilEnd (.opt (.literal 'c')))]
  distinct := by decide
  start_declared := by decide

/-- The pair lies behind an item at which it was tried in vain. The rest gets stuck at an item
behind the one it begins with, and tells that place. -/
theorem named_parts_replay_stuck :
    let c : Cursor Char := ⟨#['a', 'a', 'b', 'c'], 0⟩
    let c' : Cursor Char := ⟨#['a', 'a', 'b', 'c', 'd'], 0⟩
    let pair : ParseTree Char := (ParseTree.branch [.leaf 'a', .leaf 'b']).labelled "ab"
    let stuck : Failure := { cause := .noProgress, pos := 4, name := some "rest" }
    (c.pos ≤ c.input.size ∧ restGrammar.applyNamed "ab" (c.moveTo 1) = .done (pair, c.moveTo 3)) ∧
      c'.pos ≤ c'.input.size ∧
        ∃ j ≤ 5, restGrammar.applyNamed "rest" (c'.moveTo j) = .failed stuck := by
  intro c c' pair stuck
  let first : ParseTree Char := .branch [.leaf 'a']
  let second : ParseTree Char := .branch [.branch [pair]]
  let rest : ParseTree Char := (ParseTree.branch [.branch [.leaf 'c']]).labelled "rest"
  let tree : ParseTree Char :=
    (ParseTree.branch [.branch [first, second], .branch [rest]]).labelled "s"
  have hdone : restGrammar.applyNamed "s" c = .done (tree, c.moveTo 4) := rfl
  have hfailed : restGrammar.applyNamed "s" c' =
      .failed ((Failure.nested 0 (.nested 3 stuck)).named "s") := rfl
  have hsplit : tree.preorder 0 =
      [(0, tree), (1, .branch [first, second]), (2, first), (3, .leaf 'a'), (2, second),
        (3, .branch [pair])] ++ (4, pair) :: (tree.preorder 0).drop 7 := rfl
  have hnodes := (restGrammar.named_parts_replay c (Nat.zero_le _)).1 tree _ (.inr ⟨"s", hdone⟩)
  have hfailures :=
    (restGrammar.named_parts_replay c' (Nat.zero_le _)).2 _ (.inr ⟨"s", hfailed⟩)
  refine ⟨⟨Nat.zero_le _, hnodes _ 4 pair _ "ab" hsplit rfl⟩, Nat.zero_le _, ?_⟩
  obtain ⟨j, hj, -, h⟩ := hfailures (2, stuck) (by decide) "rest" rfl
  exact ⟨j, hj, h⟩

end Peg.Grammar
