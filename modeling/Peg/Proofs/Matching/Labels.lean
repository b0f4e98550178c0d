import Peg.Proofs.Matching.Failures

/-!
Where labels stand. A rule by itself makes trees and failures without a label at the root, so
that a name that is put there replaces none. Further down, a label stands where a named rule
was called, on the only part of a node or of a failure, and it is a declared name.
-/

namespace Peg

namespace ParseTree

variable {α : Type}

/-- A property of a node and of all nodes below it. -/
inductive Everywhere (P : ParseTree α → Prop) : ParseTree α → Prop
  | node {t : ParseTree α} (here : P t) (below : ∀ s ∈ t.children, Everywhere P s) :
      Everywhere P t

theorem Everywhere.of_mem_preorder {P : ParseTree α → Prop} {t : ParseTree α}
    (h : t.Everywhere P) {depth : Nat} {entry : Nat × ParseTree α}
    (hentry : entry ∈ t.preorder depth) : P entry.2 := by
  induction h generalizing depth with
  | node here below ih =>
      rw [preorder_eq, List.mem_cons, List.mem_flatMap] at hentry
      rcases hentry with rfl | ⟨s, hs, hentry⟩
      · exact here
      · exact ih s hs hentry

/-- The labels of a node and its children: they are declared names, and that of a child stands
on the only child of a node without value. -/
structure LabelledIn (names : List String) (t : ParseTree α) : Prop where
  declared : ∀ name, t.label = some name → name ∈ names
  only_child : ∀ s ∈ t.children, s.label ≠ none → t.children = [s] ∧ t.value = none

theorem Everywhere.labelled {names : List String} {t : ParseTree α}
    (h : t.Everywhere (LabelledIn names)) {name : String} (hname : name ∈ names) :
    (t.labelled name).Everywhere (LabelledIn names) := by
  cases h with
  | node here below => exact .node ⟨fun _ heq => Option.some.inj heq ▸ hname, here.only_child⟩ below

end ParseTree

namespace Failure

/-- The names of a failure and of those it rests on: they are declared names, there is none
where an undeclared name is the cause, and that of a child stands on the only child of a nested
failure. -/
structure NamedIn (names : List String) (f : Failure) : Prop where
  declared : ∀ name, f.name = some name → name ∈ names
  unknown : ∀ name, f.cause = .unknownRule name → f.name = none
  only_child : ∀ e ∈ f.children, e.name ≠ none → f.children = [e] ∧ f.cause = .nested

theorem Everywhere.named {names : List String} {f : Failure}
    (h : f.Everywhere (NamedIn names)) {name : String} (hname : name ∈ names)
    (hcause : ∀ m, f.cause ≠ .unknownRule m) :
    (f.named name).Everywhere (NamedIn names) := by
  cases h with
  | node here below =>
      exact .node ⟨fun _ heq => Option.some.inj heq ▸ hname,
        fun m hm => absurd hm (hcause m), here.only_child⟩ below

theorem namedIn_unknown {names : List String} (name : String) (pos : Nat) :
    Everywhere (NamedIn names) { cause := .unknownRule name, pos } :=
  .node ⟨nofun, fun _ _ => rfl, by simp⟩ (by simp)

end Failure

namespace Grammar

variable {α κ : Type}

/-- The names that have a rule. -/
def names (g : Grammar α κ) : List String :=
  g.rules.map Prod.fst

theorem mem_names_of_rule {g : Grammar α κ} {name : String} {r : Rule α κ}
    (h : g.rule? name = some r) : name ∈ g.names :=
  List.mem_map_of_mem (g.rule?_eq_some_iff.mp h)

/-- The trees that rules make by themselves. A call of a named rule is a node of its own, with
what the name came to as its only part. -/
inductive BareTree (g : Grammar α κ) : ParseTree α → Prop
  | leaf (x : α) : BareTree g (.leaf x)
  | branch {trees : List (ParseTree α)} (parts : ∀ t ∈ trees, BareTree g t) :
      BareTree g (.branch trees)
  | call {name : String} {r : Rule α κ} {tree : ParseTree α}
      (declared : g.rule? name = some r) (body : BareTree g tree) :
      BareTree g (.branch [tree.labelled name])

/-- The failures that rules come to by themselves. A name that is not declared is found out
where it is called, and the failure of a rule that is called lies below that of the call. -/
inductive BareFailure (g : Grammar α κ) : Failure → Prop
  | plain {cause : Cause} {pos : Nat} {children : List Failure}
      (known : ∀ name, cause ≠ .unknownRule name) (parts : ∀ e ∈ children, BareFailure g e) :
      BareFailure g { cause, pos, children }
  | undeclared {name : String} {pos : Nat} :
      BareFailure g (.nested pos { cause := .unknownRule name, pos })
  | call {name : String} {r : Rule α κ} {pos : Nat} {f : Failure}
      (declared : g.rule? name = some r) (body : BareFailure g f) :
      BareFailure g (.nested pos (f.named name))

variable {g : Grammar α κ} {t : ParseTree α} {f : Failure}

theorem BareTree.label_eq (h : g.BareTree t) : t.label = none := by
  cases h <;> rfl

theorem BareTree.labels (h : g.BareTree t) :
    t.Everywhere (ParseTree.LabelledIn g.names) := by
  induction h with
  | leaf x =>
      refine .node ⟨?_, ?_⟩ ?_ <;> simp [ParseTree.leaf]
  | branch parts ih =>
      refine .node ⟨by simp [ParseTree.branch], fun s hs hlabel => ?_⟩ ih
      exact absurd (parts s hs).label_eq hlabel
  | call declared body ih =>
      refine .node ⟨by simp [ParseTree.branch], fun s hs _ => ?_⟩ ?_
      · exact ⟨congrArg ([·]) (List.mem_singleton.mp hs).symm, rfl⟩
      · exact List.forall_mem_singleton.mpr (ih.labelled (mem_names_of_rule declared))

theorem BareFailure.nested {pos : Nat} (h : g.BareFailure f) : g.BareFailure (.nested pos f) :=
  .plain (by simp) (List.forall_mem_singleton.mpr h)

theorem BareFailure.name_eq (h : g.BareFailure f) : f.name = none := by
  cases h <;> rfl

theorem BareFailure.cause_ne (h : g.BareFailure f) (name : String) :
    f.cause ≠ .unknownRule name := by
  cases h with
  | plain known parts => exact known name
  | undeclared => exact nofun
  | call declared body => exact nofun

theorem BareFailure.names (h : g.BareFailure f) : f.Everywhere (Failure.NamedIn g.names) := by
  induction h with
  | plain known parts ih =>
      refine .node ⟨nofun, fun name hname => absurd hname (known name), fun e he hname => ?_⟩ ih
      exact absurd (parts e he).name_eq hname
  | undeclared =>
      refine .node ⟨nofun, nofun, ?_⟩ ?_
      · exact List.forall_mem_singleton.mpr fun hname => absurd rfl hname
      · exact List.forall_mem_singleton.mpr (Failure.namedIn_unknown _ _)
  | call declared body ih =>
      refine .node ⟨nofun, nofun, fun e he _ => ?_⟩ (List.forall_mem_singleton.mpr ?_)
      · exact ⟨congrArg ([·]) (List.mem_singleton.mp he).symm, rfl⟩
      · exact ih.named (mem_names_of_rule declared) body.cause_ne

variable [Key κ] [Item α κ] {input : Array α}

mutual

theorem Matches.bare {r : Rule α κ} {p q : Nat} {tree : ParseTree α} :
    g.Matches input r p tree q → g.BareTree tree
  | .item _ _ _ => .leaf _
  | .seq parts => .branch parts.bare
  | .alt _ chosen => .branch (List.forall_mem_singleton.mpr chosen.bare)
  | .oneOf _ only => .branch (List.forall_mem_singleton.mpr only.bare)
  | .star chain _ => .branch chain.bare
  | .plus first chain _ => .branch (List.forall_mem_cons.mpr ⟨first.bare, chain.bare⟩)
  | .optSome part => .branch (List.forall_mem_singleton.mpr part.bare)
  | .optNone _ => .branch (by simp)
  | .untilEnd chain => .branch chain.bare
  | .except _ _ => .leaf _
  | .ref declared body => .call declared body.bare

theorem InOrder.bare {rules : List (Rule α κ)} {p q : Nat} {trees : List (ParseTree α)} :
    g.InOrder input rules p trees q → ∀ t ∈ trees, g.BareTree t
  | .nil => by simp
  | .cons head tail => List.forall_mem_cons.mpr ⟨head.bare, tail.bare⟩

theorem Chain.bare {r : Rule α κ} {p q : Nat} {trees : List (ParseTree α)} :
    g.Chain input r p trees q → ∀ t ∈ trees, g.BareTree t
  | .nil => by simp
  | .cons head _ tail => List.forall_mem_cons.mpr ⟨head.bare, tail.bare⟩

end

mutual

theorem FailsWith.bare {r : Rule α κ} {p : Nat} {f : Failure} :
    g.FailsWith input r p f → g.BareFailure f
  | .exhausted _ _ => .plain nofun (by simp)
  | .refused _ _ _ => .plain nofun (by simp)
  | .seq _ part => part.bare.nested
  | .alt all => .plain nofun all.bare
  | .oneOf all => .plain nofun all.bare
  | .ambiguous _ _ => .plain nofun (by simp)
  | .plus first => first.bare.nested
  | .untilEnd _ _ part => part.bare.nested
  | .noProgress _ _ _ => .plain nofun (by simp)
  | .exceptEnd _ => .plain nofun (by simp)
  | .except _ _ => .plain nofun (by simp)
  | .undeclared _ => .undeclared
  | .ref declared body => .call declared body.bare

theorem AllFailWith.bare {rules : List (Rule α κ)} {p : Nat} {fs : List Failure} :
    g.AllFailWith input rules p fs → ∀ f ∈ fs, g.BareFailure f
  | .nil => by simp
  | .cons head tail => List.forall_mem_cons.mpr ⟨head.bare, tail.bare⟩

end

variable {c next : Cursor α} {r : Rule α κ} {name : String}

theorem bareTree_of_applyRule (hc : c.pos ≤ c.input.size)
    (h : g.applyRule r c = .done (t, next)) : g.BareTree t := by
  obtain ⟨q, hq, -⟩ := applyRule_eq_done_iff.mp h
  exact ((ruleMatcher_eq_done_iff hc).mp hq).bare

theorem bareFailure_of_applyRule (hc : c.pos ≤ c.input.size)
    (h : g.applyRule r c = .failed f) : g.BareFailure f :=
  ((ruleMatcher_eq_failed_iff hc).mp (applyRule_eq_failed_iff.mp h)).bare

theorem exists_bareTree_of_applyNamed (hc : c.pos ≤ c.input.size)
    (h : g.applyNamed name c = .done (t, next)) :
    ∃ r bare, g.rule? name = some r ∧ g.applyRule r c = .done (bare, next) ∧
      g.BareTree bare ∧ t = bare.labelled name := by
  obtain ⟨q, hq, rfl⟩ := applyNamed_eq_done_iff.mp h
  cases hrule : g.rule? name with
  | none => simp [namedMatcher_undeclared hrule hc] at hq
  | some r =>
      rw [namedMatcher_of_rule hrule hc, Matcher.labelled_eq_done_iff] at hq
      obtain ⟨s, hs, heq⟩ := hq
      cases heq
      have hbare : g.applyRule r c = .done (s.tree, c.moveTo s.stop) :=
        applyRule_eq_done_iff.mpr ⟨s.stop, hs, rfl⟩
      exact ⟨r, s.tree, rfl, hbare, bareTree_of_applyRule hc hbare, rfl⟩

theorem exists_bareFailure_of_applyNamed (hc : c.pos ≤ c.input.size)
    (h : g.applyNamed name c = .failed f) :
    (g.rule? name = none ∧ f = { cause := .unknownRule name, pos := c.pos }) ∨
      ∃ r bare, g.rule? name = some r ∧ g.applyRule r c = .failed bare ∧
        g.BareFailure bare ∧ f = bare.named name := by
  rw [applyNamed_eq_failed_iff] at h
  cases hrule : g.rule? name with
  | none =>
      rw [namedMatcher_undeclared hrule hc] at h
      exact .inl ⟨rfl, (Outcome.failed.inj h).symm⟩
  | some r =>
      rw [namedMatcher_of_rule hrule hc, Matcher.labelled_eq_failed_iff] at h
      obtain ⟨bare, hbare, rfl⟩ := h
      have hrule' : g.applyRule r c = .failed bare := applyRule_eq_failed_iff.mpr hbare
      exact .inr ⟨r, bare, rfl, hrule', bareFailure_of_applyRule hc hrule', rfl⟩

/-- What a rule comes to by itself has no label, and what a name comes to is this with the name
as its label. Below the root of either, a label stands on the only child of a node without value
or of a nested failure. All labels are declared names; an undeclared name labels nothing, the
failure that reports it included. -/
theorem labels_at_named_rules (g : Grammar α κ) (c : Cursor α) (hc : c.pos ≤ c.input.size) :
    ((∀ r tree next, g.applyRule r c = .done (tree, next) →
        tree.label = none ∧ ∀ entry ∈ tree.preorder 0, entry.2.LabelledIn g.names) ∧
      ∀ r f, g.applyRule r c = .failed f →
        f.name = none ∧ ∀ entry ∈ f.preorder 0, entry.2.NamedIn g.names) ∧
    (∀ name tree next, g.applyNamed name c = .done (tree, next) →
      (∃ r bare, g.rule? name = some r ∧ g.applyRule r c = .done (bare, next) ∧
        bare.label = none ∧ tree = bare.labelled name) ∧
      ∀ entry ∈ tree.preorder 0, entry.2.LabelledIn g.names) ∧
    ∀ name f, g.applyNamed name c = .failed f →
      ((g.rule? name = none ∧ f = { cause := .unknownRule name, pos := c.pos }) ∨
        ∃ r bare, g.rule? name = some r ∧ g.applyRule r c = .failed bare ∧
          bare.name = none ∧ f = bare.named name) ∧
      ∀ entry ∈ f.preorder 0, entry.2.NamedIn g.names := by
  refine ⟨⟨?_, ?_⟩, ?_, ?_⟩
  · intro r tree next h
    have hbare := bareTree_of_applyRule hc h
    exact ⟨hbare.label_eq, fun entry hentry => hbare.labels.of_mem_preorder hentry⟩
  · intro r f h
    have hbare := bareFailure_of_applyRule hc h
    exact ⟨hbare.name_eq, fun entry hentry => hbare.names.of_mem_preorder hentry⟩
  · intro name tree next h
    obtain ⟨r, bare, hrule, happly, hbare, rfl⟩ := exists_bareTree_of_applyNamed hc h
    have hlabels := hbare.labels.labelled (mem_names_of_rule hrule)
    exact ⟨⟨r, bare, hrule, happly, hbare.label_eq, rfl⟩,
      fun entry hentry => hlabels.of_mem_preorder hentry⟩
  · intro name f h
    rcases exists_bareFailure_of_applyNamed hc h with
      ⟨hrule, rfl⟩ | ⟨r, bare, hrule, happly, hbare, rfl⟩
    · refine ⟨.inl ⟨hrule, rfl⟩, fun entry hentry => ?_⟩
      exact (Failure.namedIn_unknown name c.pos).of_mem_preorder hentry
    · have hnames := hbare.names.named (mem_names_of_rule hrule) hbare.cause_ne
      exact ⟨.inr ⟨r, bare, hrule, happly, hbare.name_eq, rfl⟩,
        fun entry hentry => hnames.of_mem_preorder hentry⟩

/-- A name that stands for another, of which one alternative is not declared. -/
private def chainGrammar : Grammar Char Char where
  start := "outer"
  rules := [("outer", .ref "inner"), ("inner", .alt [.ref "missing", .literal 'a'])]
  distinct := by decide
  start_declared := by decide

/-- Each of two calls, one within the other, has a label of its own, also where the inner one
fails. What reports the undeclared name has none. -/
theorem labels_at_named_rules_chain :
    let c : Cursor Char := ⟨#['a'], 0⟩
    let c' : Cursor Char := ⟨#['b'], 0⟩
    let call : ParseTree Char := .branch [(ParseTree.branch [.leaf 'a']).labelled "inner"]
    let unknown : Failure := { cause := .unknownRule "missing" }
    let choice : Failure :=
      Matcher.noAlternative 0 [.nested 0 unknown, { cause := .mismatch "'a'" "'b'" }]
    let f : Failure := .nested 0 (choice.named "inner")
    (c.pos ≤ c.input.size ∧ c'.pos ≤ c'.input.size) ∧
      ((chainGrammar.applyRule (.ref "inner") c = .done (call, c.moveTo 1) ∧
          call.label = none) ∧
        chainGrammar.applyRule (.ref "inner") c' = .failed f ∧ f.name = none) ∧
      (chainGrammar.applyNamed "outer" c = .done (call.labelled "outer", c.moveTo 1) ∧
        (1, (ParseTree.branch [.leaf 'a']).labelled "inner") ∈
          (call.labelled "outer").preorder 0 ∧
        (call.labelled "outer").LabelledIn chainGrammar.names) ∧
      chainGrammar.applyNamed "outer" c' = .failed (f.named "outer") ∧
        (3, unknown) ∈ (f.named "outer").preorder 0 ∧
        unknown.NamedIn chainGrammar.names := by
  intro c c' call unknown choice f
  have hc : c.pos ≤ c.input.size := Nat.zero_le _
  have hc' : c'.pos ≤ c'.input.size := Nat.zero_le _
  obtain ⟨⟨hrule, -⟩, hnamed, -⟩ := chainGrammar.labels_at_named_rules c hc
  obtain ⟨⟨-, hrule'⟩, -, hnamed'⟩ := chainGrammar.labels_at_named_rules c' hc'
  have hdone : chainGrammar.applyRule (.ref "inner") c = .done (call, c.moveTo 1) := rfl
  have hfailed : chainGrammar.applyRule (.ref "inner") c' = .failed f := rfl
  have houter : chainGrammar.applyNamed "outer" c =
      .done (call.labelled "outer", c.moveTo 1) := rfl
  have houter' : chainGrammar.applyNamed "outer" c' = .failed (f.named "outer") := rfl
  have hunknown : (3, unknown) ∈ (f.named "outer").preorder 0 := by decide
  have hinner : (1, (ParseTree.branch [.leaf 'a']).labelled "inner") ∈
      (call.labelled "outer").preorder 0 := by decide
  have hroot : (0, call.labelled "outer") ∈ (call.labelled "outer").preorder 0 := by decide
  exact ⟨⟨hc, hc'⟩, ⟨⟨hdone, (hrule _ _ _ hdone).1⟩, hfailed, (hrule' _ _ hfailed).1⟩,
    ⟨houter, hinner, (hnamed _ _ _ houter).2 _ hroot⟩,
    houter', hunknown, (hnamed' _ _ houter').2 _ hunknown⟩

end Grammar

end Peg
