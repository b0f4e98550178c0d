import Peg.Proofs.Matching.Failures
import Peg.Proofs.Matching.LeftRecursion

/-!
What stands in the tree of a failed application. Each failure lies between the place where the
rule was applied and the end of the input, and not behind those below it. Its cause rests on a
rule that occurs in the application, on the input at its place, and on the failures below it.
-/

namespace Peg

variable {α κ : Type}

namespace Rule

/-- The rules that a rule is put together from. -/
def parts : Rule α κ → List (Rule α κ)
  | .literal _ | .range _ _ | .predicate _ | .ref _ => []
  | .seq rules | .alt rules | .oneOf rules => rules
  | .star r | .plus r | .opt r | .untilEnd r | .except r => [r]

theorem refs_subset_of_mem_parts {r s : Rule α κ} (h : s ∈ r.parts) : s.refs ⊆ r.refs := by
  have hlist {rules : List (Rule α κ)} (h : s ∈ rules) : s.refs ⊆ rules.flatMap refs :=
    fun name hname => List.mem_flatMap_of_mem h hname
  cases r with
  | literal key => cases h
  | range lo hi => cases h
  | predicate q => cases h
  | ref name => cases h
  | seq rules => exact refs_seq rules ▸ hlist h
  | alt rules => exact refs_alt rules ▸ hlist h
  | oneOf rules => exact refs_oneOf rules ▸ hlist h
  | star r => exact (List.mem_singleton.mp h) ▸ List.Subset.refl _
  | plus r => exact (List.mem_singleton.mp h) ▸ List.Subset.refl _
  | opt r => exact (List.mem_singleton.mp h) ▸ List.Subset.refl _
  | untilEnd r => exact (List.mem_singleton.mp h) ▸ List.Subset.refl _
  | except r => exact (List.mem_singleton.mp h) ▸ List.Subset.refl _

end Rule

namespace Grammar

/-- The rules that an application of a rule may come upon: itself, the rules of the grammar,
and their parts. -/
inductive Occurs (g : Grammar α κ) (r : Rule α κ) : Rule α κ → Prop
  | self : Occurs g r r
  | declared {name : String} {s : Rule α κ} (entry : g.rule? name = some s) : Occurs g r s
  | part {s t : Rule α κ} (whole : Occurs g r s) (part : t ∈ s.parts) : Occurs g r t

/-- A rule and the rules of the grammar refer to declared names only. -/
structure Resolves (g : Grammar α κ) (r : Rule α κ) : Prop where
  rule : ∀ name ∈ r.refs, name ∈ g.rules.map Prod.fst
  rules : ∀ entry ∈ g.rules, ∀ name ∈ entry.2.refs, name ∈ g.rules.map Prod.fst

theorem Occurs.refs_declared {g : Grammar α κ} {r s : Rule α κ} (h : g.Occurs r s)
    (hr : g.Resolves r) : ∀ name ∈ s.refs, name ∈ g.rules.map Prod.fst := by
  induction h with
  | self => exact hr.rule
  | declared entry => exact hr.rules _ (g.rule?_eq_some_iff.mp entry)
  | part whole part ih =>
      exact fun name hname => ih name (Rule.refs_subset_of_mem_parts part hname)

/-- What consumes nothing need not be known where only the direction of matching counts. -/
theorem nullClosed_always (g : Grammar α κ) : g.NullClosed fun _ => true :=
  fun _ _ _ _ => rfl

variable [Key κ] [Item α κ]

/-- What the cause of a failure at a position rests on. Besides the failures below it these are
rules that occur in an application, and what these come to at the position. -/
inductive Grounds (g : Grammar α κ) (input : Array α) (r : Rule α κ) :
    Cause → Nat → List Failure → Prop
  | exhausted : Grounds g input r .exhausted input.size []
  | mismatch {s : Rule α κ} {accept : α → Bool} {p : Nat} (occurs : g.Occurs r s)
      (single : s.accept? = some accept) (before_end : p < input.size)
      (rejected : accept input[p] = false) :
      Grounds g input r (.mismatch s.render (Key.quote (Item.key input[p]))) p []
  | unexpectedMatch {s : Rule α κ} {p : Nat} (occurs : g.Occurs r (.except s))
      (before_end : p < input.size) (unwanted : ∃ m, g.ruleMatcher input s p = .done m) :
      Grounds g input r (.unexpectedMatch s.render) p []
  | nested {p : Nat} {child : Failure} : Grounds g input r .nested p [child]
  | noAlternative {alternatives : List (Rule α κ)} {p : Nat} {children : List Failure}
      (occurs : g.Occurs r (.alt alternatives) ∨ g.Occurs r (.oneOf alternatives))
      (each : alternatives.map (g.ruleMatcher input · p) = children.map .failed) :
      Grounds g input r .noAlternative p children
  | ambiguous {alternatives found : List (Rule α κ)} {p : Nat}
      (occurs : g.Occurs r (.oneOf alternatives)) (among : found.Sublist alternatives)
      (several : 2 ≤ found.length)
      (matching : ∀ s ∈ found, ∃ m, g.ruleMatcher input s p = .done m) :
      Grounds g input r (.ambiguous (found.map Rule.render)) p []
  | noProgress {s : Rule α κ} {p : Nat} (occurs : g.Occurs r (.untilEnd s))
      (before_end : p < input.size)
      (nothing : ∃ tree, g.ruleMatcher input s p = .done ⟨tree, p⟩) :
      Grounds g input r .noProgress p []
  | unknownRule {name : String} {p : Nat} (occurs : g.Occurs r (.ref name))
      (undeclared : g.rule? name = none) : Grounds g input r (.unknownRule name) p []

/-- A failure lies between a position and the end of the input, and not behind those below it,
and its cause has grounds. -/
structure Located (g : Grammar α κ) (input : Array α) (r : Rule α κ) (start : Nat)
    (f : Failure) : Prop where
  start_le : start ≤ f.pos
  le_size : f.pos ≤ input.size
  le_children : ∀ e ∈ f.children, f.pos ≤ e.pos
  grounds : g.Grounds input r f.cause f.pos f.children

variable {g : Grammar α κ} {input : Array α} {r : Rule α κ} {p q : Nat} {f : Failure}

theorem Located.of_le (h : g.Located input r q f) (hle : p ≤ q) : g.Located input r p f :=
  { h with start_le := hle.trans h.start_le }

theorem located_single {cause : Cause} (hle : p ≤ q) (hq : q ≤ input.size)
    (h : g.Grounds input r cause q []) :
    Failure.Everywhere (g.Located input r p) { cause, pos := q } :=
  .node ⟨hle, hq, by simp, h⟩ (by simp)

theorem located_nested (hle : p ≤ q) (h : f.Everywhere (g.Located input r q)) :
    (Failure.nested p f).Everywhere (g.Located input r p) := by
  have hbehind : p ≤ f.pos := hle.trans h.here.start_le
  refine .node ⟨Nat.le_refl p, hbehind.trans h.here.le_size, ?_, .nested⟩ ?_
  · exact List.forall_mem_singleton.mpr hbehind
  · exact List.forall_mem_singleton.mpr (h.mono fun e he => he.of_le hle)

theorem located_named {name : String} (h : f.Everywhere (g.Located input r p)) :
    (f.named name).Everywhere (g.Located input r p) := by
  cases h with
  | node here below =>
      exact .node ⟨here.start_le, here.le_size, here.le_children, here.grounds⟩ below

theorem located_noAlternative {alternatives : List (Rule α κ)} {fs : List Failure}
    (hp : p ≤ input.size)
    (occurs : g.Occurs r (.alt alternatives) ∨ g.Occurs r (.oneOf alternatives))
    (each : alternatives.map (g.ruleMatcher input · p) = fs.map .failed)
    (h : ∀ e ∈ fs, e.Everywhere (g.Located input r p)) :
    (Matcher.noAlternative p fs).Everywhere (g.Located input r p) :=
  .node ⟨Nat.le_refl p, hp, fun e he => (h e he).here.start_le, .noAlternative occurs each⟩ h

theorem Sorts.sublist {rules found : List (Rule α κ)} (h : g.Sorts input rules p found) :
    found.Sublist rules := by
  induction h with
  | nil => exact .slnil
  | matched head tail ih => exact ih.cons_cons _
  | failed head tail ih => exact ih.cons _

theorem Sorts.matching {rules found : List (Rule α κ)} (h : g.Sorts input rules p found)
    (hp : p ≤ input.size) : ∀ s ∈ found, ∃ m, g.ruleMatcher input s p = .done m := by
  induction h with
  | nil => simp
  | matched head tail ih => exact List.forall_mem_cons.mpr ⟨⟨_, head.ruleMatcher_eq hp⟩, ih hp⟩
  | failed head tail ih => exact ih hp

mutual

/-- The induction is on how the failure is derived. A part is tried at or behind the place of the
whole, so what is located from there on is so from the place of the whole. -/
theorem FailsWith.located {s : Rule α κ} {p : Nat} {f : Failure} :
    g.FailsWith input s p f → p ≤ input.size → g.Occurs r s →
      f.Everywhere (g.Located input r p)
  | .exhausted _ ended, hp, _ => by
      obtain rfl : p = input.size := hp.antisymm (Array.getElem?_eq_none_iff.mp ended)
      exact located_single (Nat.le_refl _) (Nat.le_refl _) .exhausted
  | .refused single here rejected, hp, hs => by
      obtain ⟨hlt, rfl⟩ := Array.getElem?_eq_some_iff.mp here
      exact located_single (Nat.le_refl _) hp (.mismatch hs single hlt rejected)
  | .seq parts part, hp, hs =>
      located_nested (parts.consumes g.nullClosed_always).1
        (part.located (parts.consecutive hp).2 (hs.part (by simp [Rule.parts])))
  | .alt all, hp, hs =>
      located_noAlternative hp (.inl hs) (all.map_ruleMatcher_eq hp)
        (all.located hp fun t ht => hs.part ht)
  | .oneOf all, hp, hs =>
      located_noAlternative hp (.inr hs) (all.map_ruleMatcher_eq hp)
        (all.located hp fun t ht => hs.part ht)
  | .ambiguous sorts several, hp, hs =>
      located_single (Nat.le_refl _) hp
        (.ambiguous hs sorts.sublist several (sorts.matching hp))
  | .plus first, hp, hs =>
      located_nested (Nat.le_refl _) (first.located hp (hs.part (by simp [Rule.parts])))
  | .untilEnd chain _ part, hp, hs =>
      located_nested (chain.le g.nullClosed_always)
        (part.located (chain.rounds hp).2 (hs.part (by simp [Rule.parts])))
  | .noProgress chain before_end nothing, _, hs =>
      located_single (chain.le g.nullClosed_always) before_end.le
        (.noProgress hs before_end ⟨_, nothing.ruleMatcher_eq before_end.le⟩)
  | .exceptEnd ended, hp, _ => by
      obtain rfl : p = input.size := hp.antisymm (Array.getElem?_eq_none_iff.mp ended)
      exact located_single (Nat.le_refl _) (Nat.le_refl _) .exhausted
  | .except here part, hp, hs => by
      obtain ⟨hlt, -⟩ := Array.getElem?_eq_some_iff.mp here
      exact located_single (Nat.le_refl _) hp
        (.unexpectedMatch hs hlt ⟨_, part.ruleMatcher_eq hp⟩)
  | .undeclared unknown, hp, hs =>
      located_nested (Nat.le_refl _)
        (located_single (Nat.le_refl _) hp (.unknownRule hs unknown))
  | .ref declared body, hp, hs =>
      located_nested (Nat.le_refl _) (located_named (body.located hp (.declared declared)))

theorem AllFailWith.located {rules : List (Rule α κ)} {p : Nat} {fs : List Failure} :
    g.AllFailWith input rules p fs → p ≤ input.size → (∀ s ∈ rules, g.Occurs r s) →
      ∀ e ∈ fs, e.Everywhere (g.Located input r p)
  | .nil, _, _ => by simp
  | .cons head tail, hp, hrules => by
      obtain ⟨hhead, htail⟩ := List.forall_mem_cons.mp hrules
      exact List.forall_mem_cons.mpr ⟨head.located hp hhead, tail.located hp htail⟩

end

/-- A cause that names an undeclared rule has such a name to rest on. -/
theorem Grounds.cause_ne_unknownRule {cause : Cause} {children : List Failure}
    (h : g.Grounds input r cause p children) (hr : g.Resolves r) (name : String) :
    cause ≠ .unknownRule name := by
  rintro rfl
  cases h with
  | unknownRule occurs undeclared =>
      have hname := occurs.refs_declared hr name List.mem_cons_self
      have hdeclared := g.isSome_rule? hname
      rw [undeclared] at hdeclared
      cases hdeclared

/-- The failure of an application is told from the place of the application, unless a repetition
got stuck behind it. All failures of the tree lie between that place and the end, with their
causes well founded; an undeclared rule is the cause of none if all names are declared. -/
theorem failure_located (g : Grammar α κ) (r : Rule α κ) (c : Cursor α)
    (hc : c.pos ≤ c.input.size) (f : Failure) (h : g.applyRule r c = .failed f) :
    (f.cause ≠ .noProgress → f.pos = c.pos) ∧
      (∀ entry ∈ f.preorder 0, g.Located c.input r c.pos entry.2) ∧
      (g.Resolves r → ∀ entry ∈ f.preorder 0, ∀ name, entry.2.cause ≠ .unknownRule name) := by
  have hf := (ruleMatcher_eq_failed_iff hc).mp (applyRule_eq_failed_iff.mp h)
  have hlocated {entry : Nat × Failure} (hentry : entry ∈ f.preorder 0) :
      g.Located c.input r c.pos entry.2 := (hf.located hc .self).of_mem_preorder hentry
  refine ⟨hf.pos_eq, fun entry hentry => hlocated hentry, ?_⟩
  intro hr entry hentry name
  exact (hlocated hentry).grounds.cause_ne_unknownRule hr name

/-- Items between brackets that are not closed. -/
private def openGrammar : Grammar Char Char where
  start := "list"
  rules :=
    [("list", .seq [.literal '[', .ref "item"]),
     ("item", .alt [.literal 'a', .ref "list"])]
  distinct := by decide
  start_declared := by decide

/-- The choice behind the bracket is told with the failures of its two alternatives. -/
theorem failure_located_choice :
    let c : Cursor Char := ⟨#['x', '[', 'c'], 1⟩
    let plain : Failure := { cause := .mismatch "'a'" "'c'", pos := 2 }
    let bracket : Failure := { cause := .mismatch "'['" "'c'", pos := 2 }
    let choice : Failure :=
      (Matcher.noAlternative 2 [plain, .nested 2 ((Failure.nested 2 bracket).named "list")]).named
        "item"
    let f : Failure := .nested 1 ((Failure.nested 1 (.nested 2 choice)).named "list")
    (c.pos ≤ c.input.size ∧ openGrammar.applyRule (.ref "list") c = .failed f) ∧
      (f.cause ≠ .noProgress ∧ f.pos = c.pos) ∧
      ((3, choice) ∈ f.preorder 0 ∧
        openGrammar.Located c.input (.ref "list") c.pos choice) ∧
      openGrammar.Resolves (.ref "list") ∧
        ∀ entry ∈ f.preorder 0, ∀ name, entry.2.cause ≠ .unknownRule name := by
  intro c plain bracket choice f
  have hc : c.pos ≤ c.input.size := by decide
  have hf : openGrammar.applyRule (.ref "list") c = .failed f := rfl
  have hcause : f.cause ≠ .noProgress := by decide
  have hchoice : (3, choice) ∈ f.preorder 0 := by decide
  have hresolves : openGrammar.Resolves (.ref "list") := ⟨by decide, by decide⟩
  obtain ⟨hpos, hlocated, hdeclared⟩ := openGrammar.failure_located _ c hc f hf
  exact ⟨⟨hc, hf⟩, ⟨hcause, hpos hcause⟩, ⟨hchoice, hlocated _ hchoice⟩, hresolves,
    hdeclared hresolves⟩

end Grammar

end Peg
