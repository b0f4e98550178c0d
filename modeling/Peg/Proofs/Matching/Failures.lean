import Peg.Proofs.Matching.Derivations

/-!
What a rule fails with, said by rules of inference. A failure keeps the failures that it
rests on: that of the part which broke off, or those of all alternatives. A rule has a
failure just where it fails, and the matcher of the rule fails with no other.
-/

namespace Peg

namespace Failure

theorem preorder_eq (depth : Nat) (f : Failure) :
    f.preorder depth = (depth, f) :: f.children.flatMap (preorder (depth + 1)) := by
  cases f
  simp [preorder, preorderAll_eq_flatMap]

/-- A property of a failure and of all failures that it rests on. -/
inductive Everywhere (P : Failure → Prop) : Failure → Prop
  | node {f : Failure} (here : P f) (below : ∀ e ∈ f.children, Everywhere P e) : Everywhere P f

theorem Everywhere.here {P : Failure → Prop} {f : Failure} : f.Everywhere P → P f
  | .node here _ => here

theorem Everywhere.mono {P Q : Failure → Prop} {f : Failure} (h : f.Everywhere P)
    (hPQ : ∀ e, P e → Q e) : f.Everywhere Q := by
  induction h with
  | node here below ih => exact .node (hPQ _ here) ih

theorem Everywhere.of_mem_preorder {P : Failure → Prop} {f : Failure} (h : f.Everywhere P)
    {depth : Nat} {entry : Nat × Failure} (hentry : entry ∈ f.preorder depth) : P entry.2 := by
  induction h generalizing depth with
  | node here below ih =>
      rw [preorder_eq, List.mem_cons, List.mem_flatMap] at hentry
      rcases hentry with rfl | ⟨e, he, hentry⟩
      · exact here
      · exact ih e he hentry

end Failure

namespace Grammar

variable {α κ : Type} [Key κ] [Item α κ]

/-- Each rule matches or fails, and those that match are listed in their order. -/
inductive Sorts (g : Grammar α κ) (input : Array α) :
    List (Rule α κ) → Nat → List (Rule α κ) → Prop
  | nil {p : Nat} : Sorts g input [] p []
  | matched {r : Rule α κ} {rules found : List (Rule α κ)} {p q : Nat} {tree : ParseTree α}
      (head : g.Matches input r p tree q) (tail : Sorts g input rules p found) :
      Sorts g input (r :: rules) p (r :: found)
  | failed {r : Rule α κ} {rules found : List (Rule α κ)} {p : Nat}
      (head : g.Fails input r p) (tail : Sorts g input rules p found) :
      Sorts g input (r :: rules) p found

mutual

/-- A rule fails at a position with a failure. -/
inductive FailsWith (g : Grammar α κ) (input : Array α) : Rule α κ → Nat → Failure → Prop
  | exhausted {r : Rule α κ} {accept : α → Bool} {p : Nat}
      (single : r.accept? = some accept) (ended : input[p]? = none) :
      FailsWith g input r p { cause := .exhausted, pos := p }
  | refused {r : Rule α κ} {accept : α → Bool} {p : Nat} {x : α}
      (single : r.accept? = some accept) (here : input[p]? = some x)
      (rejected : accept x = false) :
      FailsWith g input r p { cause := r.refusal x, pos := p }
  | seq {before after : List (Rule α κ)} {r : Rule α κ} {p q : Nat}
      {trees : List (ParseTree α)} {f : Failure} (parts : g.InOrder input before p trees q)
      (part : FailsWith g input r q f) :
      FailsWith g input (.seq (before ++ r :: after)) p (.nested p f)
  | alt {rules : List (Rule α κ)} {p : Nat} {fs : List Failure}
      (all : AllFailWith g input rules p fs) :
      FailsWith g input (.alt rules) p (Matcher.noAlternative p fs)
  | oneOf {rules : List (Rule α κ)} {p : Nat} {fs : List Failure}
      (all : AllFailWith g input rules p fs) :
      FailsWith g input (.oneOf rules) p (Matcher.noAlternative p fs)
  | ambiguous {rules found : List (Rule α κ)} {p : Nat} (sorts : g.Sorts input rules p found)
      (several : 2 ≤ found.length) :
      FailsWith g input (.oneOf rules) p
        { cause := .ambiguous (found.map Rule.render), pos := p }
  | plus {r : Rule α κ} {p : Nat} {f : Failure} (first : FailsWith g input r p f) :
      FailsWith g input (.plus r) p (.nested p f)
  | untilEnd {r : Rule α κ} {p q : Nat} {trees : List (ParseTree α)} {f : Failure}
      (chain : g.Chain input r p trees q) (before_end : q < input.size)
      (part : FailsWith g input r q f) : FailsWith g input (.untilEnd r) p (.nested p f)
  | noProgress {r : Rule α κ} {p q : Nat} {trees : List (ParseTree α)} {tree : ParseTree α}
      (chain : g.Chain input r p trees q) (before_end : q < input.size)
      (nothing : g.Matches input r q tree q) :
      FailsWith g input (.untilEnd r) p { cause := .noProgress, pos := q }
  | exceptEnd {r : Rule α κ} {p : Nat} (ended : input[p]? = none) :
      FailsWith g input (.except r) p { cause := .exhausted, pos := p }
  | except {r : Rule α κ} {p q : Nat} {x : α} {tree : ParseTree α}
      (here : input[p]? = some x) (part : g.Matches input r p tree q) :
      FailsWith g input (.except r) p { cause := .unexpectedMatch r.render, pos := p }
  | undeclared {name : String} {p : Nat} (unknown : g.rule? name = none) :
      FailsWith g input (.ref name) p (.nested p { cause := .unknownRule name, pos := p })
  | ref {name : String} {r : Rule α κ} {p : Nat} {f : Failure}
      (declared : g.rule? name = some r) (body : FailsWith g input r p f) :
      FailsWith g input (.ref name) p (.nested p (f.named name))

/-- Rules fail at one position, each with its own failure. -/
inductive AllFailWith (g : Grammar α κ) (input : Array α) :
    List (Rule α κ) → Nat → List Failure → Prop
  | nil {p : Nat} : AllFailWith g input [] p []
  | cons {r : Rule α κ} {rules : List (Rule α κ)} {p : Nat} {f : Failure}
      {fs : List Failure} (head : FailsWith g input r p f)
      (tail : AllFailWith g input rules p fs) : AllFailWith g input (r :: rules) p (f :: fs)

end

variable {g : Grammar α κ} {input : Array α}

/-- A failure tells where its rule was tried, unless it got stuck behind that place. -/
theorem FailsWith.pos_eq {r : Rule α κ} {p : Nat} {f : Failure}
    (h : g.FailsWith input r p f) (hcause : f.cause ≠ .noProgress) : f.pos = p := by
  cases h with
  | noProgress chain before_end nothing => exact absurd rfl hcause
  | _ => rfl

theorem exists_allFailWith {rules : List (Rule α κ)} {p : Nat}
    (h : ∀ r ∈ rules, ∃ f, g.FailsWith input r p f) :
    ∃ fs, g.AllFailWith input rules p fs := by
  induction rules with
  | nil => exact ⟨[], .nil⟩
  | cons r rules ih =>
      obtain ⟨⟨f, hf⟩, hrules⟩ := List.forall_mem_cons.mp h
      obtain ⟨fs, hfs⟩ := ih hrules
      exact ⟨f :: fs, .cons hf hfs⟩

theorem Tally.sorts {rules : List (Rule α κ)} {p n : Nat} :
    g.Tally input rules p n → ∃ found, g.Sorts input rules p found ∧ found.length = n
  | .nil => ⟨[], .nil, rfl⟩
  | .matched head tail => by
      obtain ⟨found, hfound, rfl⟩ := tail.sorts
      exact ⟨_ :: found, .matched head hfound, rfl⟩
  | .failed head tail => by
      obtain ⟨found, hfound, hlength⟩ := tail.sorts
      exact ⟨found, .failed head hfound, hlength⟩

mutual

theorem Fails.exists_failsWith {r : Rule α κ} {p : Nat} :
    g.Fails input r p → ∃ f, g.FailsWith input r p f
  | .exhausted single ended => ⟨_, .exhausted single ended⟩
  | .refused single here rejected => ⟨_, .refused single here rejected⟩
  | .seq parts part => by
      obtain ⟨f, hf⟩ := part.exists_failsWith
      exact ⟨_, .seq parts hf⟩
  | .alt all => by
      obtain ⟨fs, hfs⟩ := exists_allFailWith fun r hr => (all r hr).exists_failsWith
      exact ⟨_, .alt hfs⟩
  | .oneOf tally not_one => by
      obtain ⟨found, hfound, hlength⟩ := tally.sorts
      rcases Nat.eq_zero_or_pos found.length with hzero | hpos
      · obtain ⟨fs, hfs⟩ := tally.exists_allFailWith (by omega)
        exact ⟨_, .oneOf hfs⟩
      · exact ⟨_, .ambiguous hfound (by omega)⟩
  | .plus first => by
      obtain ⟨f, hf⟩ := first.exists_failsWith
      exact ⟨_, .plus hf⟩
  | .untilEnd chain stops before_end => by
      rcases stops.exists_failsWith with ⟨f, hf⟩ | ⟨tree, htree⟩
      · exact ⟨_, .untilEnd chain before_end hf⟩
      · exact ⟨_, .noProgress chain before_end htree⟩
  | .exceptEnd ended => ⟨_, .exceptEnd ended⟩
  | .except here part => ⟨_, .except here part⟩
  | .undeclared unknown => ⟨_, .undeclared unknown⟩
  | .ref declared body => by
      obtain ⟨f, hf⟩ := body.exists_failsWith
      exact ⟨_, .ref declared hf⟩

theorem Stops.exists_failsWith {r : Rule α κ} {p : Nat} :
    g.Stops input r p →
      (∃ f, g.FailsWith input r p f) ∨ ∃ tree, g.Matches input r p tree p
  | .fails part => .inl part.exists_failsWith
  | .nothing part => .inr ⟨_, part⟩

theorem Tally.exists_allFailWith {rules : List (Rule α κ)} {p n : Nat} :
    g.Tally input rules p n → n = 0 → ∃ fs, g.AllFailWith input rules p fs
  | .nil, _ => ⟨[], .nil⟩
  | .matched _ _, h => absurd h (Nat.succ_ne_zero _)
  | .failed head tail, h => by
      obtain ⟨f, hf⟩ := head.exists_failsWith
      obtain ⟨fs, hfs⟩ := tail.exists_allFailWith h
      exact ⟨f :: fs, .cons hf hfs⟩

end

/-- What a choice of exactly one finds are the alternatives that match. -/
theorem Sorts.survey {rules found : List (Rule α κ)} {p : Nat} (hp : p ≤ input.size)
    (h : g.Sorts input rules p found) :
    (∀ x ∈ rules.map (fun r => (r, g.ruleMatcher input r)), x.2 p ≠ .endless) ∧
      ((rules.map fun r => (r, g.ruleMatcher input r)).filterMap
        fun x => (x.2 p).value?.map (x.1, ·)).map Prod.fst = found := by
  induction h with
  | nil => exact ⟨by simp, rfl⟩
  | matched head tail ih =>
      have hhead := head.ruleMatcher_eq hp
      obtain ⟨hends, hfound⟩ := ih hp
      exact ⟨by simpa [hhead] using hends, by simpa [hhead, Outcome.value?] using hfound⟩
  | failed head tail ih =>
      obtain ⟨f, hf⟩ := head.ruleMatcher_eq hp
      obtain ⟨hends, hfound⟩ := ih hp
      exact ⟨by simpa [hf] using hends, by simpa [hf, Outcome.value?] using hfound⟩

mutual

theorem FailsWith.ruleMatcher_eq {r : Rule α κ} {p : Nat} {f : Failure} :
    g.FailsWith input r p f → p ≤ input.size → g.ruleMatcher input r p = .failed f
  | .exhausted single ended, _ => by
      rw [ruleMatcher_of_accept? single]
      exact Matcher.one_eq_failed_iff.mpr (.inl ⟨ended, rfl⟩)
  | .refused single here rejected, _ => by
      rw [ruleMatcher_of_accept? single]
      exact Matcher.one_eq_failed_iff.mpr (.inr ⟨_, here, rejected, rfl⟩)
  | .seq parts part, hp => by
      obtain ⟨hparts, hq⟩ := parts.consecutive hp
      rw [ruleMatcher_seq, List.map_append, List.map_cons]
      exact Matcher.sequence_eq_failed_iff.mpr
        ⟨_, _, _, _, _, rfl, hparts, part.ruleMatcher_eq hq, rfl⟩
  | .alt all, hp => by
      rw [ruleMatcher_alt]
      refine Matcher.firstOf_eq_failed_iff.mpr ⟨_, ?_, rfl⟩
      rw [List.map_map]
      exact all.map_ruleMatcher_eq hp
  | .oneOf all, hp => by
      rw [ruleMatcher_oneOf]
      refine Matcher.exactlyOne_eq_noAlternative ?_
      rw [List.map_map]
      exact all.map_ruleMatcher_eq hp
  | .ambiguous sorts several, hp => by
      obtain ⟨hends, rfl⟩ := sorts.survey hp
      rw [List.length_map] at several
      rw [ruleMatcher_oneOf, List.map_map]
      exact Matcher.exactlyOne_eq_ambiguous hends several
  | .plus first, hp => by
      rw [ruleMatcher_plus]
      exact Matcher.oneOrMore_eq_failed_iff.mpr ⟨_, first.ruleMatcher_eq hp, rfl⟩
  | .untilEnd chain before_end part, hp => by
      obtain ⟨hrounds, hq⟩ := chain.rounds hp
      have hb := g.ruleMatcher_bounded input
      rw [ruleMatcher_untilEnd]
      exact (Matcher.untilEnd_eq_failed_iff (hb _) hp).mpr
        ⟨_, hrounds, before_end, .inl ⟨_, part.ruleMatcher_eq hq, rfl⟩⟩
  | .noProgress chain before_end nothing, hp => by
      obtain ⟨hrounds, hq⟩ := chain.rounds hp
      have hb := g.ruleMatcher_bounded input
      rw [ruleMatcher_untilEnd]
      exact (Matcher.untilEnd_eq_failed_iff (hb _) hp).mpr
        ⟨_, hrounds, before_end, .inr ⟨_, nothing.ruleMatcher_eq hq, rfl⟩⟩
  | .exceptEnd ended, _ => by
      rw [ruleMatcher_except]
      exact Matcher.except_eq_failed_iff.mpr (.inl ⟨ended, rfl⟩)
  | .except here part, hp => by
      rw [ruleMatcher_except]
      exact Matcher.except_eq_failed_iff.mpr (.inr ⟨_, _, here, part.ruleMatcher_eq hp, rfl⟩)
  | .undeclared unknown, hp =>
      Matcher.within_eq_failed_iff.mpr ⟨_, namedMatcher_undeclared unknown hp, rfl⟩
  | .ref declared body, hp =>
      Matcher.within_eq_failed_iff.mpr
        ⟨_, namedMatcher_eq_failed declared hp (body.ruleMatcher_eq hp), rfl⟩

theorem AllFailWith.map_ruleMatcher_eq {rules : List (Rule α κ)} {p : Nat}
    {fs : List Failure} :
    g.AllFailWith input rules p fs → p ≤ input.size →
      rules.map (fun r => g.ruleMatcher input r p) = fs.map .failed
  | .nil, _ => rfl
  | .cons head tail, hp => by
      rw [List.map_cons, List.map_cons, head.ruleMatcher_eq hp, tail.map_ruleMatcher_eq hp]

end

theorem ruleMatcher_eq_failed_iff {r : Rule α κ} {p : Nat} (hp : p ≤ input.size)
    {f : Failure} : g.ruleMatcher input r p = .failed f ↔ g.FailsWith input r p f := by
  constructor
  · intro h
    obtain ⟨e, he⟩ := ((exists_ruleMatcher_eq_failed_iff hp).mp ⟨f, h⟩).exists_failsWith
    cases h.symm.trans (he.ruleMatcher_eq hp)
    exact he
  · intro h
    exact h.ruleMatcher_eq hp

end Grammar

end Peg
