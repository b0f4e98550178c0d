import Peg.Proofs.Matching.Depth

/-!
When a rule matches and when it fails, said by rules of inference. Nothing in them is
tried, counted or undone: a choice rests on a match of one alternative and on failures
of others, a repetition on a chain of matches, a name on the rule declared for it. What
applying a rule comes to is just what can be derived; an application without end is one
for which neither a match nor a failure can.
-/

namespace Peg

variable {α κ : Type} [Key κ] [Item α κ]

/-- The test of a rule for single items. -/
def Rule.accept? : Rule α κ → Option (α → Bool)
  | .literal key => some fun x => Item.key x == key
  | .range lo hi => some fun x => Key.le lo (Item.key x) && Key.le (Item.key x) hi
  | .predicate p => some p.test
  | _ => none

namespace Grammar

mutual

/-- A rule matches at a position, with a tree and the position behind it. -/
inductive Matches (g : Grammar α κ) (input : Array α) :
    Rule α κ → Nat → ParseTree α → Nat → Prop
  | item {r : Rule α κ} {accept : α → Bool} {p : Nat} {x : α}
      (single : r.accept? = some accept) (here : input[p]? = some x)
      (accepted : accept x = true) : Matches g input r p (.leaf x) (p + 1)
  | seq {rules : List (Rule α κ)} {p q : Nat} {trees : List (ParseTree α)}
      (parts : InOrder g input rules p trees q) :
      Matches g input (.seq rules) p (.branch trees) q
  | alt {before after : List (Rule α κ)} {r : Rule α κ} {p q : Nat} {tree : ParseTree α}
      (earlier : ∀ b ∈ before, Fails g input b p) (chosen : Matches g input r p tree q) :
      Matches g input (.alt (before ++ r :: after)) p (.branch [tree]) q
  | oneOf {before after : List (Rule α κ)} {r : Rule α κ} {p q : Nat} {tree : ParseTree α}
      (others : ∀ b ∈ before ++ after, Fails g input b p)
      (only : Matches g input r p tree q) :
      Matches g input (.oneOf (before ++ r :: after)) p (.branch [tree]) q
  | star {r : Rule α κ} {p q : Nat} {trees : List (ParseTree α)}
      (chain : Chain g input r p trees q) (stops : Stops g input r q) :
      Matches g input (.star r) p (.branch trees) q
  | plus {r : Rule α κ} {p q s : Nat} {tree : ParseTree α} {trees : List (ParseTree α)}
      (first : Matches g input r p tree q) (chain : Chain g input r q trees s)
      (stops : Stops g input r s) : Matches g input (.plus r) p (.branch (tree :: trees)) s
  | optSome {r : Rule α κ} {p q : Nat} {tree : ParseTree α}
      (part : Matches g input r p tree q) : Matches g input (.opt r) p (.branch [tree]) q
  | optNone {r : Rule α κ} {p : Nat} (part : Fails g input r p) :
      Matches g input (.opt r) p (.branch []) p
  | untilEnd {r : Rule α κ} {p : Nat} {trees : List (ParseTree α)}
      (chain : Chain g input r p trees input.size) :
      Matches g input (.untilEnd r) p (.branch trees) input.size
  | except {r : Rule α κ} {p : Nat} {x : α} (here : input[p]? = some x)
      (part : Fails g input r p) : Matches g input (.except r) p (.leaf x) (p + 1)
  | ref {name : String} {r : Rule α κ} {p q : Nat} {tree : ParseTree α}
      (declared : g.rule? name = some r) (body : Matches g input r p tree q) :
      Matches g input (.ref name) p (.branch [tree.labelled name]) q

/-- A rule fails at a position. Neither an option nor a repetition that may end anywhere
ever does. -/
inductive Fails (g : Grammar α κ) (input : Array α) : Rule α κ → Nat → Prop
  | exhausted {r : Rule α κ} {accept : α → Bool} {p : Nat}
      (single : r.accept? = some accept) (ended : input[p]? = none) : Fails g input r p
  | refused {r : Rule α κ} {accept : α → Bool} {p : Nat} {x : α}
      (single : r.accept? = some accept) (here : input[p]? = some x)
      (rejected : accept x = false) : Fails g input r p
  | seq {before after : List (Rule α κ)} {r : Rule α κ} {p q : Nat}
      {trees : List (ParseTree α)} (parts : InOrder g input before p trees q)
      (part : Fails g input r q) : Fails g input (.seq (before ++ r :: after)) p
  | alt {rules : List (Rule α κ)} {p : Nat} (all : ∀ r ∈ rules, Fails g input r p) :
      Fails g input (.alt rules) p
  | oneOf {rules : List (Rule α κ)} {p n : Nat} (tally : Tally g input rules p n)
      (not_one : n ≠ 1) : Fails g input (.oneOf rules) p
  | plus {r : Rule α κ} {p : Nat} (first : Fails g input r p) : Fails g input (.plus r) p
  | untilEnd {r : Rule α κ} {p q : Nat} {trees : List (ParseTree α)}
      (chain : Chain g input r p trees q) (stops : Stops g input r q)
      (before_end : q < input.size) : Fails g input (.untilEnd r) p
  | exceptEnd {r : Rule α κ} {p : Nat} (ended : input[p]? = none) :
      Fails g input (.except r) p
  | except {r : Rule α κ} {p q : Nat} {x : α} {tree : ParseTree α}
      (here : input[p]? = some x) (part : Matches g input r p tree q) :
      Fails g input (.except r) p
  | undeclared {name : String} {p : Nat} (unknown : g.rule? name = none) :
      Fails g input (.ref name) p
  | ref {name : String} {r : Rule α κ} {p : Nat} (declared : g.rule? name = some r)
      (body : Fails g input r p) : Fails g input (.ref name) p

/-- Rules match one behind the other. -/
inductive InOrder (g : Grammar α κ) (input : Array α) :
    List (Rule α κ) → Nat → List (ParseTree α) → Nat → Prop
  | nil {p : Nat} : InOrder g input [] p [] p
  | cons {r : Rule α κ} {rules : List (Rule α κ)} {p q s : Nat} {tree : ParseTree α}
      {trees : List (ParseTree α)} (head : Matches g input r p tree q)
      (tail : InOrder g input rules q trees s) :
      InOrder g input (r :: rules) p (tree :: trees) s

/-- One rule matches over and over, and consumes something each time. -/
inductive Chain (g : Grammar α κ) (input : Array α) :
    Rule α κ → Nat → List (ParseTree α) → Nat → Prop
  | nil {r : Rule α κ} {p : Nat} : Chain g input r p [] p
  | cons {r : Rule α κ} {p q s : Nat} {tree : ParseTree α} {trees : List (ParseTree α)}
      (head : Matches g input r p tree q) (consumes : p < q)
      (tail : Chain g input r q trees s) : Chain g input r p (tree :: trees) s

/-- A chain goes no further where its rule fails or matches nothing. -/
inductive Stops (g : Grammar α κ) (input : Array α) : Rule α κ → Nat → Prop
  | fails {r : Rule α κ} {p : Nat} (part : Fails g input r p) : Stops g input r p
  | nothing {r : Rule α κ} {p : Nat} {tree : ParseTree α}
      (part : Matches g input r p tree p) : Stops g input r p

/-- Each rule matches or fails, and as many match as the number says. -/
inductive Tally (g : Grammar α κ) (input : Array α) : List (Rule α κ) → Nat → Nat → Prop
  | nil {p : Nat} : Tally g input [] p 0
  | matched {r : Rule α κ} {rules : List (Rule α κ)} {p q n : Nat} {tree : ParseTree α}
      (head : Matches g input r p tree q) (tail : Tally g input rules p n) :
      Tally g input (r :: rules) p (n + 1)
  | failed {r : Rule α κ} {rules : List (Rule α κ)} {p n : Nat}
      (head : Fails g input r p) (tail : Tally g input rules p n) :
      Tally g input (r :: rules) p n

end

variable {g : Grammar α κ} {input : Array α}

/-- What a matcher comes to can be derived for a rule. -/
structure Justified (g : Grammar α κ) (input : Array α) (m : Matcher α) (r : Rule α κ) :
    Prop where
  done : ∀ p s, p ≤ input.size → m p = .done s → g.Matches input r p s.tree s.stop
  failed : ∀ p f, p ≤ input.size → m p = .failed f → g.Fails input r p

section Parts

variable {m : Matcher α} {f : Rule α κ → Matcher α} {r : Rule α κ}
  {rules : List (Rule α κ)} {p : Nat}

theorem inOrder_of_consecutive (hrules : ∀ r ∈ rules, g.Justified input (f r) r)
    (hb : ∀ r, Matcher.Bounded input (f r)) (hp : p ≤ input.size) {run : Run α}
    (h : Matcher.Consecutive (rules.map f) p run) :
    g.InOrder input rules p run.trees run.stop ∧ run.stop ≤ input.size := by
  induction rules generalizing p run with
  | nil =>
      cases h
      exact ⟨.nil, hp⟩
  | cons r rules ih =>
      obtain ⟨hr, hrules⟩ := List.forall_mem_cons.mp hrules
      cases h with
      | cons head tail =>
          obtain ⟨htail, hstop⟩ := ih hrules (hb r p _ hp head).2 tail
          exact ⟨.cons (hr.done p _ hp head) htail, hstop⟩

theorem chain_of_rounds (hm : g.Justified input m r) (hb : Matcher.Bounded input m)
    (hp : p ≤ input.size) {run : Run α} (h : Matcher.Rounds m p run) :
    g.Chain input r p run.trees run.stop := by
  induction h with
  | nil p => exact .nil
  | cons head advances tail ih =>
      obtain ⟨hle, hstop⟩ := hb _ _ hp head
      exact .cons (hm.done _ _ hp head) (Nat.lt_of_le_of_ne hle advances.symm) (ih hstop)

theorem stops_of_givesUp (hm : g.Justified input m r) (hp : p ≤ input.size)
    (h : Matcher.GivesUp m p) : g.Stops input r p := by
  rcases h with ⟨f, hf⟩ | ⟨tree, htree⟩
  · exact .fails (hm.failed p f hp hf)
  · exact .nothing (hm.done p _ hp htree)

/-- The alternatives that have a match are as many as a survey of them finds. -/
theorem tally_of_ends (hrules : ∀ r ∈ rules, g.Justified input (f r) r)
    (hp : p ≤ input.size) (hends : ∀ r ∈ rules, f r p ≠ .endless) :
    g.Tally input rules p
      ((rules.map fun r => (r, f r)).filterMap
        fun x => (x.2 p).value?.map (x.1, ·)).length := by
  induction rules with
  | nil => exact .nil
  | cons r rules ih =>
      obtain ⟨hr, hrules⟩ := List.forall_mem_cons.mp hrules
      obtain ⟨hend, hends⟩ := List.forall_mem_cons.mp hends
      have htail := ih hrules hends
      cases hm : f r p with
      | done s =>
          simp only [List.map_cons, List.filterMap_cons, hm, Outcome.value?, Option.map_some,
            List.length_cons]
          exact .matched (hr.done p s hp hm) htail
      | failed e =>
          simp only [List.map_cons, List.filterMap_cons, hm, Outcome.value?, Option.map_none]
          exact .failed (hr.failed p e hp hm) htail
      | endless => exact absurd hm hend

theorem justified_one {accept : α → Bool} (hr : r.accept? = some accept)
    (refusal : α → Cause) : g.Justified input (Matcher.one input accept refusal) r where
  done p s _ h := by
    obtain ⟨x, hx, haccept, rfl⟩ := Matcher.one_eq_done_iff.mp h
    exact .item hr hx haccept
  failed p f _ h := by
    rcases Matcher.one_eq_failed_iff.mp h with ⟨hend, -⟩ | ⟨x, hx, hreject, -⟩
    · exact .exhausted hr hend
    · exact .refused hr hx hreject

theorem justified_sequence (hrules : ∀ r ∈ rules, g.Justified input (f r) r)
    (hb : ∀ r, Matcher.Bounded input (f r)) :
    g.Justified input (Matcher.sequence (rules.map f)) (.seq rules) where
  done p s hp h := by
    obtain ⟨run, hrun, rfl⟩ := Matcher.sequence_eq_done_iff.mp h
    exact .seq (inOrder_of_consecutive hrules hb hp hrun).1
  failed p e hp h := by
    obtain ⟨before, m, after, run, e, hsplit, hbefore, hm, -⟩ :=
      Matcher.sequence_eq_failed_iff.mp h
    obtain ⟨front, back, rfl, rfl, hback⟩ := List.map_eq_append_iff.mp hsplit
    obtain ⟨r, rest, rfl, rfl, -⟩ := List.map_eq_cons_iff.mp hback
    obtain ⟨hfront, hstop⟩ :=
      inOrder_of_consecutive (fun r hr => hrules r (by simp [hr])) hb hp hbefore
    exact .seq hfront ((hrules r (by simp)).failed _ e hstop hm)

theorem justified_firstOf (hrules : ∀ r ∈ rules, g.Justified input (f r) r) :
    g.Justified input (Matcher.firstOf (rules.map f)) (.alt rules) where
  done p s hp h := by
    obtain ⟨before, m, after, t, hsplit, hbefore, hm, rfl⟩ := Matcher.firstOf_eq_done_iff.mp h
    obtain ⟨front, back, rfl, rfl, hback⟩ := List.map_eq_append_iff.mp hsplit
    obtain ⟨r, rest, rfl, rfl, -⟩ := List.map_eq_cons_iff.mp hback
    refine .alt ?_ ((hrules r (by simp)).done p t hp hm)
    intro b hb
    obtain ⟨e, he⟩ := hbefore (f b) (List.mem_map_of_mem hb)
    exact (hrules b (by simp [hb])).failed p e hp he
  failed p e hp h := by
    obtain ⟨fs, hfs, -⟩ := Matcher.firstOf_eq_failed_iff.mp h
    refine .alt ?_
    intro r hr
    have hmem : f r p ∈ (rules.map f).map fun m => m p :=
      List.mem_map_of_mem (List.mem_map_of_mem hr)
    rw [hfs] at hmem
    obtain ⟨e, -, he⟩ := List.mem_map.mp hmem
    exact (hrules r hr).failed p e hp he.symm

theorem justified_exactlyOne {describe : Rule α κ → String}
    (hrules : ∀ r ∈ rules, g.Justified input (f r) r) :
    g.Justified input (Matcher.exactlyOne describe (rules.map fun r => (r, f r)))
      (.oneOf rules) where
  done p s hp h := by
    obtain ⟨before, b, m, after, t, hsplit, hothers, hm, rfl⟩ :=
      Matcher.exactlyOne_eq_done_iff.mp h
    obtain ⟨front, back, rfl, rfl, hback⟩ := List.map_eq_append_iff.mp hsplit
    obtain ⟨r, rest, rfl, hr, rfl⟩ := List.map_eq_cons_iff.mp hback
    cases hr
    refine .oneOf ?_ ((hrules _ (by simp)).done p t hp hm)
    intro b hb
    rw [← List.map_append] at hothers
    obtain ⟨e, he⟩ := hothers (b, f b) (List.mem_map_of_mem hb)
    refine (hrules b ?_).failed p e hp he
    rw [List.perm_middle.mem_iff]
    exact List.mem_cons_of_mem _ hb
  failed p e hp h := by
    obtain ⟨hends, hmatched⟩ := Matcher.exactlyOne_eq_failed_iff.mp h
    refine .oneOf (tally_of_ends hrules hp fun r hr => hends (r, f r) (List.mem_map_of_mem hr)) ?_
    rcases hmatched with ⟨hnil, -⟩ | ⟨a, b, rest, hseveral, -⟩
    · simp [hnil]
    · simp [hseveral]

theorem justified_zeroOrMore (hm : g.Justified input m r) (hb : Matcher.Bounded input m) :
    g.Justified input (Matcher.zeroOrMore input m) (.star r) where
  done p s hp h := by
    obtain ⟨run, hrounds, hend, rfl⟩ := Matcher.zeroOrMore_eq_done h
    have hstop := (hrounds.length_le hb hp).2
    exact .star (chain_of_rounds hm hb hp hrounds) (stops_of_givesUp hm hstop hend)
  failed p f _ h := absurd h Matcher.zeroOrMore_ne_failed

theorem justified_oneOrMore (hm : g.Justified input m r) (hb : Matcher.Bounded input m) :
    g.Justified input (Matcher.oneOrMore input m) (.plus r) where
  done p s hp h := by
    obtain ⟨tree, stop, run, hfirst, hrounds, hend, rfl⟩ := Matcher.oneOrMore_eq_done h
    have hp' := (hb p _ hp hfirst).2
    have hstop := (hrounds.length_le hb hp').2
    exact .plus (hm.done p _ hp hfirst) (chain_of_rounds hm hb hp' hrounds)
      (stops_of_givesUp hm hstop hend)
  failed p f hp h := by
    obtain ⟨e, he, -⟩ := Matcher.oneOrMore_eq_failed_iff.mp h
    exact .plus (hm.failed p e hp he)

theorem justified_optional (hm : g.Justified input m r) :
    g.Justified input (Matcher.optional m) (.opt r) where
  done p s hp h := by
    rcases Matcher.optional_eq_done_iff.mp h with ⟨t, ht, rfl⟩ | ⟨⟨e, he⟩, rfl⟩
    · exact .optSome (hm.done p t hp ht)
    · exact .optNone (hm.failed p e hp he)
  failed p f _ h := absurd h Matcher.optional_ne_failed

theorem justified_untilEnd (hm : g.Justified input m r) (hb : Matcher.Bounded input m) :
    g.Justified input (Matcher.untilEnd input m) (.untilEnd r) where
  done p s hp h := by
    obtain ⟨run, hrounds, hend, rfl⟩ := Matcher.untilEnd_eq_done h
    have hstop : run.stop = input.size := Nat.le_antisymm (hrounds.length_le hb hp).2 hend
    have hchain := chain_of_rounds hm hb hp hrounds
    simp only [Run.asMatch, hstop] at hchain ⊢
    exact .untilEnd hchain
  failed p f hp h := by
    obtain ⟨run, hrounds, hbefore, hbreak⟩ := Matcher.untilEnd_eq_failed h
    refine .untilEnd (chain_of_rounds hm hb hp hrounds) ?_ hbefore
    rcases hbreak with ⟨e, he, -⟩ | ⟨tree, htree, -⟩
    · exact .fails (hm.failed _ e hbefore.le he)
    · exact .nothing (hm.done _ _ hbefore.le htree)

theorem justified_except (hm : g.Justified input m r) (refusal : Unit → Cause) :
    g.Justified input (Matcher.except input m refusal) (.except r) where
  done p s hp h := by
    obtain ⟨x, hx, ⟨e, he⟩, rfl⟩ := Matcher.except_eq_done_iff.mp h
    exact .except hx (hm.failed p e hp he)
  failed p f hp h := by
    rcases Matcher.except_eq_failed_iff.mp h with ⟨hend, -⟩ | ⟨x, s, hx, hs, -⟩
    · exact .exceptEnd hend
    · exact .except hx (hm.done p s hp hs)

end Parts

/-- What a rule comes to is derived if what the names in it come to is. -/
theorem justified_matcher {call : String → Matcher α}
    (hcall : ∀ name, g.Justified input (Matcher.within (call name)) (.ref name))
    (hlossless : ∀ name, Matcher.Lossless input (call name)) (r : Rule α κ) :
    g.Justified input (r.matcher input call) r := by
  have hb (r : Rule α κ) : Matcher.Bounded input (r.matcher input call) :=
    (Rule.matcher_lossless hlossless r).bounded
  induction r with
  | literal key => exact justified_one rfl _
  | range lo hi => exact justified_one rfl _
  | predicate q => exact justified_one rfl _
  | seq rules ih =>
      rw [Rule.matcher_seq]
      exact justified_sequence ih hb
  | alt rules ih =>
      rw [Rule.matcher_alt]
      exact justified_firstOf ih
  | oneOf rules ih =>
      rw [Rule.matcher_oneOf]
      exact justified_exactlyOne ih
  | star r ih => exact justified_zeroOrMore ih (hb r)
  | plus r ih => exact justified_oneOrMore ih (hb r)
  | opt r ih => exact justified_optional ih
  | untilEnd r ih => exact justified_untilEnd ih (hb r)
  | except r ih => exact justified_except ih _
  | ref name => exact hcall name

/-- The induction is on the depth of calls: a call is justified by the rule it enters. -/
theorem justified_callMatcher (g : Grammar α κ) (input : Array α) (depth : Nat) :
    ∀ name, g.Justified input (Matcher.within (g.callMatcher input depth name)) (.ref name) := by
  induction depth with
  | zero =>
      intro name
      exact { done := fun p s _ h => (by cases h), failed := fun p f _ h => (by cases h) }
  | succ depth ih =>
      intro name
      have hrules := justified_matcher ih (g.callMatcher_lossless input depth)
      constructor
      · intro p s hp h
        obtain ⟨t, ht, rfl⟩ := Matcher.within_eq_done_iff.mp h
        unfold callMatcher at ht
        cases hrule : g.rule? name with
        | none => simp [hrule] at ht
        | some r =>
            simp only [hrule, Matcher.labelled_eq_done_iff] at ht
            obtain ⟨u, hu, rfl⟩ := ht
            exact .ref hrule ((hrules r).done p u hp hu)
      · intro p f hp h
        obtain ⟨e, he, -⟩ := Matcher.within_eq_failed_iff.mp h
        unfold callMatcher at he
        cases hrule : g.rule? name with
        | none => exact .undeclared hrule
        | some r =>
            simp only [hrule, Matcher.labelled_eq_failed_iff] at he
            obtain ⟨e', he', -⟩ := he
            exact .ref hrule ((hrules r).failed p e' hp he')

theorem justified_ruleMatcher (g : Grammar α κ) (input : Array α) (r : Rule α κ) :
    g.Justified input (g.ruleMatcher input r) r :=
  justified_matcher (g.justified_callMatcher input _) (g.namedMatcher_lossless input) r

theorem ruleMatcher_of_accept? {r : Rule α κ} {accept : α → Bool}
    (hr : r.accept? = some accept) :
    g.ruleMatcher input r = Matcher.one input accept r.refusal := by
  cases r <;> cases hr
  · exact g.ruleMatcher_literal input _
  · exact g.ruleMatcher_range input _ _
  · exact g.ruleMatcher_predicate input _

mutual

/-- What is derived is what the matcher comes to. Calls need not be counted for this: the
matcher of a name is that of its rule. -/
theorem Matches.ruleMatcher_eq {r : Rule α κ} {p q : Nat} {tree : ParseTree α} :
    g.Matches input r p tree q → p ≤ input.size →
      g.ruleMatcher input r p = .done ⟨tree, q⟩
  | .item single here accepted, _ => by
      rw [ruleMatcher_of_accept? single]
      exact Matcher.one_eq_done_iff.mpr ⟨_, here, accepted, rfl⟩
  | .seq parts, hp => by
      rw [ruleMatcher_seq]
      exact Matcher.sequence_eq_done_iff.mpr ⟨_, (parts.consecutive hp).1, rfl⟩
  | .alt earlier chosen, hp => by
      rw [ruleMatcher_alt, List.map_append, List.map_cons]
      refine Matcher.firstOf_eq_done_iff.mpr
        ⟨_, _, _, _, rfl, ?_, chosen.ruleMatcher_eq hp, rfl⟩
      exact List.forall_mem_map.mpr fun b hb => (earlier b hb).ruleMatcher_eq hp
  | .oneOf others only, hp => by
      rw [ruleMatcher_oneOf, List.map_append, List.map_cons]
      refine Matcher.exactlyOne_eq_done_iff.mpr
        ⟨_, _, _, _, _, rfl, ?_, only.ruleMatcher_eq hp, rfl⟩
      rw [← List.map_append]
      exact List.forall_mem_map.mpr fun b hb => (others b hb).ruleMatcher_eq hp
  | .star chain stops, hp => by
      obtain ⟨hrounds, hq⟩ := chain.rounds hp
      rw [ruleMatcher_star]
      exact Matcher.zeroOrMore_eq (g.ruleMatcher_bounded input _) hp hrounds (stops.givesUp hq)
  | .plus first chain stops, hp => by
      have hfirst := first.ruleMatcher_eq hp
      have hb := g.ruleMatcher_bounded input
      obtain ⟨hrounds, hs⟩ := chain.rounds (hb _ _ _ hp hfirst).2
      rw [ruleMatcher_plus]
      exact Matcher.oneOrMore_eq (hb _) hp hfirst hrounds (stops.givesUp hs)
  | .optSome part, hp => by
      rw [ruleMatcher_opt]
      exact Matcher.optional_eq_done_iff.mpr (.inl ⟨_, part.ruleMatcher_eq hp, rfl⟩)
  | .optNone part, hp => by
      rw [ruleMatcher_opt]
      exact Matcher.optional_eq_done_iff.mpr (.inr ⟨part.ruleMatcher_eq hp, rfl⟩)
  | .untilEnd chain, hp => by
      rw [ruleMatcher_untilEnd]
      exact Matcher.untilEnd_eq (g.ruleMatcher_bounded input _) hp (chain.rounds hp).1
        (Nat.le_refl _)
  | .except here part, hp => by
      rw [ruleMatcher_except]
      exact Matcher.except_eq_done_iff.mpr ⟨_, here, part.ruleMatcher_eq hp, rfl⟩
  | .ref declared body, hp => by
      have hnamed := namedMatcher_eq_done declared hp (body.ruleMatcher_eq hp)
      exact Matcher.within_eq_done_iff.mpr ⟨_, hnamed, rfl⟩

theorem Fails.ruleMatcher_eq {r : Rule α κ} {p : Nat} :
    g.Fails input r p → p ≤ input.size → ∃ f, g.ruleMatcher input r p = .failed f
  | .exhausted single ended, _ => by
      rw [ruleMatcher_of_accept? single]
      exact ⟨_, Matcher.one_eq_failed_iff.mpr (.inl ⟨ended, rfl⟩)⟩
  | .refused single here rejected, _ => by
      rw [ruleMatcher_of_accept? single]
      exact ⟨_, Matcher.one_eq_failed_iff.mpr (.inr ⟨_, here, rejected, rfl⟩)⟩
  | .seq parts part, hp => by
      obtain ⟨hparts, hq⟩ := parts.consecutive hp
      obtain ⟨e, he⟩ := part.ruleMatcher_eq hq
      rw [ruleMatcher_seq, List.map_append, List.map_cons]
      exact ⟨_, Matcher.sequence_eq_failed_iff.mpr ⟨_, _, _, _, e, rfl, hparts, he, rfl⟩⟩
  | .alt all, hp => by
      rw [ruleMatcher_alt]
      exact Matcher.firstOf_fails
        (List.forall_mem_map.mpr fun r hr => (all r hr).ruleMatcher_eq hp)
  | .oneOf tally not_one, hp => by
      obtain ⟨hends, rfl⟩ := tally.survey hp
      rw [ruleMatcher_oneOf]
      exact Matcher.exactlyOne_fails hends not_one
  | .plus first, hp => by
      obtain ⟨e, he⟩ := first.ruleMatcher_eq hp
      rw [ruleMatcher_plus]
      exact ⟨_, Matcher.oneOrMore_eq_failed_iff.mpr ⟨e, he, rfl⟩⟩
  | .untilEnd chain stops before_end, hp => by
      obtain ⟨hrounds, hq⟩ := chain.rounds hp
      obtain ⟨f, hf⟩ := (stops.givesUp hq).breaksOff p
      have hb := g.ruleMatcher_bounded input
      rw [ruleMatcher_untilEnd]
      exact ⟨f, (Matcher.untilEnd_eq_failed_iff (hb _) hp).mpr ⟨_, hrounds, before_end, hf⟩⟩
  | .exceptEnd ended, _ => by
      rw [ruleMatcher_except]
      exact ⟨_, Matcher.except_eq_failed_iff.mpr (.inl ⟨ended, rfl⟩)⟩
  | .except here part, hp => by
      rw [ruleMatcher_except]
      exact ⟨_, Matcher.except_eq_failed_iff.mpr
        (.inr ⟨_, _, here, part.ruleMatcher_eq hp, rfl⟩)⟩
  | .undeclared unknown, hp => by
      have hnamed := namedMatcher_undeclared unknown hp
      exact ⟨_, Matcher.within_eq_failed_iff.mpr ⟨_, hnamed, rfl⟩⟩
  | .ref declared body, hp => by
      obtain ⟨e, he⟩ := body.ruleMatcher_eq hp
      have hnamed := namedMatcher_eq_failed declared hp he
      exact ⟨_, Matcher.within_eq_failed_iff.mpr ⟨_, hnamed, rfl⟩⟩

theorem InOrder.consecutive {rules : List (Rule α κ)} {p q : Nat}
    {trees : List (ParseTree α)} :
    g.InOrder input rules p trees q → p ≤ input.size →
      Matcher.Consecutive (rules.map (g.ruleMatcher input)) p ⟨trees, q⟩ ∧ q ≤ input.size
  | .nil, hp => ⟨.nil _, hp⟩
  | .cons head tail, hp => by
      have hhead := head.ruleMatcher_eq hp
      obtain ⟨htail, hs⟩ := tail.consecutive (g.ruleMatcher_bounded input _ _ _ hp hhead).2
      exact ⟨.cons hhead htail, hs⟩

theorem Chain.rounds {r : Rule α κ} {p q : Nat} {trees : List (ParseTree α)} :
    g.Chain input r p trees q → p ≤ input.size →
      Matcher.Rounds (g.ruleMatcher input r) p ⟨trees, q⟩ ∧ q ≤ input.size
  | .nil, hp => ⟨.nil _, hp⟩
  | .cons head consumes tail, hp => by
      have hhead := head.ruleMatcher_eq hp
      obtain ⟨htail, hs⟩ := tail.rounds (g.ruleMatcher_bounded input _ _ _ hp hhead).2
      exact ⟨.cons hhead (Nat.ne_of_gt consumes) htail, hs⟩

theorem Stops.givesUp {r : Rule α κ} {p : Nat} :
    g.Stops input r p → p ≤ input.size → Matcher.GivesUp (g.ruleMatcher input r) p
  | .fails part, hp => .inl (part.ruleMatcher_eq hp)
  | .nothing part, hp => .inr ⟨_, part.ruleMatcher_eq hp⟩

theorem Tally.survey {rules : List (Rule α κ)} {p n : Nat} :
    g.Tally input rules p n → p ≤ input.size →
      (∀ x ∈ rules.map (fun r => (r, g.ruleMatcher input r)), x.2 p ≠ .endless) ∧
        ((rules.map fun r => (r, g.ruleMatcher input r)).filterMap
          fun x => (x.2 p).value?.map (x.1, ·)).length = n
  | .nil, _ => ⟨by simp, rfl⟩
  | .matched head tail, hp => by
      have hhead := head.ruleMatcher_eq hp
      obtain ⟨hends, hcount⟩ := tail.survey hp
      exact ⟨by simpa [hhead] using hends, by simpa [hhead, Outcome.value?] using hcount⟩
  | .failed head tail, hp => by
      obtain ⟨e, he⟩ := head.ruleMatcher_eq hp
      obtain ⟨hends, hcount⟩ := tail.survey hp
      exact ⟨by simpa [he] using hends, by simpa [he, Outcome.value?] using hcount⟩

end

theorem ruleMatcher_eq_done_iff {r : Rule α κ} {p : Nat} (hp : p ≤ input.size)
    {s : Match α} :
    g.ruleMatcher input r p = .done s ↔ g.Matches input r p s.tree s.stop :=
  ⟨(g.justified_ruleMatcher input r).done p s hp, fun h => h.ruleMatcher_eq hp⟩

theorem exists_ruleMatcher_eq_failed_iff {r : Rule α κ} {p : Nat} (hp : p ≤ input.size) :
    (∃ f, g.ruleMatcher input r p = .failed f) ↔ g.Fails input r p :=
  ⟨fun ⟨f, h⟩ => (g.justified_ruleMatcher input r).failed p f hp h, fun h => h.ruleMatcher_eq hp⟩

/-- A name is applied as a rule that refers to it, without the node of that rule. -/
theorem namedMatcher_eq_done_iff {name : String} {p : Nat} (hp : p ≤ input.size)
    {s : Match α} :
    g.namedMatcher input name p = .done s ↔
      g.Matches input (.ref name) p (.branch [s.tree]) s.stop := by
  rw [← Matcher.within_eq_wrap_iff, ← ruleMatcher_ref]
  exact ruleMatcher_eq_done_iff hp

theorem exists_namedMatcher_eq_failed_iff {name : String} {p : Nat} (hp : p ≤ input.size) :
    (∃ f, g.namedMatcher input name p = .failed f) ↔ g.Fails input (.ref name) p := by
  rw [← exists_ruleMatcher_eq_failed_iff hp]
  simp only [ruleMatcher_ref, Matcher.within_eq_failed_iff]
  constructor
  · rintro ⟨f, hf⟩
    exact ⟨_, f, hf, rfl⟩
  · rintro ⟨_, f, hf, rfl⟩
    exact ⟨f, hf⟩

/-- At one place a rule has one match at most, and none where it fails. -/
theorem Matches.unique {r : Rule α κ} {p q q' : Nat} {tree tree' : ParseTree α}
    (hp : p ≤ input.size) (h : g.Matches input r p tree q)
    (h' : g.Matches input r p tree' q') : tree = tree' ∧ q = q' := by
  have heq := (h.ruleMatcher_eq hp).symm.trans (h'.ruleMatcher_eq hp)
  exact Match.mk.inj (Outcome.done.inj heq)

theorem Matches.not_fails {r : Rule α κ} {p q : Nat} {tree : ParseTree α}
    (hp : p ≤ input.size) (h : g.Matches input r p tree q) : ¬ g.Fails input r p := by
  intro hfails
  obtain ⟨f, hf⟩ := hfails.ruleMatcher_eq hp
  cases (h.ruleMatcher_eq hp).symm.trans hf

theorem Matches.stop_eq {r : Rule α κ} {p q : Nat} {tree : ParseTree α}
    (h : g.Matches input r p tree q) (hp : p ≤ input.size) :
    q = p + tree.values.length ∧ q ≤ input.size := by
  have hcovers := g.ruleMatcher_lossless input r p _ hp (h.ruleMatcher_eq hp)
  exact ⟨hcovers.stop_eq hp, hcovers.stop_le⟩

/-- Applying a rule comes to a match just if this match can be derived, and to a failure
just if some failure can. A name is applied as a rule that refers to it, without the node
of that rule. -/
theorem application_iff_derivation (g : Grammar α κ) (c : Cursor α)
    (hc : c.pos ≤ c.input.size) :
    (∀ r, (∀ tree next, g.applyRule r c = .done (tree, next) ↔
          ∃ q, g.Matches c.input r c.pos tree q ∧ c.moveTo q = next) ∧
        ((∃ f, g.applyRule r c = .failed f) ↔ g.Fails c.input r c.pos)) ∧
      ∀ name, (∀ tree next, g.applyNamed name c = .done (tree, next) ↔
          ∃ q, g.Matches c.input (.ref name) c.pos (.branch [tree]) q ∧ c.moveTo q = next) ∧
        ((∃ f, g.applyNamed name c = .failed f) ↔ g.Fails c.input (.ref name) c.pos) := by
  refine ⟨fun r => ⟨fun tree next => ?_, ?_⟩, fun name => ⟨fun tree next => ?_, ?_⟩⟩
  · simp only [applyRule_eq_done_iff, ruleMatcher_eq_done_iff hc]
  · simp only [applyRule_eq_failed_iff, exists_ruleMatcher_eq_failed_iff hc]
  · simp only [applyNamed_eq_done_iff, namedMatcher_eq_done_iff hc]
  · simp only [applyNamed_eq_failed_iff, exists_namedMatcher_eq_failed_iff hc]

/-- Brackets inside one another. -/
private def bracketGrammar : Grammar Char Char where
  start := "list"
  rules := [("list", .seq [.literal '(', .star (.ref "list"), .literal ')'])]
  distinct := by decide
  start_declared := by decide

/-- The outer brackets are not closed, the inner ones are. -/
theorem application_iff_derivation_unclosed :
    let c : Cursor Char := ⟨#['(', '(', ')'], 0⟩
    let inner : ParseTree Char := .branch [.leaf '(', .branch [], .leaf ')']
    (0 ≤ 3 ∧ bracketGrammar.Fails c.input (.ref "list") 0) ∧
      1 ≤ 3 ∧ bracketGrammar.Matches c.input (.ref "list") 1
        (.branch [inner.labelled "list"]) 3 := by
  intro c inner
  have hfailed : ∃ f, bracketGrammar.applyNamed "list" c = .failed f := ⟨_, rfl⟩
  have hdone : bracketGrammar.applyNamed "list" (c.moveTo 1) =
      .done (inner.labelled "list", c.moveTo 3) := rfl
  have outside := (bracketGrammar.application_iff_derivation c (by decide)).2 "list"
  have inside := (bracketGrammar.application_iff_derivation (c.moveTo 1) (by decide)).2 "list"
  refine ⟨⟨by decide, outside.2.mp hfailed⟩, by decide, ?_⟩
  obtain ⟨q, hmatches, hq⟩ := (inside.1 _ _).mp hdone
  cases hq
  exact hmatches

end Grammar

end Peg
