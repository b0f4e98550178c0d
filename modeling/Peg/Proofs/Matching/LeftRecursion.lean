import Peg.Proofs.Matching.Derivations

/-!
Grammars without left recursion. Where a rule begins, it may call other rules before
anything is consumed. If the names of a grammar can be ranked so that a rule calls only
lower ones there, then every application comes to an end, also where what is repeated
matches nothing. Which rules may match nothing is estimated from their shapes.
-/

namespace Peg

variable {α κ : Type}

namespace Rule

mutual

/-- The names that a rule refers to, in their order. -/
def refs : Rule α κ → List String
  | .literal _ => []
  | .range _ _ => []
  | .predicate _ => []
  | .seq rules => allRefs rules
  | .alt rules => allRefs rules
  | .oneOf rules => allRefs rules
  | .star r => refs r
  | .plus r => refs r
  | .opt r => refs r
  | .untilEnd r => refs r
  | .except r => refs r
  | .ref name => [name]

def allRefs : List (Rule α κ) → List String
  | [] => []
  | r :: rules => refs r ++ allRefs rules

end

mutual

/-- Whether a rule may match nothing, if the rules that pass `null` may. -/
def nullable (null : String → Bool) : Rule α κ → Bool
  | .literal _ => false
  | .range _ _ => false
  | .predicate _ => false
  | .seq rules => allNullable null rules
  | .alt rules => anyNullable null rules
  | .oneOf rules => anyNullable null rules
  | .star _ => true
  | .plus r => nullable null r
  | .opt _ => true
  | .untilEnd _ => true
  | .except _ => false
  | .ref name => null name

def allNullable (null : String → Bool) : List (Rule α κ) → Bool
  | [] => true
  | r :: rules => nullable null r && allNullable null rules

def anyNullable (null : String → Bool) : List (Rule α κ) → Bool
  | [] => false
  | r :: rules => nullable null r || anyNullable null rules

end

mutual

/-- The names that a rule may call where it begins. -/
def leftRefs (null : String → Bool) : Rule α κ → List String
  | .literal _ => []
  | .range _ _ => []
  | .predicate _ => []
  | .seq rules => leftRefsInOrder null rules
  | .alt rules => leftRefsAmong null rules
  | .oneOf rules => leftRefsAmong null rules
  | .star r => leftRefs null r
  | .plus r => leftRefs null r
  | .opt r => leftRefs null r
  | .untilEnd r => leftRefs null r
  | .except r => leftRefs null r
  | .ref name => [name]

/-- Behind a part that cannot match nothing, a sequence does not begin any more. -/
def leftRefsInOrder (null : String → Bool) : List (Rule α κ) → List String
  | [] => []
  | r :: rules =>
      leftRefs null r ++ if nullable null r then leftRefsInOrder null rules else []

def leftRefsAmong (null : String → Bool) : List (Rule α κ) → List String
  | [] => []
  | r :: rules => leftRefs null r ++ leftRefsAmong null rules

end

theorem allRefs_eq_flatMap (rules : List (Rule α κ)) : allRefs rules = rules.flatMap refs := by
  induction rules with
  | nil => rfl
  | cons r rules ih => rw [allRefs, ih, List.flatMap_cons]

theorem refs_seq (rules : List (Rule α κ)) : (seq rules).refs = rules.flatMap refs := by
  rw [refs, allRefs_eq_flatMap]

theorem refs_alt (rules : List (Rule α κ)) : (alt rules).refs = rules.flatMap refs := by
  rw [refs, allRefs_eq_flatMap]

theorem refs_oneOf (rules : List (Rule α κ)) : (oneOf rules).refs = rules.flatMap refs := by
  rw [refs, allRefs_eq_flatMap]

variable (null : String → Bool)

theorem nullable_seq (rules : List (Rule α κ)) :
    (seq rules).nullable null = rules.all (nullable null) := by
  rw [nullable]
  induction rules with
  | nil => rfl
  | cons r rules ih => rw [allNullable, ih, List.all_cons]

theorem anyNullable_eq_any (rules : List (Rule α κ)) :
    anyNullable null rules = rules.any (nullable null) := by
  induction rules with
  | nil => rfl
  | cons r rules ih => rw [anyNullable, ih, List.any_cons]

theorem nullable_alt (rules : List (Rule α κ)) :
    (alt rules).nullable null = rules.any (nullable null) := by
  rw [nullable, anyNullable_eq_any]

theorem nullable_oneOf (rules : List (Rule α κ)) :
    (oneOf rules).nullable null = rules.any (nullable null) := by
  rw [nullable, anyNullable_eq_any]

theorem leftRefsAmong_eq_flatMap (rules : List (Rule α κ)) :
    leftRefsAmong null rules = rules.flatMap (leftRefs null) := by
  induction rules with
  | nil => rfl
  | cons r rules ih => rw [leftRefsAmong, ih, List.flatMap_cons]

theorem leftRefs_alt (rules : List (Rule α κ)) :
    (alt rules).leftRefs null = rules.flatMap (leftRefs null) := by
  rw [leftRefs, leftRefsAmong_eq_flatMap]

theorem leftRefs_oneOf (rules : List (Rule α κ)) :
    (oneOf rules).leftRefs null = rules.flatMap (leftRefs null) := by
  rw [leftRefs, leftRefsAmong_eq_flatMap]

theorem leftRefsInOrder_subset (rules : List (Rule α κ)) :
    leftRefsInOrder null rules ⊆ rules.flatMap (leftRefs null) := by
  induction rules with
  | nil => exact List.nil_subset _
  | cons r rules ih =>
      rw [leftRefsInOrder, List.flatMap_cons]
      refine List.append_subset.mpr ⟨List.subset_append_left _ _, ?_⟩
      split
      · exact List.subset_append_of_subset_right _ ih
      · exact List.nil_subset _

/-- A part of a sequence begins where the sequence does if all parts before it may match
nothing. -/
theorem leftRefs_subset_leftRefsInOrder {null : String → Bool} {before : List (Rule α κ)}
    (hbefore : ∀ b ∈ before, b.nullable null = true) (r : Rule α κ) (after : List (Rule α κ)) :
    r.leftRefs null ⊆ leftRefsInOrder null (before ++ r :: after) := by
  induction before with
  | nil => exact List.subset_append_left _ _
  | cons b before ih =>
      obtain ⟨hb, hbefore⟩ := List.forall_mem_cons.mp hbefore
      rw [List.cons_append, leftRefsInOrder, if_pos hb]
      exact List.subset_append_of_subset_right _ (ih hbefore)

theorem leftRefs_subset_refs (r : Rule α κ) : r.leftRefs null ⊆ r.refs := by
  have among {rules : List (Rule α κ)} (ih : ∀ r ∈ rules, r.leftRefs null ⊆ r.refs) :
      rules.flatMap (leftRefs null) ⊆ rules.flatMap refs := by
    intro name hname
    obtain ⟨r, hr, hname⟩ := List.mem_flatMap.mp hname
    exact List.mem_flatMap.mpr ⟨r, hr, ih r hr hname⟩
  induction r with
  | literal key => exact List.nil_subset _
  | range lo hi => exact List.nil_subset _
  | predicate p => exact List.nil_subset _
  | seq rules ih =>
      rw [leftRefs, refs_seq]
      exact List.Subset.trans (leftRefsInOrder_subset null rules) (among ih)
  | alt rules ih =>
      rw [leftRefs_alt, refs_alt]
      exact among ih
  | oneOf rules ih =>
      rw [leftRefs_oneOf, refs_oneOf]
      exact among ih
  | star r ih => exact ih
  | plus r ih => exact ih
  | opt r ih => exact ih
  | untilEnd r ih => exact ih
  | except r ih => exact ih
  | ref name => exact List.Subset.refl _

end Rule

namespace Grammar

/-- An estimate of the names that may match nothing: it misses none whose rule may, by the
same estimate. -/
def NullClosed (g : Grammar α κ) (null : String → Bool) : Prop :=
  ∀ name r, g.rule? name = some r → r.nullable null = true → null name = true

/-- Every name ranks above all names that its rule may call where it begins. -/
structure RankedBy (g : Grammar α κ) (null : String → Bool) (rank : String → Nat) : Prop where
  closed : g.NullClosed null
  decreases : ∀ name r, g.rule? name = some r → ∀ m ∈ r.leftRefs null, rank m < rank name

def WithoutLeftRecursion (g : Grammar α κ) : Prop :=
  ∃ null rank, g.RankedBy null rank

/-- Each rule may call only rules behind it where it begins, even if all rules may match
nothing. -/
def Sorted : List (String × Rule α κ) → Prop
  | [] => True
  | (_, r) :: rules =>
      (∀ m ∈ r.leftRefs fun _ => true, m ∈ rules.map Prod.fst) ∧ Sorted rules

instance decidableSorted : (rules : List (String × Rule α κ)) → Decidable (Sorted rules)
  | [] => inferInstanceAs (Decidable True)
  | (_, _) :: rules =>
      have := decidableSorted rules
      inferInstanceAs (Decidable (_ ∧ _))

/-- Rules that refer to none may stand in any order. -/
theorem sorted_of_refs_eq_nil {rules : List (String × Rule α κ)}
    (h : ∀ entry ∈ rules, entry.2.refs = []) : Sorted rules := by
  induction rules with
  | nil => trivial
  | cons entry rules ih =>
      obtain ⟨hrefs, hrules⟩ := List.forall_mem_cons.mp h
      refine ⟨?_, ih hrules⟩
      intro m hm
      have hmem := Rule.leftRefs_subset_refs _ _ hm
      rw [hrefs] at hmem
      cases hmem

theorem Sorted.idxOf_lt {rules : List (String × Rule α κ)} (h : Sorted rules)
    (hdistinct : (rules.map Prod.fst).Nodup) {name m : String} {r : Rule α κ}
    (hr : (name, r) ∈ rules) (hm : m ∈ r.leftRefs fun _ => true) :
    m ∈ rules.map Prod.fst ∧
      (rules.map Prod.fst).idxOf name < (rules.map Prod.fst).idxOf m := by
  induction rules with
  | nil => cases hr
  | cons entry rules ih =>
      obtain ⟨hbehind, hsorted⟩ := h
      obtain ⟨hnotin, hdistinct⟩ := List.nodup_cons.mp hdistinct
      have hskip {x : String} (hx : x ∈ rules.map Prod.fst) :
          ((entry :: rules).map Prod.fst).idxOf x = (rules.map Prod.fst).idxOf x + 1 :=
        List.idxOf_cons_ne _ fun heq => hnotin (heq ▸ hx)
      rcases List.mem_cons.mp hr with rfl | hr
      · have hmem := hbehind m hm
        refine ⟨List.mem_cons_of_mem _ hmem, ?_⟩
        rw [hskip hmem, List.map_cons, List.idxOf_cons_self]
        exact Nat.succ_pos _
      · obtain ⟨hmem, hlt⟩ := ih hsorted hdistinct hr
        refine ⟨List.mem_cons_of_mem _ hmem, ?_⟩
        rw [hskip hmem, hskip (List.mem_map_of_mem hr)]
        exact Nat.succ_lt_succ hlt

theorem withoutLeftRecursion_of_sorted {g : Grammar α κ} (h : Sorted g.rules) : g.WithoutLeftRecursion := by
  refine ⟨fun _ => true, fun name => g.rules.length - (g.rules.map Prod.fst).idxOf name,
    fun _ _ _ _ => rfl, ?_⟩
  intro name r hrule m hm
  have hr := g.rule?_eq_some_iff.mp hrule
  obtain ⟨-, hlt⟩ := h.idxOf_lt g.distinct hr hm
  have hname : name ∈ g.rules.map Prod.fst := List.mem_map_of_mem hr
  have hlength := List.idxOf_lt_length_of_mem hname
  rw [List.length_map] at hlength
  show g.rules.length - _ < g.rules.length - _
  omega

variable [Key κ] [Item α κ] {g : Grammar α κ} {input : Array α} {null : String → Bool}

mutual

theorem Matches.consumes (hnull : g.NullClosed null) {r : Rule α κ} {p q : Nat}
    {tree : ParseTree α} :
    g.Matches input r p tree q → p ≤ q ∧ (q = p → r.nullable null = true)
  | .item _ _ _ => ⟨Nat.le_succ p, fun h => absurd h (Nat.succ_ne_self p)⟩
  | .seq parts => by
      obtain ⟨hle, hnone⟩ := parts.consumes hnull
      refine ⟨hle, fun h => ?_⟩
      rw [Rule.nullable_seq]
      exact List.all_eq_true.mpr (hnone h)
  | .alt _ chosen => by
      obtain ⟨hle, hnone⟩ := chosen.consumes hnull
      refine ⟨hle, fun h => ?_⟩
      rw [Rule.nullable_alt]
      exact List.any_eq_true.mpr ⟨_, by simp, hnone h⟩
  | .oneOf _ only => by
      obtain ⟨hle, hnone⟩ := only.consumes hnull
      refine ⟨hle, fun h => ?_⟩
      rw [Rule.nullable_oneOf]
      exact List.any_eq_true.mpr ⟨_, by simp, hnone h⟩
  | .star chain _ => ⟨chain.le hnull, fun _ => rfl⟩
  | .plus first chain _ => by
      obtain ⟨hle, hnone⟩ := first.consumes hnull
      have hchain := chain.le hnull
      exact ⟨hle.trans hchain, fun h => hnone (by omega)⟩
  | .optSome part => ⟨(part.consumes hnull).1, fun _ => rfl⟩
  | .optNone _ => ⟨Nat.le_refl p, fun _ => rfl⟩
  | .untilEnd chain => ⟨chain.le hnull, fun _ => rfl⟩
  | .except _ _ => ⟨Nat.le_succ p, fun h => absurd h (Nat.succ_ne_self p)⟩
  | .ref declared body => by
      obtain ⟨hle, hnone⟩ := body.consumes hnull
      exact ⟨hle, fun h => hnull _ _ declared (hnone h)⟩

theorem InOrder.consumes (hnull : g.NullClosed null) {rules : List (Rule α κ)} {p q : Nat}
    {trees : List (ParseTree α)} :
    g.InOrder input rules p trees q →
      p ≤ q ∧ (q = p → ∀ r ∈ rules, r.nullable null = true)
  | .nil => ⟨Nat.le_refl p, by simp⟩
  | .cons head tail => by
      obtain ⟨hhead, hnone⟩ := head.consumes hnull
      obtain ⟨htail, hnones⟩ := tail.consumes hnull
      refine ⟨hhead.trans htail, fun h => ?_⟩
      exact List.forall_mem_cons.mpr ⟨hnone (by omega), hnones (by omega)⟩

theorem Chain.le (hnull : g.NullClosed null) {r : Rule α κ} {p q : Nat}
    {trees : List (ParseTree α)} : g.Chain input r p trees q → p ≤ q
  | .nil => Nat.le_refl p
  | .cons head _ tail => (head.consumes hnull).1.trans (tail.le hnull)

end

/-- Some names come to an end at a position, and all names come to an end behind it. -/
def EndsFrom (g : Grammar α κ) (input : Array α) (names : List String) (p : Nat) : Prop :=
  ∀ name q, p ≤ q → q ≤ input.size → (q = p → name ∈ names) →
    g.namedMatcher input name q ≠ .endless

namespace EndsFrom

variable {names names' : List String} {p q : Nat}

theorem mono (h : g.EndsFrom input names p) (hsubset : names' ⊆ names) :
    g.EndsFrom input names' p :=
  fun name q hq hqs hname => h name q hq hqs fun heq => hsubset (hname heq)

theorem of_le (h : g.EndsFrom input names p) (hle : p ≤ q) : g.EndsFrom input names q :=
  fun name s hs hss hname => h name s (hle.trans hs) hss fun heq => hname (by omega)

theorem of_lt (h : g.EndsFrom input names p) (hlt : p < q) : g.EndsFrom input names' q :=
  fun name s hs hss _ => h name s (hlt.le.trans hs) hss fun heq => absurd heq (by omega)

end EndsFrom

/-- A rule comes to an end where the names do that it may call where it begins, if all names
do behind that place. Repetitions go on only behind it. -/
theorem ruleMatcher_ne_endless (hnull : g.NullClosed null) {r : Rule α κ} {p : Nat}
    (hp : p ≤ input.size) (hends : g.EndsFrom input (r.leftRefs null) p) :
    g.ruleMatcher input r p ≠ .endless := by
  have hb := g.ruleMatcher_bounded input
  induction r generalizing p with
  | literal key =>
      rw [ruleMatcher_literal]
      exact Matcher.one_ne_endless
  | range lo hi =>
      rw [ruleMatcher_range]
      exact Matcher.one_ne_endless
  | predicate t =>
      rw [ruleMatcher_predicate]
      exact Matcher.one_ne_endless
  | seq rules ih =>
      rw [ruleMatcher_seq]
      refine Matcher.sequence_ne_endless ?_
      intro before m after run hsplit hbefore
      obtain ⟨front, back, rfl, rfl, hback⟩ := List.map_eq_append_iff.mp hsplit
      obtain ⟨r, rest, rfl, rfl, -⟩ := List.map_eq_cons_iff.mp hback
      obtain ⟨hfront, hstop⟩ :=
        inOrder_of_consecutive (fun r _ => g.justified_ruleMatcher input r) hb hp hbefore
      obtain ⟨hle, hnone⟩ := hfront.consumes hnull
      refine ih r (by simp) hstop ?_
      rcases Nat.eq_or_lt_of_le hle with heq | hlt
      · rw [← heq]
        exact hends.mono (Rule.leftRefs_subset_leftRefsInOrder (hnone heq.symm) r rest)
      · exact hends.of_lt hlt
  | alt rules ih =>
      rw [ruleMatcher_alt]
      refine Matcher.firstOf_ne_endless (List.forall_mem_map.mpr fun r hr => ?_)
      rw [Rule.leftRefs_alt] at hends
      exact ih r hr hp (hends.mono fun name hname => List.mem_flatMap_of_mem hr hname)
  | oneOf rules ih =>
      rw [ruleMatcher_oneOf]
      refine Matcher.exactlyOne_ne_endless (List.forall_mem_map.mpr fun r hr => ?_)
      rw [Rule.leftRefs_oneOf] at hends
      exact ih r hr hp (hends.mono fun name hname => List.mem_flatMap_of_mem hr hname)
  | star r ih =>
      rw [ruleMatcher_star]
      exact Matcher.zeroOrMore_ne_endless (hb r) hp fun q hq hqs => ih hqs (hends.of_le hq)
  | plus r ih =>
      rw [ruleMatcher_plus]
      exact Matcher.oneOrMore_ne_endless (hb r) hp fun q hq hqs => ih hqs (hends.of_le hq)
  | opt r ih =>
      rw [ruleMatcher_opt]
      exact Matcher.optional_ne_endless (ih hp hends)
  | untilEnd r ih =>
      rw [ruleMatcher_untilEnd]
      exact Matcher.untilEnd_ne_endless (hb r) hp fun q hq hqs => ih hqs (hends.of_le hq)
  | except r ih =>
      rw [ruleMatcher_except]
      exact Matcher.except_ne_endless (ih hp hends)
  | ref name =>
      rw [ruleMatcher_ref, ne_eq, Matcher.within_eq_endless_iff]
      exact hends name p (Nat.le_refl _) hp fun _ => List.mem_singleton_self name

/-- The induction is on what is left of the input, and at one place on the rank. -/
theorem RankedBy.namedMatcher_ne_endless {rank : String → Nat} (h : g.RankedBy null rank)
    (name : String) {p : Nat} (hp : p ≤ input.size) :
    g.namedMatcher input name p ≠ .endless := by
  induction hrest : input.size - p using Nat.strong_induction_on generalizing p name with
  | _ n ihrest =>
  induction hrank : rank name using Nat.strong_induction_on generalizing name with
  | _ k ihrank =>
    cases hrule : g.rule? name with
    | none =>
        rw [namedMatcher_undeclared hrule hp]
        simp
    | some r =>
        rw [namedMatcher_of_rule hrule hp, ne_eq, Matcher.labelled_eq_endless_iff]
        refine ruleMatcher_ne_endless h.closed hp ?_
        intro m q hq hqs hm
        rcases Nat.eq_or_lt_of_le hq with rfl | hlt
        · have hlower := h.decreases name r hrule m (hm rfl)
          exact ihrank (rank m) (hrank ▸ hlower) m rfl
        · exact ihrest (input.size - q) (by omega) m hqs rfl

namespace WithoutLeftRecursion

theorem namedMatcher_ne_endless (h : g.WithoutLeftRecursion) (name : String) {p : Nat}
    (hp : p ≤ input.size) : g.namedMatcher input name p ≠ .endless := by
  obtain ⟨null, rank, hranked⟩ := h
  exact hranked.namedMatcher_ne_endless name hp

theorem ruleMatcher_ne_endless (h : g.WithoutLeftRecursion) (r : Rule α κ) {p : Nat}
    (hp : p ≤ input.size) : g.ruleMatcher input r p ≠ .endless := by
  have hnamed (name : String) {q : Nat} (hq : q ≤ input.size) :
      g.namedMatcher input name q ≠ .endless := h.namedMatcher_ne_endless name hq
  obtain ⟨null, rank, hranked⟩ := h
  exact Grammar.ruleMatcher_ne_endless hranked.closed hp fun name q _ hqs _ => hnamed name hqs

end WithoutLeftRecursion

end Grammar

end Peg
