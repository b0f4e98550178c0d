import Peg.Proofs.Matching.LeftRecursion

/-!
What a name comes to depends on no rules but those that can be reached from it. Two
grammars that declare the same rules under some names, where these rules refer to such
names only, cannot be told apart by way of them.
-/

namespace Peg

variable {α κ : Type} [Key κ] [Item α κ] {input : Array α}

/-- A matcher calls no names but those that its rule refers to. -/
theorem Rule.matcher_congr {call call' : String → Matcher α} (r : Rule α κ)
    (hcall : ∀ name ∈ r.refs, call name = call' name) :
    r.matcher input call = r.matcher input call' := by
  have hparts {rules : List (Rule α κ)}
      (ih : ∀ r ∈ rules, (∀ name ∈ r.refs, call name = call' name) →
        r.matcher input call = r.matcher input call')
      (hcall : ∀ name ∈ rules.flatMap refs, call name = call' name) (r : Rule α κ)
      (hr : r ∈ rules) : r.matcher input call = r.matcher input call' :=
    ih r hr fun name hname => hcall name (List.mem_flatMap_of_mem hr hname)
  induction r with
  | literal key => rfl
  | range lo hi => rfl
  | predicate p => rfl
  | seq rules ih =>
      rw [refs_seq] at hcall
      rw [matcher_seq, matcher_seq, List.map_congr_left (hparts ih hcall)]
  | alt rules ih =>
      rw [refs_alt] at hcall
      rw [matcher_alt, matcher_alt, List.map_congr_left (hparts ih hcall)]
  | oneOf rules ih =>
      rw [refs_oneOf] at hcall
      rw [matcher_oneOf, matcher_oneOf,
        List.map_congr_left fun r hr => congrArg (r, ·) (hparts ih hcall r hr)]
  | star r ih => rw [matcher, matcher, ih hcall]
  | plus r ih => rw [matcher, matcher, ih hcall]
  | opt r ih => rw [matcher, matcher, ih hcall]
  | untilEnd r ih => rw [matcher, matcher, ih hcall]
  | except r ih => rw [matcher, matcher, ih hcall]
  | ref name => rw [matcher, matcher, hcall name List.mem_cons_self]

namespace Grammar

/-- Two grammars have the same rules under some names, and these rules refer to such names
only. -/
structure AgreesOn (g g' : Grammar α κ) (names : Set String) : Prop where
  same : ∀ name ∈ names, g.rule? name = g'.rule? name
  closed : ∀ name ∈ names, ∀ r, g.rule? name = some r → ∀ m ∈ r.refs, m ∈ names

namespace AgreesOn

variable {g g' : Grammar α κ} {names : Set String}

theorem callMatcher_eq (h : g.AgreesOn g' names) (depth : Nat) :
    ∀ name ∈ names, g.callMatcher input depth name = g'.callMatcher input depth name := by
  induction depth with
  | zero => exact fun name _ => rfl
  | succ depth ih =>
      intro name hname
      funext p
      unfold callMatcher
      rw [← h.same name hname]
      cases hrule : g.rule? name with
      | none => rfl
      | some r =>
          have hr : r.matcher input (g.callMatcher input depth) =
              r.matcher input (g'.callMatcher input depth) :=
            r.matcher_congr fun m hm => ih m (h.closed name hname r hrule m hm)
          simp only [hr]

/-- Both grammars are given a depth of calls that is enough for either. -/
theorem namedMatcher_eq (h : g.AgreesOn g' names) {name : String} (hname : name ∈ names)
    {p : Nat} (hp : p ≤ input.size) :
    g.namedMatcher input name p = g'.namedMatcher input name p := by
  let depth := max (g.callDepth input) (g'.callDepth input)
  calc g.namedMatcher input name p
      = g.callMatcher input depth name p :=
        (g.callMatcher_eq_of_le (Nat.le_max_left _ _) name hp).symm
    _ = g'.callMatcher input depth name p := by rw [h.callMatcher_eq depth name hname]
    _ = g'.namedMatcher input name p :=
        g'.callMatcher_eq_of_le (Nat.le_max_right _ _) name hp

theorem ruleMatcher_eq (h : g.AgreesOn g' names) {r : Rule α κ} (hr : ∀ m ∈ r.refs, m ∈ names)
    {p : Nat} (hp : p ≤ input.size) : g.ruleMatcher input r p = g'.ruleMatcher input r p := by
  let depth := max (g.callDepth input) (g'.callDepth input)
  have hcalls : r.matcher input (g.callMatcher input depth) =
      r.matcher input (g'.callMatcher input depth) :=
    r.matcher_congr fun m hm => h.callMatcher_eq depth m (hr m hm)
  calc g.ruleMatcher input r p
      = r.matcher input (g.callMatcher input depth) p :=
        (g.matcher_callMatcher_eq_of_le (Nat.le_max_left _ _) r hp).symm
    _ = r.matcher input (g'.callMatcher input depth) p := by rw [hcalls]
    _ = g'.ruleMatcher input r p :=
        g'.matcher_callMatcher_eq_of_le (Nat.le_max_right _ _) r hp

end AgreesOn

end Grammar

end Peg
