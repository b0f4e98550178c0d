import Mathlib.Data.Finset.Prod
import Mathlib.Order.Monotone.Basic
import Peg.Proofs.Matching.Lossless

/-!
Calls are counted without loss. A matcher that may nest more calls gives every answer
that one with fewer gives. The pairs of a name and a position that have an answer grow
with the depth, and there are not more of them than the depth that attempts are given.
So at that depth nothing is gained by one more call, and the matcher of a name is the
matcher of its rule over the matchers of all names, as if calls were not counted.
-/

namespace Peg.Matcher

variable {α β γ : Type} {input : Array α} {m m' : Matcher α}

/-- A matcher that comes to the same as another wherever that one comes to an end. -/
def Extends (input : Array α) (m m' : Matcher α) : Prop :=
  ∀ p, p ≤ input.size → m p ≠ .endless → m' p = m p

theorem runAll_extends {rs : List γ} {f f' : γ → Matcher α}
    (hext : ∀ r ∈ rs, Extends input (f r) (f' r)) (hb : ∀ r ∈ rs, Bounded input (f r))
    {start p : Nat} (hp : p ≤ input.size) (hends : runAll start (rs.map f) p ≠ .endless) :
    runAll start (rs.map f') p = runAll start (rs.map f) p := by
  induction rs generalizing p with
  | nil => rfl
  | cons r rs ih =>
      simp only [List.map_cons, runAll] at hends ⊢
      have hr : f r p ≠ .endless := by
        intro h
        simp [h] at hends
      rw [hext r List.mem_cons_self p hp hr]
      cases hm : f r p with
      | done s =>
          simp only [hm, ne_eq, Outcome.map_eq_endless_iff] at hends ⊢
          have hstop := (hb r List.mem_cons_self p s hp hm).2
          rw [ih (fun r' h => hext r' (List.mem_cons_of_mem _ h))
            (fun r' h => hb r' (List.mem_cons_of_mem _ h)) hstop hends]
      | failed e => rfl
      | endless => exact absurd hm hr

theorem sequence_extends {rs : List γ} {f f' : γ → Matcher α}
    (hext : ∀ r ∈ rs, Extends input (f r) (f' r)) (hb : ∀ r ∈ rs, Bounded input (f r)) :
    Extends input (sequence (rs.map f)) (sequence (rs.map f')) := by
  intro p hp hends
  unfold sequence at hends ⊢
  rw [ne_eq, Outcome.map_eq_endless_iff] at hends
  rw [runAll_extends hext hb hp hends]

theorem tryAll_extends {rs : List γ} {f f' : γ → Matcher α}
    (hext : ∀ r ∈ rs, Extends input (f r) (f' r)) {p : Nat} (hp : p ≤ input.size)
    (hends : tryAll p (rs.map f) ≠ .endless) :
    tryAll p (rs.map f') = tryAll p (rs.map f) := by
  induction rs with
  | nil => rfl
  | cons r rs ih =>
      simp only [List.map_cons, tryAll] at hends ⊢
      have hr : f r p ≠ .endless := by
        intro h
        simp [h] at hends
      rw [hext r List.mem_cons_self p hp hr]
      cases hm : f r p with
      | done s => rfl
      | failed e =>
          simp only [hm, ne_eq, Outcome.map_eq_endless_iff] at hends ⊢
          rw [ih (fun r' h => hext r' (List.mem_cons_of_mem _ h)) hends]
      | endless => exact absurd hm hr

theorem firstOf_extends {rs : List γ} {f f' : γ → Matcher α}
    (hext : ∀ r ∈ rs, Extends input (f r) (f' r)) :
    Extends input (firstOf (rs.map f)) (firstOf (rs.map f')) := by
  intro p hp hends
  unfold firstOf at hends ⊢
  have hchoice : tryAll p (rs.map f) ≠ .endless := by
    intro h
    simp [h, Outcome.bind] at hends
  rw [tryAll_extends hext hp hchoice]

theorem survey_extends {rs : List γ} {g : γ → β} {f f' : γ → Matcher α}
    (hext : ∀ r ∈ rs, Extends input (f r) (f' r)) {p : Nat} (hp : p ≤ input.size)
    (hends : survey p (rs.map fun r => (g r, f r)) ≠ .endless) :
    survey p (rs.map fun r => (g r, f' r)) = survey p (rs.map fun r => (g r, f r)) := by
  induction rs with
  | nil => rfl
  | cons r rs ih =>
      simp only [List.map_cons, survey] at hends ⊢
      have hr : f r p ≠ .endless := by
        intro h
        simp [h] at hends
      have htail (h : survey p (rs.map fun r => (g r, f r)) ≠ .endless) :=
        ih (fun r' h => hext r' (List.mem_cons_of_mem _ h)) h
      rw [hext r List.mem_cons_self p hp hr]
      cases hm : f r p with
      | done s =>
          simp only [hm, ne_eq, Outcome.map_eq_endless_iff] at hends ⊢
          rw [htail hends]
      | failed e =>
          simp only [hm, ne_eq, Outcome.map_eq_endless_iff] at hends ⊢
          rw [htail hends]
      | endless => exact absurd hm hr

theorem exactlyOne_extends {rs : List γ} {describe : β → String} {g : γ → β}
    {f f' : γ → Matcher α} (hext : ∀ r ∈ rs, Extends input (f r) (f' r)) :
    Extends input (exactlyOne describe (rs.map fun r => (g r, f r)))
      (exactlyOne describe (rs.map fun r => (g r, f' r))) := by
  intro p hp hends
  unfold exactlyOne at hends ⊢
  have hsurvey : survey p (rs.map fun r => (g r, f r)) ≠ .endless := by
    intro h
    simp [h, Outcome.bind] at hends
  rw [survey_extends hext hp hsurvey]

theorem repeated_extends (hext : Extends input m m') (hb : Bounded input m)
    {rounds p : Nat} (hp : p ≤ input.size) (hends : repeated m rounds p ≠ .endless) :
    repeated m' rounds p = repeated m rounds p := by
  induction rounds generalizing p with
  | zero => rfl
  | succ rounds ih =>
      unfold repeated at hends ⊢
      have hm : m p ≠ .endless := by
        intro h
        simp [h] at hends
      rw [hext p hp hm]
      cases hmatch : m p with
      | done s =>
          by_cases hstop : s.stop = p
          · simp [hstop]
          · simp only [hmatch, hstop, if_false, ne_eq, Outcome.map_eq_endless_iff] at hends ⊢
            rw [ih (hb p s hp hmatch).2 hends]
      | failed e => rfl
      | endless => exact absurd hmatch hm

theorem zeroOrMore_extends (hext : Extends input m m') (hb : Bounded input m) :
    Extends input (zeroOrMore input m) (zeroOrMore input m') := by
  intro p hp hends
  unfold zeroOrMore at hends ⊢
  rw [ne_eq, Outcome.map_eq_endless_iff] at hends
  rw [repeated_extends hext hb hp hends]

theorem oneOrMore_extends (hext : Extends input m m') (hb : Bounded input m) :
    Extends input (oneOrMore input m) (oneOrMore input m') := by
  intro p hp hends
  unfold oneOrMore at hends ⊢
  have hm : m p ≠ .endless := by
    intro h
    simp [h] at hends
  rw [hext p hp hm]
  cases hmatch : m p with
  | done s =>
      simp only [hmatch, ne_eq, Outcome.map_eq_endless_iff] at hends ⊢
      rw [repeated_extends hext hb (hb p s hp hmatch).2 hends]
  | failed e => rfl
  | endless => exact absurd hmatch hm

theorem optional_extends (hext : Extends input m m') :
    Extends input (optional m) (optional m') := by
  intro p hp hends
  unfold optional at hends ⊢
  have hm : m p ≠ .endless := by
    intro h
    simp [h] at hends
  rw [hext p hp hm]

theorem repeatedToEnd_extends (hext : Extends input m m') (hb : Bounded input m)
    {start rounds p : Nat} (hp : p ≤ input.size)
    (hends : repeatedToEnd input m start rounds p ≠ .endless) :
    repeatedToEnd input m' start rounds p = repeatedToEnd input m start rounds p := by
  induction rounds generalizing p with
  | zero => rfl
  | succ rounds ih =>
      unfold repeatedToEnd at hends ⊢
      by_cases hend : input.size ≤ p
      · simp [hend]
      · simp only [hend, if_false] at hends ⊢
        have hm : m p ≠ .endless := by
          intro h
          simp [h] at hends
        rw [hext p hp hm]
        cases hmatch : m p with
        | done s =>
            by_cases hstop : s.stop = p
            · simp [hstop]
            · simp only [hmatch, hstop, if_false, ne_eq, Outcome.map_eq_endless_iff] at hends ⊢
              rw [ih (hb p s hp hmatch).2 hends]
        | failed e => rfl
        | endless => exact absurd hmatch hm

theorem untilEnd_extends (hext : Extends input m m') (hb : Bounded input m) :
    Extends input (untilEnd input m) (untilEnd input m') := by
  intro p hp hends
  unfold untilEnd at hends ⊢
  rw [ne_eq, Outcome.map_eq_endless_iff] at hends
  rw [repeatedToEnd_extends hext hb hp hends]

theorem except_extends (hext : Extends input m m') (refusal : Unit → Cause) :
    Extends input (except input m refusal) (except input m' refusal) := by
  intro p hp hends
  rw [except_eq] at hends ⊢
  rw [except_eq]
  cases hx : input[p]? with
  | none => rfl
  | some x =>
      have hm : m p ≠ .endless := by
        intro h
        simp [hx, h] at hends
      simp only [hext p hp hm]

theorem within_extends (hext : Extends input m m') :
    Extends input (within m) (within m') := by
  intro p hp hends
  unfold within at hends ⊢
  have hm : m p ≠ .endless := by
    intro h
    simp [h, Outcome.mapFailure, Outcome.map] at hends
  rw [hext p hp hm]

theorem labelled_extends (hext : Extends input m m') (name : String) :
    Extends input (labelled name m) (labelled name m') := by
  intro p hp hends
  unfold labelled at hends ⊢
  have hm : m p ≠ .endless := by
    intro h
    simp [h, Outcome.mapFailure, Outcome.map] at hends
  rw [hext p hp hm]

end Peg.Matcher

namespace Peg

variable {α κ : Type} [Key κ] [Item α κ] {input : Array α}

theorem Rule.matcher_extends {call call' : String → Matcher α}
    (hext : ∀ name, Matcher.Extends input (call name) (call' name))
    (hcall : ∀ name, Matcher.Lossless input (call name)) (r : Rule α κ) :
    Matcher.Extends input (r.matcher input call) (r.matcher input call') := by
  have hb (r : Rule α κ) : Matcher.Bounded input (r.matcher input call) :=
    (Rule.matcher_lossless hcall r).bounded
  induction r with
  | literal key => exact fun p _ _ => rfl
  | range lo hi => exact fun p _ _ => rfl
  | predicate q => exact fun p _ _ => rfl
  | seq rules ih =>
      rw [matcher_seq, matcher_seq]
      exact Matcher.sequence_extends ih fun r _ => hb r
  | alt rules ih =>
      rw [matcher_alt, matcher_alt]
      exact Matcher.firstOf_extends ih
  | oneOf rules ih =>
      rw [matcher_oneOf, matcher_oneOf]
      exact Matcher.exactlyOne_extends ih
  | star r ih => exact Matcher.zeroOrMore_extends ih (hb r)
  | plus r ih => exact Matcher.oneOrMore_extends ih (hb r)
  | opt r ih => exact Matcher.optional_extends ih
  | untilEnd r ih => exact Matcher.untilEnd_extends ih (hb r)
  | except r ih => exact Matcher.except_extends ih _
  | ref name => exact Matcher.within_extends (hext name)

namespace Grammar

/-- One more call passes from named rules to the rules that call them. -/
theorem callMatcher_succ_extends (g : Grammar α κ) {depth depth' : Nat}
    (hext : ∀ name, Matcher.Extends input (g.callMatcher input depth name)
      (g.callMatcher input depth' name)) (name : String) :
    Matcher.Extends input (g.callMatcher input (depth + 1) name)
      (g.callMatcher input (depth' + 1) name) := by
  intro p hp hends
  unfold callMatcher at hends ⊢
  cases hrule : g.rule? name with
  | none => rfl
  | some r =>
      simp only [hrule] at hends ⊢
      have hr := Rule.matcher_extends hext (g.callMatcher_lossless input depth) r
      exact Matcher.labelled_extends hr name p hp hends

theorem callMatcher_extends_succ (g : Grammar α κ) (input : Array α) (depth : Nat) :
    ∀ name, Matcher.Extends input (g.callMatcher input depth name)
      (g.callMatcher input (depth + 1) name) := by
  induction depth with
  | zero => exact fun name p _ hends => absurd rfl hends
  | succ depth ih => exact g.callMatcher_succ_extends ih

theorem callMatcher_extends (g : Grammar α κ) (input : Array α) {depth depth' : Nat}
    (hdepth : depth ≤ depth') (name : String) :
    Matcher.Extends input (g.callMatcher input depth name)
      (g.callMatcher input depth' name) := by
  induction hdepth with
  | refl => exact fun p _ _ => rfl
  | step hle ih =>
      intro p hp hends
      have heq := ih p hp hends
      rw [← heq] at hends ⊢
      exact g.callMatcher_extends_succ input _ name p hp hends

/-- A depth is saturated if one more call gives no further answer. -/
def Saturated (g : Grammar α κ) (input : Array α) (depth : Nat) : Prop :=
  ∀ name, Matcher.Extends input (g.callMatcher input (depth + 1) name)
    (g.callMatcher input depth name)

theorem Saturated.succ {g : Grammar α κ} {depth : Nat} (h : g.Saturated input depth) :
    g.Saturated input (depth + 1) :=
  g.callMatcher_succ_extends h

theorem Saturated.of_le {g : Grammar α κ} {depth depth' : Nat} (h : g.Saturated input depth)
    (hle : depth ≤ depth') : g.Saturated input depth' := by
  induction hle with
  | refl => exact h
  | step _ ih => exact ih.succ

open Classical in
/-- The declared names and positions at which calls of some depth come to an end. -/
noncomputable def settled (g : Grammar α κ) (input : Array α) (depth : Nat) :
    Finset (String × Nat) :=
  ((g.rules.map Prod.fst).toFinset ×ˢ Finset.range (input.size + 1)).filter
    fun x => g.callMatcher input depth x.1 x.2 ≠ .endless

theorem mem_settled {g : Grammar α κ} {depth : Nat} {name : String} {p : Nat} :
    (name, p) ∈ g.settled input depth ↔
      (name ∈ g.rules.map Prod.fst ∧ p ≤ input.size) ∧
        g.callMatcher input depth name p ≠ .endless := by
  simp only [settled, Finset.mem_filter, Finset.mem_product, List.mem_toFinset,
    Finset.mem_range, Nat.lt_succ_iff]

theorem settled_mono (g : Grammar α κ) (input : Array α) : Monotone (g.settled input) := by
  intro depth depth' hdepth x hx
  obtain ⟨⟨hname, hp⟩, hends⟩ := mem_settled.mp hx
  refine mem_settled.mpr ⟨⟨hname, hp⟩, ?_⟩
  rw [g.callMatcher_extends input hdepth x.1 x.2 hp hends]
  exact hends

theorem card_settled_le (g : Grammar α κ) (input : Array α) (depth : Nat) :
    (g.settled input depth).card ≤ g.rules.length * (input.size + 1) := by
  classical
  calc (g.settled input depth).card
      ≤ ((g.rules.map Prod.fst).toFinset ×ˢ Finset.range (input.size + 1)).card := by
        unfold settled
        exact Finset.card_le_card (Finset.filter_subset _ _)
    _ = (g.rules.map Prod.fst).toFinset.card * (input.size + 1) := by
        rw [Finset.card_product, Finset.card_range]
    _ ≤ g.rules.length * (input.size + 1) := by
        apply Nat.mul_le_mul_right
        simpa using List.toFinset_card_le (g.rules.map Prod.fst)

/-- Depths at which equally many calls come to an end are saturated. An undeclared name
needs one call to be found out, so depth zero is left aside. -/
theorem saturated_of_card_eq {g : Grammar α κ} {depth : Nat}
    (hcard : (g.settled input (depth + 1)).card = (g.settled input (depth + 2)).card) :
    g.Saturated input (depth + 1) := by
  have hsettled : g.settled input (depth + 1) = g.settled input (depth + 2) :=
    Finset.eq_of_subset_of_card_le (g.settled_mono input (Nat.le_succ _)) hcard.ge
  intro name p hp hends
  by_cases hname : name ∈ g.rules.map Prod.fst
  · have hmem : (name, p) ∈ g.settled input (depth + 1) := by
      rw [hsettled]
      exact mem_settled.mpr ⟨⟨hname, hp⟩, hends⟩
    have hends' := (mem_settled.mp hmem).2
    exact (g.callMatcher_extends_succ input (depth + 1) name p hp hends').symm
  · have hrule : g.rule? name = none := by
      rw [← Option.not_isSome_iff_eq_none]
      simpa [rule?, List.lookup_isSome_iff] using hname
    simp [callMatcher, hrule]

theorem saturated_callDepth (g : Grammar α κ) (input : Array α) :
    g.Saturated input (g.callDepth input) := by
  have hbound : g.rules.length * (input.size + 1) < g.callDepth input := by
    unfold callDepth
    rw [Nat.mul_comm]
    exact Nat.mul_lt_mul_of_pos_left (Nat.lt_succ_self _) (Nat.succ_pos _)
  obtain ⟨depth, hdepth⟩ := Nat.exists_eq_succ_of_ne_zero (Nat.ne_of_gt (Nat.zero_lt_of_lt hbound))
  have hstable (n : Nat) (hn : g.rules.length * (input.size + 1) ≤ n) :
      (g.settled input (n + 1)).card =
        (g.settled input (g.rules.length * (input.size + 1) + 1)).card := by
    refine Nat.stabilises_of_monotone (f := fun n => (g.settled input (n + 1)).card)
      ?_ (fun n => g.card_settled_le input (n + 1)) ?_ hn
    · intro n n' hle
      exact Finset.card_le_card (g.settled_mono input (Nat.succ_le_succ hle))
    · intro n hcard
      have hsat : g.Saturated input (n + 2) := (saturated_of_card_eq hcard).succ
      apply Nat.le_antisymm
      · exact Finset.card_le_card (g.settled_mono input (Nat.le_succ _))
      · apply Finset.card_le_card
        intro x hx
        obtain ⟨hx, hends⟩ := mem_settled.mp hx
        refine mem_settled.mpr ⟨hx, ?_⟩
        rw [hsat x.1 x.2 hx.2 hends]
        exact hends
  rw [hdepth]
  apply saturated_of_card_eq
  rw [hstable depth (by omega), hstable (depth + 1) (by omega)]

/-- Whatever a name comes to at some depth of calls is what it comes to. -/
theorem namedMatcher_eq_of_callMatcher (g : Grammar α κ) {depth : Nat} {name : String}
    {p : Nat} (hp : p ≤ input.size) (hends : g.callMatcher input depth name p ≠ .endless) :
    g.namedMatcher input name p = g.callMatcher input depth name p := by
  unfold namedMatcher
  rcases Nat.le_total depth (g.callDepth input) with hle | hle
  · exact g.callMatcher_extends input hle name p hp hends
  · induction hle with
    | refl => rfl
    | step hle ih =>
        have hsat := (g.saturated_callDepth input).of_le hle name p hp hends
        rw [← hsat] at hends ⊢
        exact ih hends

/-- Calls may nest deeper than attempts are given, to no effect. -/
theorem callMatcher_eq_of_le (g : Grammar α κ) {depth : Nat}
    (hdepth : g.callDepth input ≤ depth) (name : String) {p : Nat} (hp : p ≤ input.size) :
    g.callMatcher input depth name p = g.namedMatcher input name p := by
  by_cases hends : g.namedMatcher input name p = .endless
  · by_contra hne
    have hends' : g.callMatcher input depth name p ≠ .endless := hends ▸ hne
    exact hne (g.namedMatcher_eq_of_callMatcher hp hends').symm
  · exact g.callMatcher_extends input hdepth name p hp hends

theorem matcher_callMatcher_eq_of_le (g : Grammar α κ) {depth : Nat}
    (hdepth : g.callDepth input ≤ depth) (r : Rule α κ) {p : Nat} (hp : p ≤ input.size) :
    r.matcher input (g.callMatcher input depth) p = g.ruleMatcher input r p := by
  have hnames (name : String) {p : Nat} (hp : p ≤ input.size) :=
    g.callMatcher_eq_of_le hdepth name hp
  have hext := Rule.matcher_extends (fun name p hp _ => hnames name hp)
    (g.namedMatcher_lossless input) r
  have hext' := Rule.matcher_extends (fun name p hp _ => (hnames name hp).symm)
    (g.callMatcher_lossless input depth) r
  by_cases hends : g.ruleMatcher input r p = .endless
  · by_contra hne
    exact hne (hext' p hp (hends ▸ hne)).symm
  · exact hext p hp hends

/-- The matcher of a name is that of its rule under the name. -/
theorem namedMatcher_eq (g : Grammar α κ) (input : Array α) (name : String) {p : Nat}
    (hp : p ≤ input.size) :
    g.namedMatcher input name p =
      match g.rule? name with
      | none => .failed { cause := .unknownRule name, pos := p }
      | some r => Matcher.labelled name (g.ruleMatcher input r) p := by
  have hsucc : g.namedMatcher input name p =
      g.callMatcher input (g.callDepth input + 1) name p := by
    by_cases hends : g.callMatcher input (g.callDepth input + 1) name p = .endless
    · by_contra hne
      have hends' : g.namedMatcher input name p ≠ .endless := hends ▸ hne
      exact hne (g.callMatcher_extends_succ input _ name p hp hends').symm
    · exact g.saturated_callDepth input name p hp hends
  rw [hsucc]
  rfl

theorem namedMatcher_of_rule {g : Grammar α κ} {name : String} {r : Rule α κ}
    (hrule : g.rule? name = some r) {p : Nat} (hp : p ≤ input.size) :
    g.namedMatcher input name p = Matcher.labelled name (g.ruleMatcher input r) p := by
  have hnamed := g.namedMatcher_eq input name hp
  rwa [hrule] at hnamed

theorem namedMatcher_undeclared {g : Grammar α κ} {name : String}
    (hrule : g.rule? name = none) {p : Nat} (hp : p ≤ input.size) :
    g.namedMatcher input name p = .failed { cause := .unknownRule name, pos := p } := by
  have hnamed := g.namedMatcher_eq input name hp
  rwa [hrule] at hnamed

theorem namedMatcher_eq_done {g : Grammar α κ} {name : String} {r : Rule α κ}
    (hrule : g.rule? name = some r) {p : Nat} (hp : p ≤ input.size) {s : Match α}
    (h : g.ruleMatcher input r p = .done s) :
    g.namedMatcher input name p = .done { s with tree := s.tree.labelled name } := by
  rw [namedMatcher_of_rule hrule hp]
  exact Matcher.labelled_eq_done_iff.mpr ⟨s, h, rfl⟩

theorem namedMatcher_eq_failed {g : Grammar α κ} {name : String} {r : Rule α κ}
    (hrule : g.rule? name = some r) {p : Nat} (hp : p ≤ input.size) {f : Failure}
    (h : g.ruleMatcher input r p = .failed f) :
    g.namedMatcher input name p = .failed (f.named name) := by
  rw [namedMatcher_of_rule hrule hp]
  exact Matcher.labelled_eq_failed_iff.mpr ⟨f, h, rfl⟩

theorem namedMatcher_label (g : Grammar α κ) {name : String} {p : Nat}
    (hp : p ≤ input.size) {r : Match α} (h : g.namedMatcher input name p = .done r) :
    r.tree.label = some name := by
  rw [g.namedMatcher_eq input name hp] at h
  cases hrule : g.rule? name with
  | none => simp [hrule] at h
  | some rule =>
      simp only [hrule, Matcher.labelled_eq_done_iff] at h
      obtain ⟨s, -, rfl⟩ := h
      rfl

section Equations

variable (g : Grammar α κ) (input : Array α)

theorem ruleMatcher_literal (key : κ) :
    g.ruleMatcher input (.literal key) =
      Matcher.one input (fun x => Item.key x == key)
        (Rule.refusal (.literal key : Rule α κ)) := by
  rw [ruleMatcher, Rule.matcher]

theorem ruleMatcher_range (lo hi : κ) :
    g.ruleMatcher input (.range lo hi) =
      Matcher.one input (fun x => Key.le lo (Item.key x) && Key.le (Item.key x) hi)
        (Rule.refusal (.range lo hi : Rule α κ)) := by
  rw [ruleMatcher, Rule.matcher]

theorem ruleMatcher_predicate (q : Predicate α) :
    g.ruleMatcher input (.predicate q) =
      Matcher.one input q.test (Rule.refusal (.predicate q : Rule α κ)) := by
  rw [ruleMatcher, Rule.matcher]

theorem ruleMatcher_seq (rules : List (Rule α κ)) :
    g.ruleMatcher input (.seq rules) =
      Matcher.sequence (rules.map (g.ruleMatcher input)) :=
  Rule.matcher_seq input _ rules

theorem ruleMatcher_alt (rules : List (Rule α κ)) :
    g.ruleMatcher input (.alt rules) =
      Matcher.firstOf (rules.map (g.ruleMatcher input)) :=
  Rule.matcher_alt input _ rules

theorem ruleMatcher_oneOf (rules : List (Rule α κ)) :
    g.ruleMatcher input (.oneOf rules) =
      Matcher.exactlyOne Rule.render (rules.map fun r => (r, g.ruleMatcher input r)) :=
  Rule.matcher_oneOf input _ rules

theorem ruleMatcher_star (r : Rule α κ) :
    g.ruleMatcher input (.star r) = Matcher.zeroOrMore input (g.ruleMatcher input r) := by
  rw [ruleMatcher, Rule.matcher, ruleMatcher]

theorem ruleMatcher_plus (r : Rule α κ) :
    g.ruleMatcher input (.plus r) = Matcher.oneOrMore input (g.ruleMatcher input r) := by
  rw [ruleMatcher, Rule.matcher, ruleMatcher]

theorem ruleMatcher_opt (r : Rule α κ) :
    g.ruleMatcher input (.opt r) = Matcher.optional (g.ruleMatcher input r) := by
  rw [ruleMatcher, Rule.matcher, ruleMatcher]

theorem ruleMatcher_untilEnd (r : Rule α κ) :
    g.ruleMatcher input (.untilEnd r) = Matcher.untilEnd input (g.ruleMatcher input r) := by
  rw [ruleMatcher, Rule.matcher, ruleMatcher]

theorem ruleMatcher_except (r : Rule α κ) :
    g.ruleMatcher input (.except r) =
      Matcher.except input (g.ruleMatcher input r) fun _ => .unexpectedMatch r.render := by
  rw [ruleMatcher, Rule.matcher, ruleMatcher]

theorem ruleMatcher_ref (name : String) :
    g.ruleMatcher input (.ref name) = Matcher.within (g.namedMatcher input name) := rfl

end Equations

end Grammar

end Peg
