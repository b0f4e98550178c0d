import Peg.Proofs.Matching.LeftRecursion

/-!
Matching in an input and in another one that it is a part of. Let an input lie in another
from some position up to the end, where other items of the same keys may stand for its own.
Then a rule comes to the same in both: the trees differ by the items that stand for one
another, and positions by the place at which the one input begins in the other.
-/

namespace Peg

namespace ParseTree

variable {α β γ : Type}

mutual

/-- The tree with other values in place of its own. -/
def map (f : α → β) : ParseTree α → ParseTree β
  | ⟨label, value, children⟩ => ⟨label, value.map f, mapAll f children⟩

def mapAll (f : α → β) : List (ParseTree α) → List (ParseTree β)
  | [] => []
  | t :: ts => map f t :: mapAll f ts

end

theorem mapAll_eq_map (f : α → β) (ts : List (ParseTree α)) : mapAll f ts = ts.map (map f) := by
  induction ts with
  | nil => rfl
  | cons t ts ih => rw [mapAll, ih, List.map_cons]

theorem map_mk (f : α → β) (label : Option String) (value : Option α)
    (children : List (ParseTree α)) :
    map f ⟨label, value, children⟩ = ⟨label, value.map f, children.map (map f)⟩ := by
  rw [map, mapAll_eq_map]

@[simp] theorem map_leaf (f : α → β) (x : α) : (leaf x).map f = leaf (f x) := rfl

@[simp] theorem map_branch (f : α → β) (ts : List (ParseTree α)) :
    (branch ts).map f = branch (ts.map (map f)) := by
  rw [branch, map_mk]
  rfl

@[simp] theorem map_labelled (f : α → β) (name : String) (t : ParseTree α) :
    (t.labelled name).map f = (t.map f).labelled name := by
  cases t
  rw [labelled, map_mk, map_mk]
  rfl

theorem map_congr {f g : α → β} {t : ParseTree α} (h : ∀ x ∈ t.values, f x = g x) :
    t.map f = t.map g := by
  induction t with
  | node label value children ih =>
      rw [values_eq, List.forall_mem_append] at h
      obtain ⟨hvalue, hchildren⟩ := h
      have hhere : value.map f = value.map g := by
        cases value with
        | none => rfl
        | some x => exact congrArg some (hvalue x List.mem_cons_self)
      have hbelow : children.map (map f) = children.map (map g) :=
        List.map_congr_left fun t ht =>
          ih t ht fun x hx => hchildren x (List.mem_flatMap_of_mem ht hx)
      rw [map_mk, map_mk, hhere, hbelow]

@[simp] theorem map_id (t : ParseTree α) : t.map id = t := by
  induction t with
  | node label value children ih =>
      have hbelow : children.map (map id) = children := by
        rw [List.map_congr_left ih, List.map_id']
      rw [map_mk, Option.map_id, hbelow]
      rfl

theorem map_map (f : α → β) (g : β → γ) (t : ParseTree α) :
    (t.map f).map g = t.map (g ∘ f) := by
  induction t with
  | node label value children ih =>
      have hbelow : (children.map (map f)).map (map g) = children.map (map (g ∘ f)) := by
        rw [List.map_map]
        exact List.map_congr_left ih
      rw [map_mk, map_mk, map_mk, Option.map_map, hbelow]

end ParseTree

namespace Failure

mutual

/-- The failure with the positions of all its attempts moved on. -/
def shift (k : Nat) : Failure → Failure
  | ⟨cause, pos, name, children⟩ => ⟨cause, k + pos, name, shiftAll k children⟩

def shiftAll (k : Nat) : List Failure → List Failure
  | [] => []
  | f :: fs => shift k f :: shiftAll k fs

end

theorem shiftAll_eq_map (k : Nat) (fs : List Failure) : shiftAll k fs = fs.map (shift k) := by
  induction fs with
  | nil => rfl
  | cons f fs ih => rw [shiftAll, ih, List.map_cons]

@[simp] theorem shift_single (k p : Nat) (cause : Cause) :
    shift k { cause, pos := p } = { cause, pos := k + p } := rfl

@[simp] theorem shift_nested (k p : Nat) (f : Failure) :
    (nested p f).shift k = nested (k + p) (f.shift k) := rfl

@[simp] theorem shift_named (k : Nat) (name : String) (f : Failure) :
    (f.named name).shift k = (f.shift k).named name := by
  cases f
  rfl

@[simp] theorem shift_noAlternative (k p : Nat) (fs : List Failure) :
    (Matcher.noAlternative p fs).shift k = Matcher.noAlternative (k + p) (fs.map (shift k)) := by
  rw [← shiftAll_eq_map]
  rfl

end Failure

namespace Outcome

variable {β γ β' γ' : Type}

/-- The same outcome, with its value and its failure put in other terms. -/
def bimap (g : Failure → Failure) (h : β → γ) : Outcome β → Outcome γ
  | .done b => .done (h b)
  | .failed f => .failed (g f)
  | .endless => .endless

variable {g : Failure → Failure} {h : β → γ}

@[simp] theorem bimap_done (b : β) : (done b).bimap g h = done (h b) := rfl

@[simp] theorem bimap_failed (f : Failure) : (failed f : Outcome β).bimap g h = failed (g f) :=
  rfl

@[simp] theorem bimap_endless : (endless : Outcome β).bimap g h = endless := rfl

theorem bimap_map {h : γ → γ'} {h' : β → β'} {a : β → γ} {a' : β' → γ'}
    (hcomm : ∀ b, h (a b) = a' (h' b)) (o : Outcome β) :
    (o.map a).bimap g h = (o.bimap g h').map a' := by
  cases o with
  | done b => exact congrArg done (hcomm b)
  | failed f => rfl
  | endless => rfl

end Outcome

section Carrying

variable {α : Type} (f : α → α) (k : Nat)

/-- A match as it is seen from the input that contains the other one. -/
def Match.carry (r : Match α) : Match α :=
  ⟨r.tree.map f, k + r.stop⟩

def Run.carry (run : Run α) : Run α :=
  ⟨run.trees.map (ParseTree.map f), k + run.stop⟩

theorem Run.carry_cons (tree : ParseTree α) (run : Run α) :
    (run.cons tree).carry f k = (run.carry f k).cons (tree.map f) := rfl

theorem Run.asMatch_carry (run : Run α) : run.asMatch.carry f k = (run.carry f k).asMatch := by
  rw [asMatch, Match.carry, ParseTree.map_branch]
  rfl

theorem Matcher.wrap_carry (r : Match α) : (wrap r).carry f k = wrap (r.carry f k) := by
  rw [wrap, Match.carry, ParseTree.map_branch]
  rfl

end Carrying

/-- An input lies in another from a position up to the end, where items of the same keys
stand for its own. -/
structure Embeds {α κ : Type} [Item α κ] (f : α → α) (k : Nat) (input input' : Array α) :
    Prop where
  size_eq : input'.size = k + input.size
  getElem?_eq : ∀ p : Nat, input'[k + p]? = input[p]?.map f
  key_eq : ∀ x ∈ input, Item.key (f x) = Item.key x

namespace Matcher

variable {α β γ : Type} {f : α → α} {k : Nat}

/-- Wherever a matcher is tried, another comes to the same at the place in the input that
contains the other one. -/
def Carries (f : α → α) (k : Nat) (m m' : Matcher α) : Prop :=
  ∀ p, m' (k + p) = (m p).bimap (.shift k) (.carry f k)

section Lists

variable {rs : List γ} {m m' : γ → Matcher α}

theorem runAll_carries (h : ∀ r ∈ rs, Carries f k (m r) (m' r)) (start p : Nat) :
    runAll (k + start) (rs.map m') (k + p) =
      (runAll start (rs.map m) p).bimap (.shift k) (.carry f k) := by
  induction rs generalizing p with
  | nil => rfl
  | cons r rs ih =>
      obtain ⟨hr, hrs⟩ := List.forall_mem_cons.mp h
      simp only [List.map_cons, runAll, hr p]
      cases m r p with
      | done s =>
          simp only [Outcome.bimap_done, Match.carry, ih hrs]
          exact (Outcome.bimap_map (Run.carry_cons f k s.tree) _).symm
      | failed e => rfl
      | endless => rfl

theorem sequence_carries (h : ∀ r ∈ rs, Carries f k (m r) (m' r)) :
    Carries f k (sequence (rs.map m)) (sequence (rs.map m')) := by
  intro p
  rw [sequence, sequence, runAll_carries h]
  exact (Outcome.bimap_map (Run.asMatch_carry f k) _).symm

/-- The choice of a matcher, or what all of them failed with, carried as matches are. -/
def carryChoice (f : α → α) (k : Nat) :
    Except (List Failure) (Match α) → Except (List Failure) (Match α)
  | .ok r => .ok (r.carry f k)
  | .error failures => .error (failures.map (.shift k))

theorem tryAll_carries (h : ∀ r ∈ rs, Carries f k (m r) (m' r)) (p : Nat) :
    tryAll (k + p) (rs.map m') =
      (tryAll p (rs.map m)).bimap (.shift k) (carryChoice f k) := by
  induction rs with
  | nil => rfl
  | cons r rs ih =>
      obtain ⟨hr, hrs⟩ := List.forall_mem_cons.mp h
      simp only [List.map_cons, tryAll, hr p]
      cases m r p with
      | done s => rfl
      | failed e =>
          simp only [Outcome.bimap_failed, ih hrs]
          refine (Outcome.bimap_map ?_ _).symm
          rintro (failures | s)
          · rfl
          · rfl
      | endless => rfl

theorem firstOf_carries (h : ∀ r ∈ rs, Carries f k (m r) (m' r)) :
    Carries f k (firstOf (rs.map m)) (firstOf (rs.map m')) := by
  intro p
  rw [firstOf, firstOf, tryAll_carries h]
  cases tryAll p (rs.map m) with
  | done choice =>
      cases choice with
      | ok s => exact congrArg Outcome.done (wrap_carry f k s).symm
      | error failures => exact congrArg Outcome.failed (Failure.shift_noAlternative k p _).symm
  | failed e => rfl
  | endless => rfl

def carrySurvey (f : α → α) (k : Nat) :
    List (β × Match α) × List Failure → List (β × Match α) × List Failure
  | (matched, failures) =>
      (matched.map fun (b, r) => (b, r.carry f k), failures.map (.shift k))

theorem survey_carries {tag : γ → β} (h : ∀ r ∈ rs, Carries f k (m r) (m' r)) (p : Nat) :
    survey (k + p) (rs.map fun r => (tag r, m' r)) =
      (survey p (rs.map fun r => (tag r, m r))).bimap (.shift k) (carrySurvey f k) := by
  induction rs with
  | nil => rfl
  | cons r rs ih =>
      obtain ⟨hr, hrs⟩ := List.forall_mem_cons.mp h
      simp only [List.map_cons, survey, hr p]
      cases m r p with
      | done s =>
          simp only [Outcome.bimap_done, ih hrs]
          refine (Outcome.bimap_map ?_ _).symm
          rintro ⟨matched, failures⟩
          rfl
      | failed e =>
          simp only [Outcome.bimap_failed, ih hrs]
          refine (Outcome.bimap_map ?_ _).symm
          rintro ⟨matched, failures⟩
          rfl
      | endless => rfl

theorem exactlyOne_carries {tag : γ → β} (describe : β → String)
    (h : ∀ r ∈ rs, Carries f k (m r) (m' r)) :
    Carries f k (exactlyOne describe (rs.map fun r => (tag r, m r)))
      (exactlyOne describe (rs.map fun r => (tag r, m' r))) := by
  intro p
  rw [exactlyOne, exactlyOne, survey_carries h]
  cases survey p (rs.map fun r => (tag r, m r)) with
  | done found =>
      obtain ⟨matched, failures⟩ := found
      cases matched with
      | nil => exact congrArg Outcome.failed (Failure.shift_noAlternative k p _).symm
      | cons first others =>
          cases others with
          | nil => exact congrArg Outcome.done (wrap_carry f k first.2).symm
          | cons second rest => simp [Outcome.bind, carrySurvey]
  | failed e => rfl
  | endless => rfl

end Lists

section Parts

variable {m m' : Matcher α} {κ : Type} [Item α κ] {input input' : Array α}

theorem one_carries (hin : Embeds f k input input') {accept : α → Bool} {refusal : α → Cause}
    (haccept : ∀ x ∈ input, accept (f x) = accept x)
    (hrefusal : ∀ x ∈ input, refusal (f x) = refusal x) :
    Carries f k (one input accept refusal) (one input' accept refusal) := by
  intro p
  rw [one_eq, one_eq, hin.getElem?_eq]
  cases hx : input[p]? with
  | none => rfl
  | some x =>
      have hmem : x ∈ input := Array.mem_of_getElem? hx
      simp only [Option.map_some, haccept x hmem, hrefusal x hmem]
      cases accept x with
      | true => rfl
      | false => rfl

theorem except_carries (hin : Embeds f k input input') (h : Carries f k m m')
    (refusal : Unit → Cause) :
    Carries f k (except input m refusal) (except input' m' refusal) := by
  intro p
  rw [except_eq, except_eq, hin.getElem?_eq, h p]
  cases input[p]? with
  | none => rfl
  | some x =>
      cases m p with
      | done s => rfl
      | failed e => rfl
      | endless => rfl

theorem roundsFrom_eq (hin : Embeds f k input input') (p : Nat) :
    roundsFrom input' (k + p) = roundsFrom input p := by
  rw [roundsFrom, roundsFrom, hin.size_eq, Nat.add_sub_add_left]

theorem repeated_carries (h : Carries f k m m') (rounds p : Nat) :
    repeated m' rounds (k + p) = (repeated m rounds p).bimap (.shift k) (.carry f k) := by
  induction rounds generalizing p with
  | zero => rfl
  | succ rounds ih =>
      rw [repeated, repeated, h p]
      cases m p with
      | done s =>
          -- Whether a round consumes something is the same for positions that are both moved on.
          by_cases hstop : s.stop = p
          · simp [Match.carry, Run.carry, hstop]
          · simp only [Outcome.bimap_done, Match.carry, Nat.add_left_cancel_iff, hstop, if_false, ih]
            exact (Outcome.bimap_map (Run.carry_cons f k s.tree) _).symm
      | failed e => rfl
      | endless => rfl

theorem zeroOrMore_carries (hin : Embeds f k input input') (h : Carries f k m m') :
    Carries f k (zeroOrMore input m) (zeroOrMore input' m') := by
  intro p
  rw [zeroOrMore, zeroOrMore, roundsFrom_eq hin, repeated_carries h]
  exact (Outcome.bimap_map (Run.asMatch_carry f k) _).symm

theorem oneOrMore_carries (hin : Embeds f k input input') (h : Carries f k m m') :
    Carries f k (oneOrMore input m) (oneOrMore input' m') := by
  intro p
  rw [oneOrMore, oneOrMore, h p]
  cases m p with
  | done s =>
      simp only [Outcome.bimap_done, Match.carry, roundsFrom_eq hin, repeated_carries h]
      refine (Outcome.bimap_map ?_ _).symm
      exact fun run => Run.asMatch_carry f k (run.cons s.tree)
  | failed e => rfl
  | endless => rfl

theorem optional_carries (h : Carries f k m m') : Carries f k (optional m) (optional m') := by
  intro p
  rw [optional, optional, h p]
  cases m p with
  | done s => exact congrArg Outcome.done (wrap_carry f k s).symm
  | failed e => rfl
  | endless => rfl

theorem repeatedToEnd_carries (hin : Embeds f k input input') (h : Carries f k m m')
    (start rounds p : Nat) :
    repeatedToEnd input' m' (k + start) rounds (k + p) =
      (repeatedToEnd input m start rounds p).bimap (.shift k) (.carry f k) := by
  induction rounds generalizing p with
  | zero => rfl
  | succ rounds ih =>
      rw [repeatedToEnd, repeatedToEnd, hin.size_eq]
      by_cases hend : input.size ≤ p
      · simp [hend, Run.carry]
      · simp only [Nat.add_le_add_iff_left, hend, if_false, h p]
        cases m p with
        | done s =>
            by_cases hstop : s.stop = p
            · simp [Match.carry, hstop]
            · simp only [Outcome.bimap_done, Match.carry, Nat.add_left_cancel_iff, hstop, if_false, ih]
              exact (Outcome.bimap_map (Run.carry_cons f k s.tree) _).symm
        | failed e => rfl
        | endless => rfl

theorem untilEnd_carries (hin : Embeds f k input input') (h : Carries f k m m') :
    Carries f k (untilEnd input m) (untilEnd input' m') := by
  intro p
  rw [untilEnd, untilEnd, roundsFrom_eq hin, repeatedToEnd_carries hin h]
  exact (Outcome.bimap_map (Run.asMatch_carry f k) _).symm

theorem within_carries (h : Carries f k m m') : Carries f k (within m) (within m') := by
  intro p
  rw [within, within, h p]
  cases m p with
  | done s => exact congrArg Outcome.done (wrap_carry f k s).symm
  | failed e => rfl
  | endless => rfl

theorem labelled_carries (h : Carries f k m m') (name : String) :
    Carries f k (labelled name m) (labelled name m') := by
  intro p
  rw [labelled, labelled, h p]
  cases m p with
  | done s => simp [Outcome.map, Outcome.mapFailure, Match.carry]
  | failed e => simp [Outcome.map, Outcome.mapFailure]
  | endless => rfl

end Parts

end Matcher

namespace Rule

variable {α κ : Type}

mutual

/-- The predicates in a rule, in their order. -/
def predicates : Rule α κ → List (Predicate α)
  | .literal _ => []
  | .range _ _ => []
  | .predicate q => [q]
  | .seq rules => allPredicates rules
  | .alt rules => allPredicates rules
  | .oneOf rules => allPredicates rules
  | .star r => predicates r
  | .plus r => predicates r
  | .opt r => predicates r
  | .untilEnd r => predicates r
  | .except r => predicates r
  | .ref _ => []

def allPredicates : List (Rule α κ) → List (Predicate α)
  | [] => []
  | r :: rules => predicates r ++ allPredicates rules

end

theorem allPredicates_eq_flatMap (rules : List (Rule α κ)) :
    allPredicates rules = rules.flatMap predicates := by
  induction rules with
  | nil => rfl
  | cons r rules ih => rw [allPredicates, ih, List.flatMap_cons]

theorem predicates_seq (rules : List (Rule α κ)) :
    (seq rules).predicates = rules.flatMap predicates := by
  rw [predicates, allPredicates_eq_flatMap]

theorem predicates_alt (rules : List (Rule α κ)) :
    (alt rules).predicates = rules.flatMap predicates := by
  rw [predicates, allPredicates_eq_flatMap]

theorem predicates_oneOf (rules : List (Rule α κ)) :
    (oneOf rules).predicates = rules.flatMap predicates := by
  rw [predicates, allPredicates_eq_flatMap]

/-- Predicates look at whole items, not at keys. Those of a rule have to judge an item as they
judge the one that stands for it. -/
def Respects (f : α → α) (input : Array α) (r : Rule α κ) : Prop :=
  ∀ q ∈ r.predicates, ∀ x ∈ input, q.test (f x) = q.test x

theorem respects_id (input : Array α) (r : Rule α κ) : r.Respects id input :=
  fun _ _ _ _ => rfl

theorem respects_of_predicates_eq_nil {f : α → α} {input : Array α} {r : Rule α κ}
    (h : r.predicates = []) : r.Respects f input := by
  intro q hq
  rw [h] at hq
  cases hq

variable [Key κ] [Item α κ] {f : α → α} {k : Nat} {input input' : Array α}

theorem matcher_carries (hin : Embeds f k input input') {call call' : String → Matcher α}
    (hcall : ∀ name, Matcher.Carries f k (call name) (call' name)) (r : Rule α κ)
    (hr : r.Respects f input) :
    Matcher.Carries f k (r.matcher input call) (r.matcher input' call') := by
  have hrefusal (s : Rule α κ) : ∀ x ∈ input, s.refusal (f x) = s.refusal x := by
    intro x hx
    rw [refusal, refusal, hin.key_eq x hx]
  have hparts {rules : List (Rule α κ)}
      (ih : ∀ r ∈ rules, r.Respects f input →
        Matcher.Carries f k (r.matcher input call) (r.matcher input' call'))
      (hr : ∀ q ∈ rules.flatMap predicates, ∀ x ∈ input, q.test (f x) = q.test x) :
      ∀ r ∈ rules, Matcher.Carries f k (r.matcher input call) (r.matcher input' call') :=
    fun r hmem => ih r hmem fun q hq => hr q (List.mem_flatMap_of_mem hmem hq)
  induction r with
  | literal key =>
      exact Matcher.one_carries hin (fun x hx => by rw [hin.key_eq x hx]) (hrefusal _)
  | range lo hi =>
      exact Matcher.one_carries hin (fun x hx => by rw [hin.key_eq x hx]) (hrefusal _)
  | predicate q =>
      exact Matcher.one_carries hin (hr q List.mem_cons_self) (hrefusal _)
  | seq rules ih =>
      rw [Respects, predicates_seq] at hr
      rw [matcher_seq, matcher_seq]
      exact Matcher.sequence_carries (hparts ih hr)
  | alt rules ih =>
      rw [Respects, predicates_alt] at hr
      rw [matcher_alt, matcher_alt]
      exact Matcher.firstOf_carries (hparts ih hr)
  | oneOf rules ih =>
      rw [Respects, predicates_oneOf] at hr
      rw [matcher_oneOf, matcher_oneOf]
      exact Matcher.exactlyOne_carries render (hparts ih hr)
  | star r ih => exact Matcher.zeroOrMore_carries hin (ih hr)
  | plus r ih => exact Matcher.oneOrMore_carries hin (ih hr)
  | opt r ih => exact Matcher.optional_carries (ih hr)
  | untilEnd r ih => exact Matcher.untilEnd_carries hin (ih hr)
  | except r ih => exact Matcher.except_carries hin (ih hr) _
  | ref name => exact Matcher.within_carries (hcall name)

end Rule

namespace Grammar

variable {α κ : Type} [Key κ] [Item α κ] {f : α → α} {k : Nat} {input input' : Array α}
  {g : Grammar α κ}

theorem callMatcher_carries (hin : Embeds f k input input')
    (hg : ∀ entry ∈ g.rules, entry.2.Respects f input) (depth : Nat) (name : String) :
    Matcher.Carries f k (g.callMatcher input depth name) (g.callMatcher input' depth name) := by
  induction depth generalizing name with
  | zero => exact fun p => rfl
  | succ depth ih =>
      intro p
      unfold callMatcher
      cases hrule : g.rule? name with
      | none => rfl
      | some r =>
          have hr : r.Respects f input := hg (name, r) (g.rule?_eq_some_iff.mp hrule)
          exact Matcher.labelled_carries (Rule.matcher_carries hin ih r hr) name p

/-- The depths of calls that do for the two inputs differ; both are given the larger one. -/
theorem namedMatcher_carries (hin : Embeds f k input input')
    (hg : ∀ entry ∈ g.rules, entry.2.Respects f input) (name : String) {p : Nat}
    (hp : p ≤ input.size) :
    g.namedMatcher input' name (k + p) =
      (g.namedMatcher input name p).bimap (.shift k) (.carry f k) := by
  let depth := max (g.callDepth input) (g.callDepth input')
  have hp' : k + p ≤ input'.size := hin.size_eq ▸ Nat.add_le_add_left hp k
  calc g.namedMatcher input' name (k + p)
      = g.callMatcher input' depth name (k + p) :=
        (g.callMatcher_eq_of_le (Nat.le_max_right _ _) name hp').symm
    _ = (g.callMatcher input depth name p).bimap (.shift k) (.carry f k) :=
        callMatcher_carries hin hg depth name p
    _ = (g.namedMatcher input name p).bimap (.shift k) (.carry f k) := by
        rw [g.callMatcher_eq_of_le (Nat.le_max_left _ _) name hp]

theorem ruleMatcher_carries (hin : Embeds f k input input')
    (hg : ∀ entry ∈ g.rules, entry.2.Respects f input) {r : Rule α κ}
    (hr : r.Respects f input) {p : Nat} (hp : p ≤ input.size) :
    g.ruleMatcher input' r (k + p) =
      (g.ruleMatcher input r p).bimap (.shift k) (.carry f k) := by
  let depth := max (g.callDepth input) (g.callDepth input')
  have hp' : k + p ≤ input'.size := hin.size_eq ▸ Nat.add_le_add_left hp k
  calc g.ruleMatcher input' r (k + p)
      = r.matcher input' (g.callMatcher input' depth) (k + p) :=
        (g.matcher_callMatcher_eq_of_le (Nat.le_max_right _ _) r hp').symm
    _ = (r.matcher input (g.callMatcher input depth) p).bimap (.shift k) (.carry f k) :=
        Rule.matcher_carries hin (callMatcher_carries hin hg depth) r hr p
    _ = (g.ruleMatcher input r p).bimap (.shift k) (.carry f k) := by
        rw [g.matcher_callMatcher_eq_of_le (Nat.le_max_left _ _) r hp]

end Grammar

end Peg
