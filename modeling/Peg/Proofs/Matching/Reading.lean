import Peg.Proofs.Matching.Yields

/-!
What a match says about the items it has taken. The readings of a rule are those of a
context-free grammar: which alternative comes first and how often a repetition goes on
are left aside, and an exception keeps out no more than the single items of its rule.
Every match is a reading. So what holds of all readings of every declared rule, given
that it holds of the names in that rule, holds of all matches.
-/

namespace Peg

section Readings

variable {α κ : Type} [Key κ] [Item α κ]

/-- An item at which a rule for single items does not fail. -/
inductive Rule.TakesItem : Rule α κ → α → Prop
  | literal {key : κ} {x : α} (hx : (Item.key x == key) = true) : TakesItem (.literal key) x
  | range {lo hi : κ} {x : α}
      (hx : (Key.le lo (Item.key x) && Key.le (Item.key x) hi) = true) :
      TakesItem (.range lo hi) x
  | predicate {q : Predicate α} {x : α} (hx : q.test x = true) :
      TakesItem (.predicate q) x
  | alt {r : Rule α κ} {rs : List (Rule α κ)} {x : α} (hr : r ∈ rs) (h : TakesItem r x) :
      TakesItem (.alt rs) x

/-- The items and the outline of a rule, where `C` says them of every name. -/
inductive Rule.Reads (C : String → List α → List (Outline α) → Prop) :
    Rule α κ → List α → List (Outline α) → Prop
  | literal {key : κ} {x : α} (hx : (Item.key x == key) = true) :
      Reads C (.literal key) [x] [.item x]
  | range {lo hi : κ} {x : α}
      (hx : (Key.le lo (Item.key x) && Key.le (Item.key x) hi) = true) :
      Reads C (.range lo hi) [x] [.item x]
  | predicate {q : Predicate α} {x : α} (hx : q.test x = true) :
      Reads C (.predicate q) [x] [.item x]
  | except {r : Rule α κ} {x : α} (hx : ¬ r.TakesItem x) :
      Reads C (.except r) [x] [.item x]
  | seqNil : Reads C (.seq []) [] []
  | seqCons {r : Rule α κ} {rs : List (Rule α κ)} {xs ys : List α}
      {os os' : List (Outline α)} (head : Reads C r xs os) (tail : Reads C (.seq rs) ys os') :
      Reads C (.seq (r :: rs)) (xs ++ ys) (os ++ os')
  | alt {r : Rule α κ} {rs : List (Rule α κ)} {xs : List α} {os : List (Outline α)}
      (hr : r ∈ rs) (h : Reads C r xs os) : Reads C (.alt rs) xs os
  | oneOf {r : Rule α κ} {rs : List (Rule α κ)} {xs : List α} {os : List (Outline α)}
      (hr : r ∈ rs) (h : Reads C r xs os) : Reads C (.oneOf rs) xs os
  | starNil (r : Rule α κ) : Reads C (.star r) [] []
  | starCons {r : Rule α κ} {xs ys : List α} {os os' : List (Outline α)}
      (head : Reads C r xs os) (tail : Reads C (.star r) ys os') :
      Reads C (.star r) (xs ++ ys) (os ++ os')
  | plus {r : Rule α κ} {xs ys : List α} {os os' : List (Outline α)}
      (head : Reads C r xs os) (tail : Reads C (.star r) ys os') :
      Reads C (.plus r) (xs ++ ys) (os ++ os')
  | optNone (r : Rule α κ) : Reads C (.opt r) [] []
  | optSome {r : Rule α κ} {xs : List α} {os : List (Outline α)} (h : Reads C r xs os) :
      Reads C (.opt r) xs os
  | untilEnd {r : Rule α κ} {xs : List α} {os : List (Outline α)}
      (h : Reads C (.star r) xs os) : Reads C (.untilEnd r) xs os
  | ref {name : String} {xs : List α} {os : List (Outline α)} (h : C name xs os) :
      Reads C (.ref name) xs [.node name os]

namespace Rule

variable {C : String → List α → List (Outline α) → Prop} {r : Rule α κ}
  {rs : List (Rule α κ)} {xs : List α} {os : List (Outline α)}

theorem reads_literal_iff [LawfulBEq κ] {key : κ} :
    (literal key).Reads C xs os ↔ ∃ x, Item.key x = key ∧ xs = [x] ∧ os = [.item x] := by
  constructor
  · intro h
    cases h with
    | literal hx => exact ⟨_, eq_of_beq hx, rfl, rfl⟩
  · rintro ⟨x, hx, rfl, rfl⟩
    exact .literal (beq_iff_eq.mpr hx)

theorem reads_seq_nil_iff : (seq []).Reads C xs os ↔ xs = [] ∧ os = [] := by
  constructor
  · intro h
    cases h
    exact ⟨rfl, rfl⟩
  · rintro ⟨rfl, rfl⟩
    exact .seqNil

theorem reads_seq_cons_iff :
    (seq (r :: rs)).Reads C xs os ↔
      ∃ ys zs ps qs, r.Reads C ys ps ∧ (seq rs).Reads C zs qs ∧ xs = ys ++ zs ∧
        os = ps ++ qs := by
  constructor
  · intro h
    cases h with
    | seqCons head tail => exact ⟨_, _, _, _, head, tail, rfl, rfl⟩
  · rintro ⟨ys, zs, ps, qs, head, tail, rfl, rfl⟩
    exact .seqCons head tail

theorem reads_alt_iff : (alt rs).Reads C xs os ↔ ∃ r ∈ rs, r.Reads C xs os := by
  constructor
  · intro h
    cases h with
    | alt hr h => exact ⟨_, hr, h⟩
  · rintro ⟨r, hr, h⟩
    exact .alt hr h

theorem reads_plus_iff :
    (plus r).Reads C xs os ↔
      ∃ ys zs ps qs, r.Reads C ys ps ∧ (star r).Reads C zs qs ∧ xs = ys ++ zs ∧
        os = ps ++ qs := by
  constructor
  · intro h
    cases h with
    | plus head tail => exact ⟨_, _, _, _, head, tail, rfl, rfl⟩
  · rintro ⟨ys, zs, ps, qs, head, tail, rfl, rfl⟩
    exact .plus head tail

theorem reads_untilEnd_iff : (untilEnd r).Reads C xs os ↔ (star r).Reads C xs os := by
  constructor
  · intro h
    cases h with
    | untilEnd h => exact h
  · exact .untilEnd

theorem reads_ref_iff {name : String} :
    (ref name).Reads C xs os ↔ ∃ parts, os = [.node name parts] ∧ C name xs parts := by
  constructor
  · intro h
    cases h with
    | ref h => exact ⟨_, rfl, h⟩
  · rintro ⟨parts, rfl, h⟩
    exact .ref h

theorem reads_seq_literal_iff [LawfulBEq κ] {key : κ} :
    (seq (literal key :: rs)).Reads C xs os ↔
      ∃ x ys qs, xs = x :: ys ∧ os = .item x :: qs ∧ Item.key x = key ∧
        (seq rs).Reads C ys qs := by
  rw [reads_seq_cons_iff]
  constructor
  · rintro ⟨ys, zs, ps, qs, head, tail, rfl, rfl⟩
    obtain ⟨x, hx, rfl, rfl⟩ := reads_literal_iff.mp head
    exact ⟨x, zs, qs, rfl, rfl, hx, tail⟩
  · rintro ⟨x, ys, qs, rfl, rfl, hx, tail⟩
    exact ⟨[x], ys, [.item x], qs, .literal (beq_iff_eq.mpr hx), tail, rfl, rfl⟩

theorem reads_seq_ref_iff {name : String} :
    (seq (ref name :: rs)).Reads C xs os ↔
      ∃ ys zs parts qs, xs = ys ++ zs ∧ os = .node name parts :: qs ∧ C name ys parts ∧
        (seq rs).Reads C zs qs := by
  rw [reads_seq_cons_iff]
  constructor
  · rintro ⟨ys, zs, ps, qs, head, tail, rfl, rfl⟩
    obtain ⟨parts, rfl, hparts⟩ := reads_ref_iff.mp head
    exact ⟨ys, zs, parts, qs, rfl, rfl, hparts, tail⟩
  · rintro ⟨ys, zs, parts, qs, rfl, rfl, hparts, tail⟩
    exact ⟨ys, zs, [.node name parts], qs, .ref hparts, tail, rfl, rfl⟩

theorem reads_alt_refs_iff (names : List String) :
    (alt (names.map ref)).Reads C xs os ↔
      ∃ name ∈ names, ∃ parts, os = [.node name parts] ∧ C name xs parts := by
  simp [reads_alt_iff, reads_ref_iff]

/-- What holds of no items and is kept by each round holds of a repetition. -/
theorem Reads.star_induction {P : List α → List (Outline α) → Prop}
    (h : (star r).Reads C xs os) (nil : P [] [])
    (cons : ∀ ys zs ps qs, r.Reads C ys ps → P zs qs → P (ys ++ zs) (ps ++ qs)) : P xs os := by
  generalize hrule : star r = s at h
  induction h with
  | starNil r' => exact nil
  | starCons head tail ihHead ihTail =>
      cases hrule
      exact cons _ _ _ _ head (ihTail rfl)
  | _ => cases hrule

theorem Reads.mono {C' : String → List α → List (Outline α) → Prop} (h : r.Reads C xs os)
    (hC : ∀ name ys ps, C name ys ps → C' name ys ps) : r.Reads C' xs os := by
  induction h with
  | literal hx => exact .literal hx
  | range hx => exact .range hx
  | predicate hx => exact .predicate hx
  | except hx => exact .except hx
  | seqNil => exact .seqNil
  | seqCons head tail ihHead ihTail => exact .seqCons ihHead ihTail
  | alt hr h ih => exact .alt hr ih
  | oneOf hr h ih => exact .oneOf hr ih
  | starNil r => exact .starNil r
  | starCons head tail ihHead ihTail => exact .starCons ihHead ihTail
  | plus head tail ihHead ihTail => exact .plus ihHead ihTail
  | optNone r => exact .optNone r
  | optSome h ih => exact .optSome ih
  | untilEnd h ih => exact .untilEnd ih
  | ref h => exact .ref (hC _ _ _ h)

/-- Where all items are of some sort, so are those of the names. -/
theorem Reads.given {P : α → Prop}
    (h : r.Reads (fun name ys ps => (∀ y ∈ ys, P y) → C name ys ps) xs os)
    (hxs : ∀ x ∈ xs, P x) : r.Reads C xs os := by
  induction h with
  | literal hx => exact .literal hx
  | range hx => exact .range hx
  | predicate hx => exact .predicate hx
  | except hx => exact .except hx
  | seqNil => exact .seqNil
  | seqCons head tail ihHead ihTail =>
      obtain ⟨hys, hzs⟩ := List.forall_mem_append.mp hxs
      exact .seqCons (ihHead hys) (ihTail hzs)
  | alt hr h ih => exact .alt hr (ih hxs)
  | oneOf hr h ih => exact .oneOf hr (ih hxs)
  | starNil r => exact .starNil r
  | starCons head tail ihHead ihTail =>
      obtain ⟨hys, hzs⟩ := List.forall_mem_append.mp hxs
      exact .starCons (ihHead hys) (ihTail hzs)
  | plus head tail ihHead ihTail =>
      obtain ⟨hys, hzs⟩ := List.forall_mem_append.mp hxs
      exact .plus (ihHead hys) (ihTail hzs)
  | optNone r => exact .optNone r
  | optSome h ih => exact .optSome (ih hxs)
  | untilEnd h ih => exact .untilEnd (ih hxs)
  | ref h => exact .ref (h hxs)

end Rule

/-- All matches of a matcher have a certain reading. -/
def Matcher.Tells (input : Array α) (m : Matcher α)
    (reading : List α → List (Outline α) → Prop) : Prop :=
  ∀ p s, p ≤ input.size → m p = .done s → reading s.tree.values s.tree.outline

variable {C : String → List α → List (Outline α) → Prop} {input : Array α}

theorem Rule.TakesItem.not_failed {call : String → Matcher α} {r : Rule α κ} {x : α}
    (h : r.TakesItem x) {p : Nat} (hx : input[p]? = some x) (f : Failure) :
    r.matcher input call p ≠ .failed f := by
  induction h generalizing f with
  | literal hkey =>
      rw [matcher, Matcher.one_eq]
      simp [hx, hkey]
  | range hrange =>
      rw [matcher, Matcher.one_eq]
      simp [hx, hrange]
  | predicate htest =>
      rw [matcher, Matcher.one_eq]
      simp [hx, htest]
  | @alt r rs x hr h ih =>
      intro hfailed
      rw [matcher_alt, Matcher.firstOf_eq_failed_iff] at hfailed
      obtain ⟨fs, hfs, -⟩ := hfailed
      have hmem : matcher input call r p ∈
          (rs.map (matcher input call)).map fun m => m p := by
        rw [List.map_map]
        exact List.mem_map_of_mem hr
      rw [hfs] at hmem
      obtain ⟨e, -, he⟩ := List.mem_map.mp hmem
      exact ih hx e he.symm

theorem Matcher.Tells.consecutive {rs : List (Rule α κ)} {f : Rule α κ → Matcher α}
    (hf : ∀ r ∈ rs, (f r).Lossless input) (h : ∀ r ∈ rs, (f r).Tells input (r.Reads C))
    {p : Nat} (hp : p ≤ input.size) {run : Run α} (hrun : Consecutive (rs.map f) p run) :
    (Rule.seq rs).Reads C run.asMatch.tree.values run.asMatch.tree.outline := by
  induction rs generalizing p run with
  | nil =>
      cases hrun
      simpa [Run.asMatch, ParseTree.outline_branch] using Rule.Reads.seqNil
  | cons r rs ih =>
      cases hrun with
      | cons head tail =>
          have hread := h r List.mem_cons_self p _ hp head
          have hstop := (hf r List.mem_cons_self p _ hp head).stop_le
          have htail := ih (fun r hr => hf r (List.mem_cons_of_mem _ hr))
            (fun r hr => h r (List.mem_cons_of_mem _ hr)) hstop tail
          simpa [Run.asMatch, Run.cons, ParseTree.outline_branch] using
            Rule.Reads.seqCons hread htail

theorem Matcher.Tells.rounds {r : Rule α κ} {m : Matcher α} (hm : m.Lossless input)
    (h : m.Tells input (r.Reads C)) {p : Nat} (hp : p ≤ input.size) {run : Run α}
    (hrun : Rounds m p run) :
    (Rule.star r).Reads C run.asMatch.tree.values run.asMatch.tree.outline := by
  induction hrun with
  | nil p => simpa [Run.asMatch, ParseTree.outline_branch] using Rule.Reads.starNil r
  | cons head advances tail ih =>
      have hread := h _ _ hp head
      have htail := ih (hm _ _ hp head).stop_le
      simpa [Run.asMatch, Run.cons, ParseTree.outline_branch] using
        Rule.Reads.starCons hread htail

theorem Matcher.Tells.wrap {m : Matcher α} {reading : List α → List (Outline α) → Prop}
    (h : m.Tells input reading) {p : Nat} {s : Match α} (hp : p ≤ input.size)
    (hs : m p = .done s) :
    reading (Matcher.wrap s).tree.values (Matcher.wrap s).tree.outline := by
  simpa [Matcher.wrap, ParseTree.outline_branch] using h p s hp hs

/-- A rule for one item only has to say what it reads of an item that it accepts. -/
theorem Matcher.one_tells {accept : α → Bool} {refusal : α → Cause}
    {reading : List α → List (Outline α) → Prop}
    (h : ∀ x, accept x = true → reading [x] [.item x]) :
    (one input accept refusal).Tells input reading := by
  intro p s hp hs
  obtain ⟨x, -, hx, rfl⟩ := one_eq_done_iff.mp hs
  simpa [ParseTree.outline_leaf] using h x hx

/-- A rule has its readings if the matchers of the names in it have theirs. -/
theorem Rule.matcher_tells {call : String → Matcher α}
    (hlossless : ∀ name, (call name).Lossless input)
    (hcall : ∀ name, (call name).Tells input fun xs os =>
      ∃ parts, os = [.node name parts] ∧ C name xs parts) (r : Rule α κ) :
    (r.matcher input call).Tells input (r.Reads C) := by
  have hrule := Rule.matcher_lossless (κ := κ) hlossless
  induction r with
  | literal key => exact Matcher.one_tells fun x hx => .literal hx
  | range lo hi => exact Matcher.one_tells fun x hx => .range hx
  | predicate q => exact Matcher.one_tells fun x hx => .predicate hx
  | seq rules ih =>
      intro p s hp hs
      rw [matcher_seq] at hs
      obtain ⟨run, hrun, rfl⟩ := Matcher.sequence_eq_done_iff.mp hs
      exact Matcher.Tells.consecutive (fun r _ => hrule r) ih hp hrun
  | alt rules ih =>
      intro p s hp hs
      rw [matcher_alt] at hs
      obtain ⟨before, m, after, t, hsplit, -, hm, rfl⟩ := Matcher.firstOf_eq_done_iff.mp hs
      have hmem : m ∈ rules.map (matcher input call) := by simp [hsplit]
      obtain ⟨r, hr, rfl⟩ := List.mem_map.mp hmem
      exact .alt hr ((ih r hr).wrap hp hm)
  | oneOf rules ih =>
      intro p s hp hs
      rw [matcher_oneOf] at hs
      obtain ⟨before, b, m, after, t, hsplit, -, hm, rfl⟩ :=
        Matcher.exactlyOne_eq_done_iff.mp hs
      have hmem : (b, m) ∈ rules.map fun r => (r, matcher input call r) := by simp [hsplit]
      obtain ⟨r, hr, heq⟩ := List.mem_map.mp hmem
      obtain ⟨rfl, rfl⟩ := Prod.mk.inj heq
      exact .oneOf hr ((ih r hr).wrap hp hm)
  | star r ih =>
      intro p s hp hs
      rw [matcher] at hs
      obtain ⟨run, hrounds, -, rfl⟩ := Matcher.zeroOrMore_eq_done hs
      exact Matcher.Tells.rounds (hrule r) ih hp hrounds
  | plus r ih =>
      intro p s hp hs
      rw [matcher] at hs
      obtain ⟨tree, stop, run, hfirst, hrounds, -, rfl⟩ := Matcher.oneOrMore_eq_done hs
      have hread := ih p _ hp hfirst
      have hstop := (hrule r p _ hp hfirst).stop_le
      have htail := Matcher.Tells.rounds (hrule r) ih hstop hrounds
      simpa [Run.asMatch, Run.cons, ParseTree.outline_branch] using Reads.plus hread htail
  | opt r ih =>
      intro p s hp hs
      rw [matcher] at hs
      rcases Matcher.optional_eq_done_iff.mp hs with ⟨t, ht, rfl⟩ | ⟨-, rfl⟩
      · exact .optSome (ih.wrap hp ht)
      · simpa [ParseTree.outline_branch] using Reads.optNone r
  | untilEnd r ih =>
      intro p s hp hs
      rw [matcher] at hs
      obtain ⟨run, hrounds, -, rfl⟩ := Matcher.untilEnd_eq_done hs
      exact .untilEnd (Matcher.Tells.rounds (hrule r) ih hp hrounds)
  | except r ih =>
      intro p s hp hs
      rw [matcher] at hs
      obtain ⟨x, hx, ⟨f, hf⟩, rfl⟩ := Matcher.except_eq_done_iff.mp hs
      have hexcept : ¬ r.TakesItem x := fun h => h.not_failed hx f hf
      simpa [ParseTree.outline_leaf] using Reads.except hexcept
  | ref name =>
      intro p s hp hs
      rw [matcher] at hs
      obtain ⟨t, ht, rfl⟩ := Matcher.within_eq_done_iff.mp hs
      obtain ⟨parts, hparts, hread⟩ := (hcall name).wrap hp ht
      rw [hparts]
      exact .ref hread

end Readings

namespace Grammar

variable {α κ : Type} [Key κ] [Item α κ]

/-- What every declared rule passes on from the names in it to its own name. -/
def Closed (g : Grammar α κ) (C : String → List α → List (Outline α) → Prop) : Prop :=
  ∀ name r xs os, g.rule? name = some r → r.Reads C xs os → C name xs os

variable {g : Grammar α κ} {C : String → List α → List (Outline α) → Prop}

/-- Where items of one sort are at hand, each rule only has to pass on what holds of these. -/
theorem closed_given {P : α → Prop}
    (h : ∀ name r xs os, g.rule? name = some r → (∀ x ∈ xs, P x) → r.Reads C xs os →
      C name xs os) : g.Closed fun name xs os => (∀ x ∈ xs, P x) → C name xs os := by
  intro name r xs os hrule hread hxs
  exact h name r xs os hrule hxs (hread.given hxs)

/-- What is passed on to a name may also be read off its rule. -/
theorem Closed.reads (hC : g.Closed C) :
    g.Closed fun name xs os => ∃ r, g.rule? name = some r ∧ r.Reads C xs os := by
  intro name r xs os hrule hread
  refine ⟨r, hrule, hread.mono ?_⟩
  rintro other ys ps ⟨s, hs, h⟩
  exact hC other s ys ps hs h

theorem Closed.callMatcher_tells (hC : g.Closed C) (input : Array α) (depth : Nat) :
    ∀ name, (g.callMatcher input depth name).Tells input fun xs os =>
      ∃ parts, os = [.node name parts] ∧ C name xs parts := by
  induction depth with
  | zero =>
      intro name p s hp hs
      cases hs
  | succ depth ih =>
      intro name p s hp hs
      unfold callMatcher at hs
      cases hrule : g.rule? name with
      | none => simp [hrule] at hs
      | some r =>
          simp only [hrule] at hs
          obtain ⟨t, ht, rfl⟩ := Matcher.labelled_eq_done_iff.mp hs
          have hread := Rule.matcher_tells (g.callMatcher_lossless input depth) ih r p t hp ht
          refine ⟨t.tree.outline, ?_, ?_⟩
          · exact ParseTree.outline_labelled (Rule.matcher_label ht) name
          · simpa using hC name r _ _ hrule hread

/-- What all declared rules pass on holds of all matches of named rules. -/
theorem Closed.namedMatcher_tells (hC : g.Closed C) (input : Array α) (name : String) :
    (g.namedMatcher input name).Tells input fun xs os =>
      ∃ parts, os = [.node name parts] ∧ C name xs parts :=
  hC.callMatcher_tells input _ name

end Grammar

end Peg
