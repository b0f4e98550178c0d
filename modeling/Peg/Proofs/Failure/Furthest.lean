import Peg.Failure.Furthest
import Peg.Grammar.Matching
import Peg.Proofs.Matching.Failures

/-!
Which failure is the furthest where several lie equally far into the input. It is the first
of these in document order. So none above it lies as far, but one in a later branch may,
and nearer to the root.
-/

namespace Peg.Failure

/-- None of the failures reaches beyond `best`, or the furthest is that of the first which
reaches furthest. -/
theorem furthestAmong_cases (best : Failure) (fs : List Failure) :
    (furthestAmong best fs = best ∧ ∀ g ∈ fs, g.reach ≤ best.pos) ∨
      ∃ before g after, fs = before ++ g :: after ∧ furthestAmong best fs = g.furthest ∧
        best.pos < g.reach ∧ (∀ e ∈ before, e.reach < g.reach) ∧
          ∀ e ∈ after, e.reach ≤ g.reach := by
  induction fs generalizing best with
  | nil => exact .inl ⟨rfl, by simp⟩
  | cons f fs ih =>
      rw [furthestAmong]
      by_cases hlt : best.pos < f.furthest.pos
      · simp only [hlt, if_true]
        rcases ih f.furthest with ⟨heq, hle⟩ | ⟨before, g, after, rfl, heq, hg, hbefore, hafter⟩
        · exact .inr ⟨[], f, fs, rfl, heq, hlt, by simp, hle⟩
        · refine .inr ⟨f :: before, g, after, rfl, heq, Nat.lt_trans hlt hg, ?_, hafter⟩
          exact List.forall_mem_cons.mpr ⟨hg, hbefore⟩
      · simp only [hlt, if_false]
        rcases ih best with ⟨heq, hle⟩ | ⟨before, g, after, rfl, heq, hg, hbefore, hafter⟩
        · exact .inl ⟨heq, List.forall_mem_cons.mpr ⟨Nat.le_of_not_lt hlt, hle⟩⟩
        · refine .inr ⟨f :: before, g, after, rfl, heq, hg, ?_, hafter⟩
          exact List.forall_mem_cons.mpr ⟨Nat.lt_of_le_of_lt (Nat.le_of_not_lt hlt) hg, hbefore⟩

theorem furthest_cases (f : Failure) :
    (f.furthest = f ∧ ∀ g ∈ f.children, g.reach ≤ f.pos) ∨
      ∃ before g after, f.children = before ++ g :: after ∧ f.furthest = g.furthest ∧
        f.pos < g.reach ∧ (∀ e ∈ before, e.reach < g.reach) ∧
          ∀ e ∈ after, e.reach ≤ g.reach := by
  rw [furthest_eq]
  exact furthestAmong_cases f f.children

theorem pos_le_reach_of_mem_preorder {f : Failure} {depth : Nat} {entry : Nat × Failure}
    (h : entry ∈ f.preorder depth) : entry.2.pos ≤ f.reach := by
  induction f generalizing depth with
  | node f ih =>
      rw [preorder_eq, List.mem_cons, List.mem_flatMap] at h
      rcases h with rfl | ⟨g, hg, h⟩
      · exact f.pos_le_reach
      · exact Nat.le_trans (ih g hg h) (reach_le_of_mem hg)

theorem pos_le_of_mem_flatMap_preorder {fs : List Failure} {depth bound : Nat}
    (hfs : ∀ f ∈ fs, f.reach ≤ bound) {entry : Nat × Failure}
    (h : entry ∈ fs.flatMap (preorder depth)) : entry.2.pos ≤ bound := by
  obtain ⟨f, hf, hentry⟩ := List.mem_flatMap.mp h
  exact Nat.le_trans (pos_le_reach_of_mem_preorder hentry) (hfs f hf)

/-- A failure stands in a list where none before it lies as far and none behind it further. -/
def FirstFurthest (entries : List (Nat × Failure)) (f : Failure) : Prop :=
  ∃ before depth after, entries = before ++ (depth, f) :: after ∧
    (∀ entry ∈ before, entry.2.pos < f.pos) ∧ ∀ entry ∈ after, entry.2.pos ≤ f.pos

theorem FirstFurthest.between {entries : List (Nat × Failure)} {f : Failure}
    (h : FirstFurthest entries f) {front back : List (Nat × Failure)}
    (hfront : ∀ entry ∈ front, entry.2.pos < f.pos)
    (hback : ∀ entry ∈ back, entry.2.pos ≤ f.pos) :
    FirstFurthest (front ++ entries ++ back) f := by
  obtain ⟨before, depth, after, rfl, hbefore, hafter⟩ := h
  refine ⟨front ++ before, depth, after ++ back, by simp, ?_, ?_⟩
  · exact List.forall_mem_append.mpr ⟨hfront, hbefore⟩
  · exact List.forall_mem_append.mpr ⟨hafter, hback⟩

theorem firstFurthest_preorder (f : Failure) (depth : Nat) :
    FirstFurthest (f.preorder depth) f.furthest := by
  induction f generalizing depth with
  | node f ih =>
      rw [preorder_eq]
      rcases f.furthest_cases with ⟨heq, hle⟩ | ⟨before, g, after, hsplit, heq, hpos, hbefore, hafter⟩
      · rw [heq]
        exact ⟨[], depth, _, rfl, by simp, fun entry => pos_le_of_mem_flatMap_preorder hle⟩
      · have hg : FirstFurthest (g.preorder (depth + 1)) g.furthest :=
          ih g (by simp [hsplit]) (depth + 1)
        rw [heq, hsplit, List.flatMap_append, List.flatMap_cons, ← List.cons_append,
          ← List.append_assoc]
        refine hg.between ?_ fun entry => pos_le_of_mem_flatMap_preorder hafter
        refine List.forall_mem_cons.mpr ⟨hpos, ?_⟩
        intro entry hentry
        obtain ⟨e, he, hentry⟩ := List.mem_flatMap.mp hentry
        exact Nat.lt_of_le_of_lt (pos_le_reach_of_mem_preorder hentry) (hbefore e he)

/-- What the tie rule asks of a failure that stands at a depth between two parts of a list:
no other lies further, of those as far none is shallower, and of those as shallow none
comes before it. -/
structure Favoured (before after : List (Nat × Failure)) (depth : Nat) (f : Failure) :
    Prop where
  furthest : ∀ entry ∈ before ++ after, entry.2.pos ≤ f.pos
  shallowest : ∀ entry ∈ before ++ after, entry.2.pos = f.pos → depth ≤ entry.1
  first : ∀ entry ∈ before, entry.2.pos = f.pos → depth < entry.1

/-- The furthest failure is the first in document order of those that lie furthest. It is
the shallowest of them just if none of those behind it is shallower. -/
theorem furthest_in_document_order (f : Failure) :
    ∃ before depth after, f.preorder 0 = before ++ (depth, f.furthest) :: after ∧
      (∀ entry ∈ before, entry.2.pos < f.furthest.pos) ∧
      (∀ entry ∈ after, entry.2.pos ≤ f.furthest.pos) ∧
      (Favoured before after depth f.furthest ↔
        ∀ entry ∈ after, entry.2.pos = f.furthest.pos → depth ≤ entry.1) := by
  obtain ⟨before, depth, after, hsplit, hbefore, hafter⟩ := f.firstFurthest_preorder 0
  refine ⟨before, depth, after, hsplit, hbefore, hafter, ?_, ?_⟩
  · intro h entry hentry
    exact h.shallowest entry (List.mem_append_right before hentry)
  · intro h
    refine ⟨?_, ?_, ?_⟩
    · exact List.forall_mem_append.mpr ⟨fun e he => Nat.le_of_lt (hbefore e he), hafter⟩
    · exact List.forall_mem_append.mpr
        ⟨fun e he heq => absurd heq (Nat.ne_of_lt (hbefore e he)), h⟩
    · exact fun e he heq => absurd heq (Nat.ne_of_lt (hbefore e he))

/-- Two alternatives which both break off at the second item, the first one level deeper. -/
private def unevenGrammar : Grammar Char Char where
  start := "s"
  rules :=
    [("s", .alt
      [.seq [.seq [.literal 'x', .literal 'y']], .seq [.literal 'x', .literal 'z']])]
  distinct := by decide
  start_declared := by decide

/-- Of two failures at one position in different branches, the deeper one is the furthest. -/
theorem furthest_not_shallowest :
    let deep : Failure := { cause := .mismatch "'y'" "'w'", pos := 1 }
    let shallow : Failure := { cause := .mismatch "'z'" "'w'", pos := 1 }
    let f : Failure :=
      { cause := .noAlternative
        name := some "s"
        children := [.nested 0 (.nested 0 deep), .nested 0 shallow] }
    unevenGrammar.matchStart #['x', 'w'] = .failed f ∧ f.furthest = deep ∧
      ¬ ∃ before depth after, f.preorder 0 = before ++ (depth, f.furthest) :: after ∧
        Favoured before after depth f.furthest := by
  intro deep shallow f
  have hdeep : ∀ entry ∈ f.preorder 0, entry.2 = f.furthest → entry.1 = 3 := by decide
  have hshallow : (2, shallow) ∈ f.preorder 0 := by decide
  refine ⟨rfl, rfl, ?_⟩
  rintro ⟨before, depth, after, hsplit, h⟩
  have hdepth : depth = 3 := hdeep (depth, f.furthest) (by simp [hsplit]) rfl
  have hother : (2, shallow) ∈ before ++ after := by
    rw [hsplit, List.mem_append, List.mem_cons] at hshallow
    rcases hshallow with hbefore | heq | hafter
    · exact List.mem_append_left after hbefore
    · have hfst : 2 = depth := congrArg Prod.fst heq
      omega
    · exact List.mem_append_right before hafter
  have hle : depth ≤ 2 := h.shallowest (2, shallow) hother rfl
  omega

end Peg.Failure
