import Peg.Failure.Basic

/-!
Which failure of a tree is worth reporting: the one whose attempt began furthest
into the input, and the innermost named rule on the way down to it.
-/

namespace Peg.Failure

mutual

/-- The failure with the greatest position. Of several it is the first in document
order, so that none above it lies as far. -/
def furthest : Failure → Failure
  | ⟨cause, pos, name, children⟩ => furthestAmong ⟨cause, pos, name, children⟩ children

/-- The furthest of the failures in and below a list, if it lies beyond `best`. -/
def furthestAmong (best : Failure) : List Failure → Failure
  | [] => best
  | f :: fs =>
      let candidate := furthest f
      furthestAmong (if best.pos < candidate.pos then candidate else best) fs

end

/-- The greatest position in a failure and those below it. -/
def reach (f : Failure) : Nat :=
  f.furthest.pos

theorem furthest_eq (f : Failure) : f.furthest = furthestAmong f f.children := by
  cases f
  rfl

theorem le_furthestAmong (best : Failure) (fs : List Failure) :
    best.pos ≤ (furthestAmong best fs).pos := by
  induction fs generalizing best with
  | nil => exact Nat.le_refl _
  | cons f fs ih =>
      refine Nat.le_trans ?_ (ih _)
      split <;> omega

theorem reach_le_furthestAmong {best f : Failure} {fs : List Failure} (h : f ∈ fs) :
    f.reach ≤ (furthestAmong best fs).pos := by
  induction fs generalizing best with
  | nil => cases h
  | cons g fs ih =>
      rcases List.mem_cons.mp h with rfl | h
      · refine Nat.le_trans ?_ (le_furthestAmong _ fs)
        unfold reach
        split <;> omega
      · exact ih h

theorem pos_le_reach (f : Failure) : f.pos ≤ f.reach := by
  rw [reach, furthest_eq]
  exact le_furthestAmong f f.children

theorem reach_le_of_mem {f g : Failure} (h : g ∈ f.children) : g.reach ≤ f.reach := by
  rw [reach.eq_def f, furthest_eq]
  exact reach_le_furthestAmong h

mutual

/-- The failures met on the way down from the root when every step goes to the
child that reaches furthest, the last of several. -/
def trail : Failure → List Failure
  | ⟨cause, pos, name, children⟩ => ⟨cause, pos, name, children⟩ :: trailAmong children

/-- The trail of the failure in a list that reaches furthest: a failure is passed
over if one behind it reaches as far. -/
def trailAmong : List Failure → List Failure
  | [] => []
  | f :: fs => if fs.any (f.reach ≤ ·.reach) then trailAmong fs else trail f

end

/-- The name met last on the way down, if any. -/
def innermostName (f : Failure) : Option String :=
  (f.trail.filterMap Failure.name).getLast?

end Peg.Failure
