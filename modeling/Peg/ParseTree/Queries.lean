import Peg.ParseTree.Selection
import Peg.Token

/-!
What a query finds is part of the tree that it is made on. So a recursion may go from a
tree to what it finds there.
-/

namespace Peg

/-- The failure of a source in which something is missing. -/
def Failure.malformed (what : String) : Failure :=
  { cause := .malformed what }

namespace ParseTree

/-- The token of a node that holds no other. -/
def singleToken (t : ParseTree Token) : Except Failure Token :=
  match t.values with
  | [token] => .ok token
  | _ => .error (.malformed "token")

variable {α : Type} {s t : ParseTree α} {names : List String}

theorem mem_outermost_of_selectOne (h : t.selected.selectOneLabelled names = .ok s) :
    s ∈ t.outermost (·.isLabelledAny names) := by
  have hnodes : (t.selected.selectLabelled names).nodes =
      t.outermost (·.isLabelledAny names) := by
    simp [selected, Selection.selectLabelled, Selection.select]
  unfold Selection.selectOneLabelled Selection.exactlyOne at h
  rw [hnodes] at h
  split at h
  · rename_i u hu
    cases h
    rw [hu]
    exact List.mem_singleton_self s
  · cases h

section Size

variable [SizeOf α]

theorem sizeOf_lt_of_mem_children (h : s ∈ t.children) : sizeOf s < sizeOf t := by
  obtain ⟨label, value, children⟩ := t
  have hlt : sizeOf s < sizeOf children := List.sizeOf_lt_of_mem h
  simp only [mk.sizeOf_spec]
  omega

theorem sizeOf_le_of_mem_outermost {p : ParseTree α → Bool} (h : s ∈ t.outermost p) :
    sizeOf s ≤ sizeOf t := by
  induction t with
  | node label value children ih =>
      rw [outermost_eq] at h
      split at h
      · exact Nat.le_of_eq (congrArg sizeOf (List.mem_singleton.mp h))
      · obtain ⟨u, hu, hs⟩ := List.mem_flatMap.mp h
        have hlt := sizeOf_lt_of_mem_children hu
        have hle := ih u hu hs
        omega

theorem sizeOf_lt_of_mem_skip (h : s ∈ (t.skip.selectLabelled names).nodes) :
    sizeOf s < sizeOf t := by
  simp only [skip, selected, Selection.skip, List.flatMap_cons, List.flatMap_nil,
    List.append_nil] at h
  obtain ⟨u, hu, hs⟩ := List.mem_flatMap.mp h
  have hlt := sizeOf_lt_of_mem_children hu
  have hle := sizeOf_le_of_mem_outermost hs
  omega

theorem sizeOf_le_of_selectOne (h : t.selected.selectOneLabelled names = .ok s) :
    sizeOf s ≤ sizeOf t :=
  sizeOf_le_of_mem_outermost (mem_outermost_of_selectOne h)

/-- A node that does not fit itself is larger than what is found below it. -/
theorem sizeOf_lt_of_selectOne (ht : t.isLabelledAny names = false)
    (h : t.selected.selectOneLabelled names = .ok s) : sizeOf s < sizeOf t := by
  have hmem := mem_outermost_of_selectOne h
  rw [outermost_eq, ht] at hmem
  obtain ⟨u, hu, hs⟩ := List.mem_flatMap.mp hmem
  have hlt := sizeOf_lt_of_mem_children hu
  have hle := sizeOf_le_of_mem_outermost hs
  omega

end Size

end ParseTree

end Peg
