import Peg.ParseTree.Basic

/-!
What a parse tree says by its labels alone. The outline of a tree keeps the labelled
nodes and the values; a node without a label gives way to its parts.
-/

namespace Peg

inductive Outline (α : Type) where
  | item (x : α)
  | node (name : String) (parts : List (Outline α))

namespace ParseTree

variable {α : Type}

mutual

def outline : ParseTree α → List (Outline α)
  | ⟨some name, value, children⟩ =>
      [.node name (value.toList.map .item ++ outlineAll children)]
  | ⟨none, value, children⟩ => value.toList.map .item ++ outlineAll children

def outlineAll : List (ParseTree α) → List (Outline α)
  | [] => []
  | t :: ts => outline t ++ outlineAll ts

end

theorem outlineAll_eq_flatMap (ts : List (ParseTree α)) :
    outlineAll ts = ts.flatMap outline := by
  induction ts with
  | nil => rfl
  | cons t ts ih => simp [outlineAll, ih]

end ParseTree

end Peg
