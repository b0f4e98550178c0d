import Peg.Text.Display

/-!
The trees that matching yields. A leaf holds the one item it matched, a composite
rule makes a node of its parts, and the node of a named rule carries the name.
-/

namespace Peg

structure ParseTree (α : Type) where
  label : Option String := none
  value : Option α := none
  children : List (ParseTree α) := []

namespace ParseTree

variable {α : Type}

/-- A property of all trees has to be passed on from the children of a node to the node. -/
@[elab_as_elim, induction_eliminator]
theorem inductionOn {motive : ParseTree α → Prop} (t : ParseTree α)
    (node : ∀ label value children, (∀ t ∈ children, motive t) →
      motive ⟨label, value, children⟩) : motive t := by
  refine ParseTree.rec (motive_1 := motive) (motive_2 := fun ts => ∀ t ∈ ts, motive t)
    node ?_ ?_ t
  · intro s hs
    cases hs
  · intro s ts hs hts u hu
    rcases List.mem_cons.mp hu with rfl | hu
    · exact hs
    · exact hts u hu

def leaf (x : α) : ParseTree α :=
  { value := some x }

def branch (children : List (ParseTree α)) : ParseTree α :=
  { children }

def labelled (name : String) (t : ParseTree α) : ParseTree α :=
  { t with label := some name }

def isLabelled (name : String) (t : ParseTree α) : Bool :=
  t.label = some name

/-- Whether the label of a node is one of the names. -/
def isLabelledAny (names : List String) (t : ParseTree α) : Bool :=
  t.label.any names.contains

mutual

def decEq [DecidableEq α] : (s t : ParseTree α) → Decidable (s = t)
  | ⟨label, value, children⟩, ⟨label', value', children'⟩ =>
      have := decEqAll children children'
      decidable_of_iff (label = label' ∧ value = value' ∧ children = children') (by simp)

def decEqAll [DecidableEq α] : (ss ts : List (ParseTree α)) → Decidable (ss = ts)
  | [], [] => isTrue rfl
  | [], _ :: _ => isFalse (by simp)
  | _ :: _, [] => isFalse (by simp)
  | s :: ss, t :: ts =>
      have := decEq s t
      have := decEqAll ss ts
      decidable_of_iff (s = t ∧ ss = ts) (by simp)

end

instance [DecidableEq α] : DecidableEq (ParseTree α) := decEq

mutual

/-- All values in document order: that of a node before those of its children. -/
def values : ParseTree α → List α
  | ⟨_, value, children⟩ => value.toList ++ valuesAll children

def valuesAll : List (ParseTree α) → List α
  | [] => []
  | t :: ts => values t ++ valuesAll ts

end

theorem valuesAll_eq_flatMap (ts : List (ParseTree α)) :
    valuesAll ts = ts.flatMap values := by
  induction ts with
  | nil => rfl
  | cons t ts ih => simp [valuesAll, ih]

mutual

/-- All nodes in document order, each with its depth below the root when the root
has the given depth. -/
def preorder (depth : Nat) : ParseTree α → List (Nat × ParseTree α)
  | ⟨label, value, children⟩ =>
      (depth, ⟨label, value, children⟩) :: preorderAll (depth + 1) children

def preorderAll (depth : Nat) : List (ParseTree α) → List (Nat × ParseTree α)
  | [] => []
  | t :: ts => preorder depth t ++ preorderAll depth ts

end

theorem preorderAll_eq_flatMap (depth : Nat) (ts : List (ParseTree α)) :
    preorderAll depth ts = ts.flatMap (preorder depth) := by
  induction ts with
  | nil => rfl
  | cons t ts ih => simp [preorderAll, ih]

/-- One line for a node: its label, or an underscore, and its value if it has one. -/
def heading [ToString α] (t : ParseTree α) : String :=
  t.label.getD "_" ++
    match t.value with
    | some x => "(" ++ toString x ++ ")"
    | none => ""

/-- The whole tree, one node a line. -/
def render [ToString α] (t : ParseTree α) : String :=
  Text.Indented.render ((t.preorder 0).map fun (depth, s) => (depth, s.heading))

end ParseTree

end Peg
