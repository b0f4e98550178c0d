import Peg.Failure.Basic
import Peg.ParseTree.Basic

/-!
Queries on parse trees. A query on a node or on a selection of nodes takes, on
each way down, the first node that fits and nothing below it; `skip` goes to the
children first, so that a node does not stand in the way of those inside it.
-/

namespace Peg

/-- The nodes that a query has found, in document order. -/
structure Selection (α : Type) where
  nodes : List (ParseTree α)

namespace ParseTree

variable {α : Type}

mutual

/-- The nodes that satisfy `p` and lie below no other such node. -/
def outermost (p : ParseTree α → Bool) : ParseTree α → List (ParseTree α)
  | ⟨label, value, children⟩ =>
      if p ⟨label, value, children⟩ then [⟨label, value, children⟩]
      else outermostAll p children

def outermostAll (p : ParseTree α → Bool) : List (ParseTree α) → List (ParseTree α)
  | [] => []
  | t :: ts => outermost p t ++ outermostAll p ts

end

theorem outermostAll_eq_flatMap (p : ParseTree α → Bool) (ts : List (ParseTree α)) :
    outermostAll p ts = ts.flatMap (outermost p) := by
  induction ts with
  | nil => rfl
  | cons t ts ih => simp [outermostAll, ih]

theorem outermost_eq (p : ParseTree α → Bool) (t : ParseTree α) :
    t.outermost p = if p t then [t] else t.children.flatMap (outermost p) := by
  cases t
  rw [outermost, outermostAll_eq_flatMap]

end ParseTree

namespace Selection

variable {α : Type}

def select (s : Selection α) (p : ParseTree α → Bool) : Selection α :=
  ⟨s.nodes.flatMap (·.outermost p)⟩

def selectLabelled (s : Selection α) (names : List String) : Selection α :=
  s.select (·.isLabelledAny names)

/-- The one node of a selection; `query` says in the failure what was asked for. -/
def exactlyOne (s : Selection α) (query : String) : Except Failure (ParseTree α) :=
  match s.nodes with
  | [t] => .ok t
  | nodes => .error { cause := .queryMismatch query nodes.length }

def selectOne (s : Selection α) (p : ParseTree α → Bool) : Except Failure (ParseTree α) :=
  (s.select p).exactlyOne "match"

def selectOneLabelled (s : Selection α) (names : List String) :
    Except Failure (ParseTree α) :=
  (s.selectLabelled names).exactlyOne ("|".intercalate names)

/-- The children of every selected node. -/
def skip (s : Selection α) : Selection α :=
  ⟨s.nodes.flatMap (·.children)⟩

end Selection

namespace ParseTree

variable {α : Type}

/-- The selection of a single node. -/
def selected (t : ParseTree α) : Selection α :=
  ⟨[t]⟩

def select (t : ParseTree α) (p : ParseTree α → Bool) : Selection α :=
  t.selected.select p

def skip (t : ParseTree α) : Selection α :=
  t.selected.skip

end ParseTree

end Peg
