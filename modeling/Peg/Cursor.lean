import Peg.Matcher

/-!
A place in an input, for callers that go through it step by step. A cursor is a
value: whoever keeps an earlier one can go back to it.
-/

namespace Peg

structure Cursor (α : Type) where
  input : Array α
  pos : Nat := 0

namespace Cursor

variable {α : Type}

def moveTo (c : Cursor α) (pos : Nat) : Cursor α :=
  { c with pos }

def isAtEnd (c : Cursor α) : Bool :=
  c.input.size ≤ c.pos

/-- The item at the cursor. -/
def head (c : Cursor α) : Except Failure α :=
  Matcher.itemAt c.input c.pos

/-- The cursor behind the item at it. -/
def tail (c : Cursor α) : Except Failure (Cursor α) :=
  c.head.map fun _ => c.moveTo (c.pos + 1)

/-- The items from the cursor on. -/
def remaining (c : Cursor α) : List α :=
  c.input.toList.drop c.pos

/-- The position out of the length of the input. -/
def render (c : Cursor α) : String :=
  "State(" ++ toString c.pos ++ "/" ++ toString c.input.size ++ ")"

end Cursor

end Peg
