import Peg.Text.Display

/-!
Failed attempts. A failure says what went wrong, where the attempt began, and
under which rule name, and it keeps the failures that brought it about, so that
a whole failed parse is one tree.
-/

namespace Peg

/-- What went wrong in a single attempt. -/
inductive Cause where
  /-- An item was needed and the input had ended. -/
  | exhausted
  /-- The item at hand was not the expected one. -/
  | mismatch (expected actual : String)
  /-- A rule matched where it must not. -/
  | unexpectedMatch (rule : String)
  /-- The attempt failed with the one failure below it. -/
  | nested
  /-- Every alternative failed. -/
  | noAlternative
  /-- Several alternatives matched where exactly one may. -/
  | ambiguous (matched : List String)
  /-- A repetition that has to reach the end of the input matched nothing. -/
  | noProgress
  /-- A match ended before the input did. -/
  | incomplete (consumed total : Nat)
  | unknownRule (name : String)
  | duplicateRule (name : String)
  /-- A query that asks for one node found another number of them. -/
  | queryMismatch (query : String) (matched : Nat)
  /-- A text is not in the notation it has to be in. -/
  | malformed (what : String)
  deriving DecidableEq

def Cause.message : Cause → String
  | .exhausted => "state empty"
  | .mismatch expected actual => "expected " ++ expected ++ " got " ++ actual
  | .unexpectedMatch rule => rule ++ " unexpectedly matched"
  | .nested => "nested rule failed"
  | .noAlternative => "no alternative matched"
  | .ambiguous matched => "ambiguous match between " ++ ", ".intercalate matched
  | .noProgress => "repetition did not advance"
  | .incomplete consumed total =>
      "input not fully consumed: stopped at " ++ toString consumed ++ " of " ++ toString total
  | .unknownRule name => "unknown rule " ++ name
  | .duplicateRule name => "duplicate rule " ++ name
  | .queryMismatch query matched =>
      "expected exactly one " ++ query ++ " got " ++ toString matched
  | .malformed what => "malformed " ++ what

/-- A failed attempt: its cause, the position at which the attempt began, the
name of the rule that was tried if it has one, and the failures it rests on. -/
structure Failure where
  cause : Cause
  pos : Nat := 0
  name : Option String := none
  children : List Failure := []

namespace Failure

/-- A property of all failures has to be passed on to a failure from those it rests on. -/
@[elab_as_elim, induction_eliminator]
theorem inductionOn {motive : Failure → Prop} (f : Failure)
    (node : ∀ f : Failure, (∀ g ∈ f.children, motive g) → motive f) : motive f := by
  refine Failure.rec (motive_1 := motive) (motive_2 := fun fs => ∀ f ∈ fs, motive f)
    (fun cause pos name children => node ⟨cause, pos, name, children⟩) ?_ ?_ f
  · intro g hg
    cases hg
  · intro g gs hg hgs h hh
    rcases List.mem_cons.mp hh with rfl | hh
    · exact hg
    · exact hgs h hh

/-- An attempt at `pos` that failed because of one failure below it. -/
def nested (pos : Nat) (child : Failure) : Failure :=
  { cause := .nested, pos, children := [child] }

def named (name : String) (f : Failure) : Failure :=
  { f with name := some name }

mutual

def decEq : (f g : Failure) → Decidable (f = g)
  | ⟨cause, pos, name, children⟩, ⟨cause', pos', name', children'⟩ =>
      have := decEqAll children children'
      decidable_of_iff
        (cause = cause' ∧ pos = pos' ∧ name = name' ∧ children = children') (by simp)

def decEqAll : (fs gs : List Failure) → Decidable (fs = gs)
  | [], [] => isTrue rfl
  | [], _ :: _ => isFalse (by simp)
  | _ :: _, [] => isFalse (by simp)
  | f :: fs, g :: gs =>
      have := decEq f g
      have := decEqAll fs gs
      decidable_of_iff (f = g ∧ fs = gs) (by simp)

end

instance : DecidableEq Failure := decEq

mutual

/-- All failures of the tree in document order, each with its depth below the
root when the root has the given depth. -/
def preorder (depth : Nat) : Failure → List (Nat × Failure)
  | ⟨cause, pos, name, children⟩ =>
      (depth, ⟨cause, pos, name, children⟩) :: preorderAll (depth + 1) children

def preorderAll (depth : Nat) : List Failure → List (Nat × Failure)
  | [] => []
  | f :: fs => preorder depth f ++ preorderAll depth fs

end

theorem preorderAll_eq_flatMap (depth : Nat) (fs : List Failure) :
    preorderAll depth fs = fs.flatMap (preorder depth) := by
  induction fs with
  | nil => rfl
  | cons f fs ih => simp [preorderAll, ih]

/-- One line for the failure itself, without those below it. -/
def heading (f : Failure) : String :=
  let label := match f.name with
    | some name => name ++ ": "
    | none => ""
  label ++ f.cause.message ++ " at " ++ toString f.pos

/-- The whole tree, one failure a line. -/
def render (f : Failure) : String :=
  Text.Indented.render ((f.preorder 0).map fun (depth, g) => (depth, g.heading))

end Failure

end Peg
