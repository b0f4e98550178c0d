import Peg.Outcome
import Peg.ParseTree.Basic

/-!
Matchers over a fixed input, and the ways to combine them. A matcher is tried at a
position and comes to a tree and the position after what it has matched. Nothing
is undone when an attempt fails: the position that it began at is still at hand.
-/

namespace Peg

/-- What a matcher has matched: its tree and the position after it. -/
structure Match (α : Type) where
  tree : ParseTree α
  stop : Nat

abbrev Matcher (α : Type) := Nat → Outcome (Match α)

/-- Matches that follow one another, and the position after the last. -/
structure Run (α : Type) where
  trees : List (ParseTree α)
  stop : Nat

namespace Run

variable {α : Type}

/-- The run in which one more match comes first. -/
def cons (tree : ParseTree α) (run : Run α) : Run α :=
  { run with trees := tree :: run.trees }

/-- The run as one match, whose node has the trees of the run as its children. -/
def asMatch (run : Run α) : Match α :=
  ⟨.branch run.trees, run.stop⟩

end Run

namespace Matcher

variable {α β : Type}

/-- The item at a position. -/
def itemAt (input : Array α) (p : Nat) : Except Failure α :=
  match input[p]? with
  | some x => .ok x
  | none => .error { cause := .exhausted, pos := p }

/-- One item that is accepted; `refusal` says what is wrong with any other. -/
def one (input : Array α) (accept : α → Bool) (refusal : α → Cause) : Matcher α := fun p => do
  let x ← itemAt input p
  if accept x then
    .done ⟨.leaf x, p + 1⟩
  else
    .failed { cause := refusal x, pos := p }

/-- All matchers in order. What one of them fails with counts for the whole, which
began at `start`. -/
def runAll (start : Nat) : List (Matcher α) → Nat → Outcome (Run α)
  | [], p => .done ⟨[], p⟩
  | m :: ms, p =>
      match m p with
      | .done ⟨tree, stop⟩ => (runAll start ms stop).map (.cons tree)
      | .failed f => .failed (.nested start f)
      | .endless => .endless

def sequence (ms : List (Matcher α)) : Matcher α := fun p =>
  (runAll p ms p).map Run.asMatch

/-- The match of the first matcher that has one, or else what each of them failed
with. -/
def tryAll (p : Nat) : List (Matcher α) → Outcome (Except (List Failure) (Match α))
  | [] => .done (.error [])
  | m :: ms =>
      match m p with
      | .done r => .done (.ok r)
      | .failed f => (tryAll p ms).map (Except.mapError (f :: ·))
      | .endless => .endless

/-- The node of a rule that stands for one of its parts. -/
def wrap (r : Match α) : Match α :=
  ⟨.branch [r.tree], r.stop⟩

def noAlternative (p : Nat) (failures : List Failure) : Failure :=
  { cause := .noAlternative, pos := p, children := failures }

def firstOf (ms : List (Matcher α)) : Matcher α := fun p =>
  (tryAll p ms).bind fun
    | .ok r => .done (wrap r)
    | .error failures => .failed (noAlternative p failures)

/-- The matches of all matchers that have one, each with what stands beside the
matcher, and what the others failed with. -/
def survey (p : Nat) : List (β × Matcher α) → Outcome (List (β × Match α) × List Failure)
  | [] => .done ([], [])
  | (b, m) :: ms =>
      match m p with
      | .done r => (survey p ms).map fun (matched, failures) => ((b, r) :: matched, failures)
      | .failed f => (survey p ms).map fun (matched, failures) => (matched, f :: failures)
      | .endless => .endless

/-- The match of the only matcher that has one; `describe` names those that match
when they are several. -/
def exactlyOne (describe : β → String) (ms : List (β × Matcher α)) : Matcher α := fun p =>
  (survey p ms).bind fun
    | ([], failures) => .failed (noAlternative p failures)
    | ([(_, r)], _) => .done (wrap r)
    | (matched, _) =>
        .failed { cause := .ambiguous (matched.map fun (b, _) => describe b), pos := p }

/-- The rounds that a repetition may take from a position: each but the last
consumes an item. -/
def roundsFrom (input : Array α) (p : Nat) : Nat :=
  input.size - p + 1

/-- Repetitions up to the first that fails or consumes nothing, which is left out. -/
def repeated (m : Matcher α) : (rounds : Nat) → Nat → Outcome (Run α)
  | 0, _ => .endless
  | rounds + 1, p =>
      match m p with
      | .done ⟨tree, stop⟩ =>
          if stop = p then .done ⟨[], p⟩ else (repeated m rounds stop).map (.cons tree)
      | .failed _ => .done ⟨[], p⟩
      | .endless => .endless

def zeroOrMore (input : Array α) (m : Matcher α) : Matcher α := fun p =>
  (repeated m (roundsFrom input p) p).map Run.asMatch

/-- The first repetition may consume nothing, those after it may not. -/
def oneOrMore (input : Array α) (m : Matcher α) : Matcher α := fun p =>
  match m p with
  | .done ⟨tree, stop⟩ =>
      (repeated m (roundsFrom input stop) stop).map fun run => (run.cons tree).asMatch
  | .failed f => .failed (.nested p f)
  | .endless => .endless

def optional (m : Matcher α) : Matcher α := fun p =>
  match m p with
  | .done r => .done (wrap r)
  | .failed _ => .done ⟨.branch [], p⟩
  | .endless => .endless

/-- Repetitions up to the end of the input. The first that fails, or that consumes
nothing, ends the attempt, which began at `start`. -/
def repeatedToEnd (input : Array α) (m : Matcher α) (start : Nat) :
    (rounds : Nat) → Nat → Outcome (Run α)
  | 0, _ => .endless
  | rounds + 1, p =>
      if input.size ≤ p then
        .done ⟨[], p⟩
      else
        match m p with
        | .done ⟨tree, stop⟩ =>
            if stop = p then
              .failed { cause := .noProgress, pos := p }
            else
              (repeatedToEnd input m start rounds stop).map (.cons tree)
        | .failed f => .failed (.nested start f)
        | .endless => .endless

def untilEnd (input : Array α) (m : Matcher α) : Matcher α := fun p =>
  (repeatedToEnd input m p (roundsFrom input p) p).map Run.asMatch

/-- One item, where `m` does not match; `refusal` says what is wrong where it does. -/
def except (input : Array α) (m : Matcher α) (refusal : Unit → Cause) : Matcher α := fun p => do
  let x ← itemAt input p
  match m p with
  | .done _ => .failed { cause := refusal (), pos := p }
  | .failed _ => .done ⟨.leaf x, p + 1⟩
  | .endless => .endless

/-- A matcher under another rule: its match or failure lies one level down. -/
def within (m : Matcher α) : Matcher α := fun p =>
  ((m p).mapFailure (.nested p)).map wrap

/-- The match or failure of a named rule carries the name. -/
def labelled (name : String) (m : Matcher α) : Matcher α := fun p =>
  ((m p).mapFailure (.named name)).map fun r => { r with tree := r.tree.labelled name }

end Matcher

end Peg
