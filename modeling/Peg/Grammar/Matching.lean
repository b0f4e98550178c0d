import Peg.Cursor
import Peg.Grammar.Basic
import Peg.Rule.Matcher

/-!
Matching by the rules of a grammar. Named rules call one another, perhaps without
end, so calls are counted: an attempt that nests more of them than there are pairs
of a rule and a position has come back to where it was, and would do so for ever.
-/

namespace Peg.Grammar

variable {α κ : Type} [Key κ] [Item α κ]

/-- The matcher of a named rule when calls of named rules may nest `depth` deep. -/
def callMatcher (g : Grammar α κ) (input : Array α) : (depth : Nat) → String → Matcher α
  | 0, _, _ => .endless
  | depth + 1, name, p =>
      match g.rule? name with
      | none => .failed { cause := .unknownRule name, pos := p }
      | some r => Matcher.labelled name (r.matcher input (g.callMatcher input depth)) p

/-- A depth that every attempt which ends stays within. -/
def callDepth (g : Grammar α κ) (input : Array α) : Nat :=
  (input.size + 1) * (g.rules.length + 1)

/-- The matcher of a named rule; its tree or failure carries the name. -/
def namedMatcher (g : Grammar α κ) (input : Array α) (name : String) : Matcher α :=
  g.callMatcher input (g.callDepth input) name

/-- The matcher of any rule that takes the names in it from the grammar. -/
def ruleMatcher (g : Grammar α κ) (input : Array α) (r : Rule α κ) : Matcher α :=
  r.matcher input (g.namedMatcher input)

/-- The start rule at the beginning of an input. -/
def matchStart (g : Grammar α κ) (input : Array α) : Outcome (Match α) :=
  g.namedMatcher input g.start 0

/-- A named rule at a cursor: its tree, and the cursor behind what it matched. -/
def applyNamed (g : Grammar α κ) (name : String) (c : Cursor α) :
    Outcome (ParseTree α × Cursor α) :=
  (g.namedMatcher c.input name c.pos).map fun r => (r.tree, c.moveTo r.stop)

/-- Any rule at a cursor: its tree, and the cursor behind what it matched. -/
def applyRule (g : Grammar α κ) (r : Rule α κ) (c : Cursor α) :
    Outcome (ParseTree α × Cursor α) :=
  (g.ruleMatcher c.input r c.pos).map fun r => (r.tree, c.moveTo r.stop)

end Peg.Grammar
