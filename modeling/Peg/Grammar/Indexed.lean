import Mathlib.Data.List.Infix
import Peg.Grammar.Basic

/-!
Grammars with an index. The rules stand in a table, and an index leads from a name to
the position of its rule, so that a name is looked up without a walk through the rules.
The table and its index are filled side by side, one rule at a time, and whether they fit
together is not checked again: a look-up takes the position that the index has and goes
to the table with it.
-/

namespace Peg

/-- Rules at positions, and the positions by name. -/
structure RuleTable (α κ : Type) where
  entries : Array (String × Rule α κ) := #[]
  positions : Std.HashMap String Nat := ∅

/-- An access to a position that a table does not have. -/
structure OutOfRange where
  pos : Nat
  size : Nat

namespace RuleTable

variable {α κ : Type}

/-- The table with one more rule at its end. A name that has a position is refused. -/
def add (t : RuleTable α κ) (entry : String × Rule α κ) : Except Failure (RuleTable α κ) :=
  let inserted := t.positions.containsThenInsert entry.1 t.entries.size
  if inserted.1 then .error { cause := .duplicateRule entry.1 }
  else .ok { entries := t.entries.push entry, positions := inserted.2 }

theorem add_of_mem {t : RuleTable α κ} {entry : String × Rule α κ}
    (h : entry.1 ∈ t.positions) : t.add entry = .error { cause := .duplicateRule entry.1 } := by
  simp [add, h]

theorem add_of_not_mem {t : RuleTable α κ} {entry : String × Rule α κ}
    (h : entry.1 ∉ t.positions) :
    t.add entry = .ok
      { entries := t.entries.push entry
        positions := t.positions.insert entry.1 t.entries.size } := by
  simp [add, h]

def ofRules (rules : List (String × Rule α κ)) : Except Failure (RuleTable α κ) :=
  rules.foldlM add {}

def ruleAt (t : RuleTable α κ) (pos : Nat) : Except OutOfRange (Rule α κ) :=
  match t.entries[pos]? with
  | some entry => .ok entry.2
  | none => .error { pos, size := t.entries.size }

/-- The rule at the position of a name, if the name has one. -/
def rule? (t : RuleTable α κ) (name : String) : Except OutOfRange (Option (Rule α κ)) :=
  match t.positions[name]? with
  | some pos => some <$> t.ruleAt pos
  | none => .ok none

/-- Tables are the same if their rules are, in order, and their indices are. -/
instance [BEq κ] : BEq (RuleTable α κ) where
  beq t u := t.entries == u.entries && t.positions == u.positions

end RuleTable

/-- A grammar whose rules stand in a table, with the position of the start rule. -/
structure IndexedGrammar (α κ : Type) where
  start : String
  table : RuleTable α κ
  startPos : Nat

namespace IndexedGrammar

variable {α κ : Type}

/-- The grammar that starts with the rule of that name in a table. -/
def ofTable (start : String) (table : RuleTable α κ) : Except Failure (IndexedGrammar α κ) :=
  match table.positions[start]? with
  | some startPos => .ok { start, table, startPos }
  | none => .error { cause := .unknownRule start }

/-- The indexed grammar of the given rules. All of them are in the table before the start
rule is looked for. -/
def ofRules (start : String) (rules : List (String × Rule α κ)) :
    Except Failure (IndexedGrammar α κ) := do
  ofTable start (← RuleTable.ofRules rules)

theorem ofRules_of_table {start : String} {rules : List (String × Rule α κ)}
    {table : RuleTable α κ} (h : RuleTable.ofRules rules = .ok table) :
    ofRules start rules = ofTable start table := by
  rw [ofRules, h]
  rfl

/-- The rules in the order of their declaration. -/
def rules (g : IndexedGrammar α κ) : List (String × Rule α κ) :=
  g.table.entries.toList

def rule? (g : IndexedGrammar α κ) (name : String) : Except OutOfRange (Option (Rule α κ)) :=
  g.table.rule? name

def startRule (g : IndexedGrammar α κ) : Except OutOfRange (Rule α κ) :=
  g.table.ruleAt g.startPos

/-- Indexed grammars are the same if everything they are made of is. -/
instance [BEq κ] : BEq (IndexedGrammar α κ) where
  beq g h := g.start == h.start && g.table == h.table && g.startPos == h.startPos

theorem beq_eq [BEq κ] (g h : IndexedGrammar α κ) :
    (g == h) = (g.start == h.start &&
      (g.table.entries == h.table.entries && g.table.positions == h.table.positions) &&
      g.startPos == h.startPos) :=
  rfl

end IndexedGrammar

end Peg
