import Peg.ParseTree.Outline
import Peg.Pattern.Grammar

/-!
From the source of a pattern to the rule that it denotes: the source is parsed, the
outline of the parse tree is read as syntax trees, and these have their meaning.
-/

namespace Peg.Pattern

/-- The character of a `literal` token. -/
def plainChar? (t : Token) : Option PlainChar :=
  match t.value.toList with
  | [c] => if h : c ∉ reserved then some ⟨c, h⟩ else none
  | _ => none

def Atom.ofOutline? : Outline Token → Option Atom
  | .node "unary_operand" [.node "literal" [.item t]] => (plainChar? t).map .plain
  | .node "unary_operand" [.node "special" [.item t]] => (t.value.toList[1]?).map .escaped
  | .node "unary_operand"
      [.node "class" [_, .node "literal" [.item lo], _, .node "literal" [.item hi], _]] => do
        return .range (← plainChar? lo) (← plainChar? hi)
  | _ => none

mutual

/-- The pattern of a node, where the operand of a marked one has the repetition of
its mark. -/
def ofOutline? (repetition : Option Repetition) : Outline Token → Option Pattern
  | .node "rule" [o] => ofOutline? none o
  | .node "operation" [o] => ofOutline? none o
  | .node "zero_or_more" [o, _] => ofOutline? (some .star) o
  | .node "one_or_more" [o, _] => ofOutline? (some .plus) o
  | .node "zero_or_one" [o, _] => ofOutline? (some .opt) o
  | .node "until_empty" [o, _] => ofOutline? (some .untilEnd) o
  | .node "not" [_, o] => (Atom.ofOutline? o).map .except
  | .node "operand" [o] => ofOutline? repetition o
  | .node "and" parts =>
      match ofOutlines? parts with
      | some (p :: ps) => some (.sequence p ps repetition)
      | _ => none
  | .node "or" parts =>
      match ofOutlines? parts with
      | some (p :: q :: qs) => some (.choice p q qs repetition)
      | _ => none
  | o => (Atom.ofOutline? o).map (.atom · repetition)

/-- The patterns of the nodes among some parts; brackets and bars are passed over. -/
def ofOutlines? : List (Outline Token) → Option (List Pattern)
  | [] => some []
  | .item _ :: os => ofOutlines? os
  | o :: os => do return (← ofOutline? none o) :: (← ofOutlines? os)

end

theorem ofOutlines?_item (t : Token) (os : List (Outline Token)) :
    ofOutlines? (.item t :: os) = ofOutlines? os := rfl

theorem ofOutlines?_node (name : String) (parts os : List (Outline Token)) :
    ofOutlines? (.node name parts :: os) =
      do return (← ofOutline? none (.node name parts)) :: (← ofOutlines? os) := rfl

theorem ofOutlines?_append {os os' : List (Outline Token)} {ps qs : List Pattern}
    (h : ofOutlines? os = some ps) (h' : ofOutlines? os' = some qs) :
    ofOutlines? (os ++ os') = some (ps ++ qs) := by
  induction os generalizing ps with
  | nil =>
      cases h
      exact h'
  | cons o os ih =>
      cases o with
      | item t => exact ih h
      | node name parts =>
          rw [ofOutlines?_node] at h
          simp only [Option.bind_eq_bind, Option.bind_eq_some_iff, Option.pure_def,
            Option.some.injEq] at h
          obtain ⟨p, hp, ps, hps, rfl⟩ := h
          rw [List.cons_append, ofOutlines?_node, hp, ih hps]
          rfl

/-- The failure of a source that is not made of patterns. -/
def malformed (src : String) (children : List Failure) : Failure :=
  { cause := .malformed ("lexer rule " ++ Text.quoteText src), children }

/-- The patterns that a source is made of. -/
def parse (src : String) : Outcome (List Pattern) := do
  let tree ← (parser.parse src).mapFailure fun f => malformed src [f]
  match tree.outline with
  | [.node _ os] =>
      match ofOutlines? os with
      | some ps => .done ps
      | none => .failed (malformed src [])
  | _ => .failed (malformed src [])

/-- The rule that a source denotes. -/
def compile (src : String) : Outcome (Rule Char Char) :=
  (parse src).map sourceMeaning

end Peg.Pattern
