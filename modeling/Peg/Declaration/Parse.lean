import Peg.Declaration.Basic
import Peg.Declaration.Grammar
import Peg.ParseTree.Outline

/-!
Reading declarations: the source is parsed, and the outline of the parse tree is
read as syntax trees.
-/

namespace Peg

/-- What stands between the quotes of a `str` token. -/
def Token.body? (t : Token) : Option String :=
  match t.value.toList with
  | '"' :: rest => if rest.getLast? = some '"' then some (String.ofList rest.dropLast) else none
  | _ => none

mutual

/-- The term of a node, where the operand of a marked one has the repetition of its
mark. -/
def Term.ofOutline? (repetition : Option Repetition) : Outline Token → Option Term
  | .node "term" [o] => Term.ofOutline? none o
  | .node "zero_or_more" [o, _] => Term.ofOutline? (some .star) o
  | .node "one_or_more" [o, _] => Term.ofOutline? (some .plus) o
  | .node "zero_or_one" [o, _] => Term.ofOutline? (some .opt) o
  | .node "until_empty" [o, _] => Term.ofOutline? (some .untilEnd) o
  | .node "atom" [o] => Term.ofOutline? repetition o
  | .node "ref" [.item t] => some (.name t.value repetition)
  | .node "literal" [.item t] => t.body?.map (.quoted · repetition)
  | .node "group" [_, .node "alternation" parts, _] =>
      (Alternation.ofOutlines? parts).map (.group · repetition)
  | _ => none

/-- The terms of a sequence. -/
def Term.ofOutlines? : List (Outline Token) → Option (List Term)
  | [] => some []
  | o :: os => do return (← Term.ofOutline? none o) :: (← Term.ofOutlines? os)

/-- The sequences of an alternation; the bars between them are passed over. -/
def Alternation.ofOutlines? : List (Outline Token) → Option Alternation
  | [] => some []
  | .item _ :: os => Alternation.ofOutlines? os
  | .node _ parts :: os => do
      return (← Term.ofOutlines? parts) :: (← Alternation.ofOutlines? os)

end

namespace Declaration

def ofOutline? : Outline Token → Option Declaration
  | .node "decl" [.node "lexer_decl" [.item name, _, .item body, _]] =>
      body.body?.map (.token name.value ·)
  | .node "decl" [.node "parser_decl" [.item name, _, .node "alternation" parts, _]] =>
      (Alternation.ofOutlines? parts).map (.rule name.value ·)
  | _ => none

/-- The failure of a source that is not made of declarations. -/
def malformed (children : List Failure) : Failure :=
  { cause := .malformed "grammar", children }

/-- The declarations that a source is made of. -/
def parse (src : String) : Outcome (List Declaration) := do
  let tree ← (parser.parse src).mapFailure fun f => malformed [f]
  match tree.outline with
  | [.node _ os] =>
      match os.mapM ofOutline? with
      | some ds => .done ds
      | none => .failed (malformed [])
  | _ => .failed (malformed [])

end Declaration

end Peg
