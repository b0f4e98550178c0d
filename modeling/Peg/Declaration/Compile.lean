import Peg.Declaration.Parse
import Peg.Pattern.Compile

/-!
From declarations to a parser. The declared kinds of token come first, in their order,
then the quoted patterns, in the order in which the rules mention them. In the lexer
the quoted patterns stand before the declared kinds, so that a keyword is not taken
for a name. The first rule is the start rule.
-/

namespace Peg

namespace Declaration

/-- The declared kinds of token, each with the body of its pattern. -/
def tokens (ds : List Declaration) : List (String × String) :=
  ds.filterMap fun
    | .token name body => some (name, body)
    | .rule _ _ => none

def rules (ds : List Declaration) : List (String × Alternation) :=
  ds.filterMap fun
    | .token _ _ => none
    | .rule name alternatives => some (name, alternatives)

/-- A name may be declared only once. -/
def declare (taken : List String) (name : String) : Except Failure Unit :=
  if name ∈ taken then .error { cause := .duplicateRule name } else .ok ()

/-- The kinds of the token declarations; the names in `taken` are declared already. -/
def compileTokens (taken : List String) :
    List (String × String) → Outcome (List (String × Rule Char Char))
  | [] => .done []
  | (name, body) :: rest => do
      declare taken name
      let rule ← Pattern.compile body
      let kinds ← compileTokens (name :: taken) rest
      return (name, rule) :: kinds

/-- The kinds of quoted patterns; those in `found` are known already. -/
def compileQuoted (found : List (String × Rule Char Char)) :
    List String → Outcome (List (String × Rule Char Char))
  | [] => .done found
  | body :: bodies =>
      if quotation body ∈ found.map Prod.fst then
        compileQuoted found bodies
      else do
        let rule ← Pattern.compile body
        compileQuoted (found ++ [(quotation body, rule)]) bodies

/-- The kinds of the quoted patterns that rule declarations mention. -/
def compileMentioned (taken : List String) (found : List (String × Rule Char Char)) :
    List (String × Alternation) → Outcome (List (String × Rule Char Char))
  | [] => .done found
  | (name, alternatives) :: rest => do
      declare taken name
      let found ← compileQuoted found (alternatives.quotedBodies)
      compileMentioned (name :: taken) found rest

end Declaration

namespace Parser

open Declaration

/-- The parser that declarations describe. -/
def ofDeclarations (ds : List Declaration) : Outcome Parser := do
  let kinds ← compileTokens [] (tokens ds)
  let names := kinds.map Prod.fst
  let mentioned ← compileMentioned names [] (rules ds)
  match rules ds with
  | [] => .failed { cause := .malformed "grammar without parser rules" }
  | (start, _) :: _ =>
      let lexer ← Lexer.ofKinds (mentioned ++ kinds)
      let grammar ← Grammar.ofRules start
        ((rules ds).map fun (name, alternatives) => (name, alternatives.meaning names.contains))
      return ⟨lexer, grammar⟩

/-- The parser that a source describes. -/
def ofSource (src : String) : Outcome Parser := do
  ofDeclarations (← Declaration.parse src)

end Parser

end Peg
