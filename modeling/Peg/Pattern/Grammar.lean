import Peg.Parser
import Peg.Pattern.Basic

/-!
The grammar of patterns, written with the rules of this library: the kinds of token
that a pattern is made of, and the rules over them.
-/

namespace Peg.Pattern

/-- Each operator is a kind of its own. A backslash and the character behind it are
one token, and so is any character that is not reserved. -/
def tokenKinds : List (String × Rule Char Char) :=
  operators.map (fun c => (String.singleton c, .literal c)) ++
    [("special", .seq [.literal '\\', .any 0]),
     ("literal", .except (.alt (reserved.map .literal)))]

def lexer : Lexer where
  kinds := tokenKinds
  dispatch := .unambiguous
  hidden := Lexer.hiddenByName
  distinct := by decide

/-- The grammar tries a sequence before a choice, and an operand with a mark before
one without. -/
def grammarRules : List (String × Rule Token String) :=
  [("root", .untilEnd (.ref "rule")),
   ("rule", .alt [.ref "operation", .ref "operand"]),
   ("operation",
     .alt [.ref "zero_or_more", .ref "one_or_more", .ref "zero_or_one",
       .ref "until_empty", .ref "not"]),
   ("zero_or_more", .seq [.ref "operand", .literal "*"]),
   ("one_or_more", .seq [.ref "operand", .literal "+"]),
   ("zero_or_one", .seq [.ref "operand", .literal "?"]),
   ("until_empty", .seq [.ref "operand", .literal "!"]),
   ("not", .seq [.literal "^", .ref "unary_operand"]),
   ("operand", .alt [.ref "and", .ref "or", .ref "unary_operand"]),
   ("unary_operand", .alt [.ref "literal", .ref "class", .ref "special"]),
   ("literal", .literal "literal"),
   ("special", .literal "special"),
   ("class",
     .seq [.literal "[", .ref "literal", .literal "-", .ref "literal", .literal "]"]),
   ("and", .seq [.literal "(", .plus (.ref "rule"), .literal ")"]),
   ("or",
     .seq [.literal "(", .ref "rule", .plus (.seq [.literal "|", .ref "rule"]),
       .literal ")"])]

def grammar : Grammar Token String where
  start := "root"
  rules := grammarRules
  distinct := by decide
  start_declared := by decide

def parser : Parser :=
  ⟨lexer, grammar⟩

end Peg.Pattern
