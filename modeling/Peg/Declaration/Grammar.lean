import Peg.Parser

/-!
The grammar of declarations, written with the rules of this library: the kinds of
token that declarations are made of, and the rules over them.
-/

namespace Peg.Declaration

def letters : List (Rule Char Char) :=
  [.literal '_', .range 'a' 'z', .range 'A' 'Z']

def operatorKind (c : Char) : String × Rule Char Char :=
  (String.singleton c, .literal c)

/-- Blanks are hidden. In a quoted text a double quote stands behind a backslash, and
two backslashes are one character, so that the second does not quote what follows. -/
def tokenKinds : List (String × Rule Char Char) :=
  [("_ws", .plus (.alt [.literal ' ', .literal '\n', .literal '\t'])),
   ("id", .seq [.alt letters, .star (.alt (letters ++ [.range '0' '9']))]),
   ("str",
     .seq [.literal '"',
       .star (.alt [.seq [.literal '\\', .literal '\\'],
         .seq [.literal '\\', .literal '"'], .except (.literal '"')]),
       .literal '"']),
   ("->", Rule.word "->")] ++
    ['=', ';', '|', '(', ')', '*', '+', '?', '!'].map operatorKind

def lexer : Lexer where
  kinds := tokenKinds
  dispatch := .unambiguous
  hidden := Lexer.hiddenByName
  distinct := by decide

def grammarRules : List (String × Rule Token String) :=
  [("root", .untilEnd (.ref "decl")),
   ("decl", .alt [.ref "lexer_decl", .ref "parser_decl"]),
   ("lexer_decl", .seq [.literal "id", .literal "=", .literal "str", .literal ";"]),
   ("parser_decl", .seq [.literal "id", .literal "->", .ref "alternation", .literal ";"]),
   ("alternation",
     .seq [.ref "sequence", .star (.seq [.literal "|", .ref "sequence"])]),
   ("sequence", .plus (.ref "term")),
   ("term",
     .alt [.ref "zero_or_more", .ref "one_or_more", .ref "zero_or_one",
       .ref "until_empty", .ref "atom"]),
   ("zero_or_more", .seq [.ref "atom", .literal "*"]),
   ("one_or_more", .seq [.ref "atom", .literal "+"]),
   ("zero_or_one", .seq [.ref "atom", .literal "?"]),
   ("until_empty", .seq [.ref "atom", .literal "!"]),
   ("atom", .alt [.ref "group", .ref "ref", .ref "literal"]),
   ("group", .seq [.literal "(", .ref "alternation", .literal ")"]),
   ("ref", .literal "id"),
   ("literal", .literal "str")]

def grammar : Grammar Token String where
  start := "root"
  rules := grammarRules
  distinct := by decide
  start_declared := by decide

def parser : Parser :=
  ⟨lexer, grammar⟩

end Peg.Declaration
