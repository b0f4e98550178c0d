import Peg.Lexer

/-!
Parsers: a lexer, and a grammar over the tokens it yields. The start rule has to
match all tokens of a text.
-/

namespace Peg

structure Parser where
  lexer : Lexer
  grammar : Grammar Token String

namespace Parser

/-- A match of the start rule that leaves tokens behind is a failure of that rule. -/
def parseTokens (p : Parser) (tokens : List Token) : Outcome (ParseTree Token) :=
  (p.grammar.matchStart tokens.toArray).bind fun r =>
    if r.stop < tokens.length then
      .failed
        { cause := .incomplete r.stop tokens.length
          pos := r.stop
          name := some p.grammar.start }
    else
      .done r.tree

def parse (p : Parser) (text : String) : Outcome (ParseTree Token) :=
  (p.lexer.tokens text).bind p.parseTokens

end Parser

end Peg
