import Peg.Item

/-!
Tokens: stretches of a text, each with its kind, its characters and the position of
the first of them. Rules look at the kind of a token.
-/

namespace Peg

structure Token where
  kind : String
  value : String
  pos : Nat := 0
  deriving DecidableEq

namespace Token

/-- The kind with the value in brackets. -/
def render (t : Token) : String :=
  t.kind ++ "(" ++ Text.escapeText t.value ++ ")"

/-- The kind with the value in quotes. -/
def describe (t : Token) : String :=
  t.kind ++ " '" ++ Text.escapeText t.value ++ "'"

instance : ToString Token := ⟨render⟩

instance : Item Token String where
  key := Token.kind

end Token

end Peg
