import Peg.Grammar.Matching
import Peg.ParseTree.Selection
import Peg.Token

/-!
Lexers cut a text into tokens. A lexer has a rule for each kind of token; its grammar
adds two rules, one for a token of any kind and one for tokens up to the end of the
text. Tokens of hidden kinds, such as blanks, are matched and then left out.
-/

namespace Peg

/-- How a lexer picks among the kinds that match at one place. -/
inductive Dispatch where
  /-- The kind declared first is taken. -/
  | firstMatch
  /-- Only one kind may match. -/
  | unambiguous
  deriving DecidableEq

namespace Lexer

def rootName : String := "<root>"

def tokenName : String := "<token>"

/-- Unless told otherwise, a lexer hides the kinds whose names begin with an
underscore. -/
def hiddenByName (kind : String) : Bool :=
  kind.toList.head? = some '_'

end Lexer

/-- A lexer. Its kinds have distinct names, other than those of the two added rules. -/
structure Lexer where
  kinds : List (String × Rule Char Char)
  dispatch : Dispatch
  hidden : String → Bool
  distinct : (Lexer.rootName :: Lexer.tokenName :: kinds.map Prod.fst).Nodup

namespace Lexer

def ofKinds (kinds : List (String × Rule Char Char)) (dispatch : Dispatch := .firstMatch)
    (hidden : String → Bool := hiddenByName) : Except Failure Lexer :=
  match h : firstRepeat (rootName :: tokenName :: kinds.map Prod.fst) with
  | some name => .error { cause := .duplicateRule name }
  | none => .ok ⟨kinds, dispatch, hidden, firstRepeat_eq_none_iff.mp h⟩

theorem ofKinds_eq_ok {kinds : List (String × Rule Char Char)}
    (h : (rootName :: tokenName :: kinds.map Prod.fst).Nodup) (dispatch : Dispatch)
    (hidden : String → Bool) :
    ofKinds kinds dispatch hidden = .ok ⟨kinds, dispatch, hidden, h⟩ := by
  unfold ofKinds
  split
  · rename_i name hname
    rw [firstRepeat_eq_none_iff.mpr h] at hname
    cases hname
  · rfl

theorem of_ofKinds {kinds : List (String × Rule Char Char)} {dispatch : Dispatch}
    {hidden : String → Bool} {l : Lexer} (h : ofKinds kinds dispatch hidden = .ok l) :
    l.kinds = kinds ∧ l.dispatch = dispatch ∧ l.hidden = hidden := by
  unfold ofKinds at h
  split at h
  · cases h
  · cases h
    exact ⟨rfl, rfl, rfl⟩

def kindNames (l : Lexer) : List String :=
  l.kinds.map Prod.fst

/-- The rule of a kind. The two added rules are none. -/
def rule? (l : Lexer) (kind : String) : Option (Rule Char Char) :=
  l.kinds.lookup kind

/-- A token of any kind. -/
def tokenRule (l : Lexer) : Rule Char Char :=
  match l.dispatch with
  | .firstMatch => .alt (l.kindNames.map .ref)
  | .unambiguous => .oneOf (l.kindNames.map .ref)

def grammar (l : Lexer) : Grammar Char Char where
  start := rootName
  rules := (rootName, .untilEnd (.ref tokenName)) :: (tokenName, l.tokenRule) :: l.kinds
  distinct := l.distinct
  start_declared := List.mem_cons_self

/-- Tokens for the labelled trees of a list, which lie side by side in a text from
`pos` on. -/
def place (pos : Nat) : List (ParseTree Char) → List Token
  | [] => []
  | t :: ts =>
      let chars := t.values
      let rest := place (pos + chars.length) ts
      match t.label with
      | some kind => ⟨kind, String.ofList chars, pos⟩ :: rest
      | none => rest

/-- The tokens of a text, hidden ones among them. Each is an outermost node that
carries the name of a kind. -/
def allTokens (l : Lexer) (text : String) : Outcome (List Token) :=
  (l.grammar.matchStart text.toList.toArray).map fun r =>
    place 0 (r.tree.outermost (·.isLabelledAny l.kindNames))

def tokens (l : Lexer) (text : String) : Outcome (List Token) :=
  (l.allTokens text).map (·.filter (!l.hidden ·.kind))

end Lexer

end Peg
