import Peg.ParseTree.Queries
import Peg.Pattern.Compile

/-!
Patterns compiled by queries on their parse tree, without syntax trees in between. A rule
is found below a node by its name and loaded as its name says; where a query does not find
what it asks for, loading fails. That it never does, and that it comes to the same rules
as reading syntax trees, is for proofs to say.
-/

namespace Peg.Pattern

def loadLiteral (t : ParseTree Token) : Except Failure (Rule Char Char) := do
  let token ← t.singleToken
  match token.value.toList.head? with
  | some c => return .literal c
  | none => throw (.malformed "literal")

/-- The rule of a character behind a backslash. -/
def specialRule : Char → Rule Char Char
  | 'n' => .literal '\n'
  | 't' => .literal '\t'
  | 'w' => .alt [.literal ' ', .literal '\n', .literal '\t']
  | c => .literal c

theorem specialRule_eq_meaning (c : Char) : specialRule c = (Atom.escaped c).meaning := by
  unfold specialRule
  split
  · rfl
  · rfl
  · rfl
  · rename_i hn ht hw
    rw [Atom.meaning, if_neg hn, if_neg ht, if_neg hw]

def loadSpecial (t : ParseTree Token) : Except Failure (Rule Char Char) := do
  let token ← t.singleToken
  match token.value.toList[1]? with
  | some c => return specialRule c
  | none => throw (.malformed "escape")

/-- A class has two bounds, each a character. -/
def loadClass (t : ParseTree Token) : Except Failure (Rule Char Char) := do
  match (t.selected.selectLabelled ["literal"]).nodes with
  | [lo, hi] =>
      match ← loadLiteral lo, ← loadLiteral hi with
      | .literal lo, .literal hi => return .range lo hi
      | _, _ => throw (.malformed "class")
  | _ => throw (.malformed "class")

/-- How the node of a rule is loaded. -/
inductive Loader where
  /-- By its tokens. -/
  | tokens (load : ParseTree Token → Except Failure (Rule Char Char))
  /-- From the rules below it. -/
  | parts (make : List (Rule Char Char) → Rule Char Char)
  /-- From the operand below it. -/
  | operand (make : Rule Char Char → Rule Char Char)

def loaders : List (String × Loader) :=
  [("literal", .tokens loadLiteral), ("special", .tokens loadSpecial),
   ("class", .tokens loadClass), ("and", .parts .seq), ("or", .parts .alt),
   ("zero_or_more", .operand .star), ("one_or_more", .operand .plus),
   ("zero_or_one", .operand .opt), ("until_empty", .operand .untilEnd),
   ("not", .operand .except)]

def loaderNames : List String :=
  loaders.map Prod.fst

def operandNames : List String :=
  ["operand", "unary_operand"]

def loader? (t : ParseTree Token) : Option Loader :=
  t.label.bind fun name => loaders.lookup name

/-- No node that is loaded is an operand itself. -/
theorem isLabelledAny_operandNames {t : ParseTree Token} {l : Loader}
    (h : loader? t = some l) : t.isLabelledAny operandNames = false := by
  obtain ⟨name, hname, hlookup⟩ := Option.bind_eq_some_iff.mp h
  have hne : ∀ operand ∈ operandNames, loaders.lookup operand = none := by
    decide
  rw [ParseTree.isLabelledAny, hname, Option.any_some, List.contains_eq_mem,
    decide_eq_false_iff_not]
  intro hmem
  rw [hne name hmem] at hlookup
  cases hlookup

mutual

/-- The rule of the first node that is loaded in some way. -/
def loadRule (t : ParseTree Token) : Except Failure (Rule Char Char) :=
  match _hfound : t.selected.selectOneLabelled loaderNames with
  | .error f => .error f
  | .ok found => loadNode found
termination_by (sizeOf t, 1)
decreasing_by
  have hle := ParseTree.sizeOf_le_of_selectOne _hfound
  rw [Prod.lex_def]
  omega

/-- The rule of a node that is loaded in some way itself. -/
def loadNode (t : ParseTree Token) : Except Failure (Rule Char Char) :=
  match _hloader : loader? t with
  | none => .error (.malformed "rule")
  | some (.tokens load) => load t
  | some (.parts make) =>
      ((t.skip.selectLabelled ["rule"]).nodes.attach.mapM fun s => loadRule s.1).map make
  | some (.operand make) =>
      match _hoperand : t.selected.selectOneLabelled operandNames with
      | .error f => .error f
      | .ok operand => (loadRule operand).map make
termination_by (sizeOf t, 0)
decreasing_by
  · have hlt := ParseTree.sizeOf_lt_of_mem_skip s.2
    rw [Prod.lex_def]
    exact .inl hlt
  · have hlt := ParseTree.sizeOf_lt_of_selectOne (isLabelledAny_operandNames _hloader)
      _hoperand
    rw [Prod.lex_def]
    exact .inl hlt

end

/-- The rules of the outermost nodes below a node that are rules. -/
def loadRules (t : ParseTree Token) : Except Failure (List (Rule Char Char)) :=
  (t.skip.selectLabelled ["rule"]).nodes.mapM loadRule

theorem loadRule_eq (t : ParseTree Token) :
    loadRule t = (t.selected.selectOneLabelled loaderNames).bind loadNode := by
  rw [loadRule]
  split <;> rename_i hfound <;> rw [hfound] <;> rfl

theorem loadNode_tokens {t : ParseTree Token}
    {load : ParseTree Token → Except Failure (Rule Char Char)}
    (h : loader? t = some (.tokens load)) : loadNode t = load t := by
  rw [loadNode]
  split <;> rename_i hloader <;> cases h.symm.trans hloader
  rfl

theorem loadNode_parts {t : ParseTree Token} {make : List (Rule Char Char) → Rule Char Char}
    (h : loader? t = some (.parts make)) : loadNode t = (loadRules t).map make := by
  rw [loadNode]
  split <;> rename_i hloader <;> cases h.symm.trans hloader
  rw [loadRules, List.mapM_subtype fun s hs => rfl, List.unattach_attach]

theorem loadNode_operand {t : ParseTree Token} {make : Rule Char Char → Rule Char Char}
    (h : loader? t = some (.operand make)) :
    loadNode t = ((t.selected.selectOneLabelled operandNames).bind loadRule).map make := by
  rw [loadNode]
  split <;> rename_i hloader <;> cases h.symm.trans hloader
  split <;> rename_i hoperand <;> rw [hoperand] <;> rfl

/-- The rule that the tree of a whole source denotes. -/
def loadTree (t : ParseTree Token) : Except Failure (Rule Char Char) :=
  (loadRules t).map (Rule.ofParts .seq)

/-- The parser of patterns. -/
def loadParser : Outcome Parser := do
  let lexer ← Lexer.ofKinds tokenKinds .unambiguous
  let grammar ← Grammar.ofRules "root" grammarRules
  return ⟨lexer, grammar⟩

/-- The rule that a source denotes. -/
def load (src : String) : Outcome (Rule Char Char) := do
  let parser ← loadParser
  let tree ← (parser.parse src).mapFailure fun f => malformed src [f]
  loadTree tree

end Peg.Pattern
