import Peg.Declaration.Compile
import Peg.Pattern.Queries

/-!
Declarations loaded by queries on their parse tree, without syntax trees in between. The
kinds of token that rules mention are collected on the way. The parser of declarations is
itself put together from patterns here.
-/

namespace Peg.Declaration

/-- A text without the quotes around it; other texts are left as they are. -/
def unquote (quoted : String) : String :=
  match quoted.toList with
  | '"' :: rest =>
      if rest.getLast? = some '"' then String.ofList rest.dropLast else quoted
  | _ => quoted

/-- A computation that collects kinds of token. -/
abbrev Collect (β : Type) : Type :=
  StateT (List (String × Rule Char Char)) Outcome β

def fail {β : Type} (f : Failure) : Collect β :=
  fun _ => .failed f

/-- The kind of a quoted pattern is collected where it is mentioned first. -/
def mentionQuoted (quoted : String) : Collect Unit := do
  let found ← get
  if quoted ∉ found.map Prod.fst then
    let rule ← Pattern.load (unquote quoted)
    set (found ++ [(quoted, rule)])

def termNames : List String :=
  ["zero_or_more", "one_or_more", "zero_or_one", "until_empty", "atom"]

def atomNames : List String :=
  ["group", "ref", "literal"]

section Rules

variable (isKind : String → Bool)

mutual

def loadAlternation (t : ParseTree Token) : Collect (Rule Token String) := do
  let rules ← (t.skip.selectLabelled ["sequence"]).nodes.attach.mapM fun s => loadSequence s.1
  return Rule.ofParts .alt rules
termination_by (sizeOf t, 0)
decreasing_by
  have hlt := ParseTree.sizeOf_lt_of_mem_skip s.2
  rw [Prod.lex_def]
  exact .inl hlt

def loadSequence (t : ParseTree Token) : Collect (Rule Token String) := do
  let rules ← (t.skip.selectLabelled ["term"]).nodes.attach.mapM fun s => loadTerm s.1
  return Rule.ofParts .seq rules
termination_by (sizeOf t, 0)
decreasing_by
  have hlt := ParseTree.sizeOf_lt_of_mem_skip s.2
  rw [Prod.lex_def]
  exact .inl hlt

def loadTerm (t : ParseTree Token) : Collect (Rule Token String) :=
  match _hterm : t.selected.selectOneLabelled termNames with
  | .error f => fail f
  | .ok term => if term.isLabelled "atom" then loadAtom term else loadMarked term
termination_by (sizeOf t, 4)
decreasing_by
  all_goals
    have hle := ParseTree.sizeOf_le_of_selectOne _hterm
    rw [Prod.lex_def]
    omega

/-- An operand with a mark; which mark, the node is called after. -/
def loadMarked (t : ParseTree Token) : Collect (Rule Token String) :=
  match _hatom : t.selected.selectOneLabelled ["atom"] with
  | .error f => fail f
  | .ok atom => do
      let operand ← loadAtom atom
      match t.label with
      | some "zero_or_more" => return .star operand
      | some "one_or_more" => return .plus operand
      | some "zero_or_one" => return .opt operand
      | some "until_empty" => return .untilEnd operand
      | _ => fail (.malformed "term")
termination_by (sizeOf t, 3)
decreasing_by
  have hle := ParseTree.sizeOf_le_of_selectOne _hatom
  rw [Prod.lex_def]
  omega

def loadAtom (t : ParseTree Token) : Collect (Rule Token String) :=
  match _hatom : t.selected.selectOneLabelled atomNames with
  | .error f => fail f
  | .ok atom => loadOperand atom
termination_by (sizeOf t, 2)
decreasing_by
  have hle := ParseTree.sizeOf_le_of_selectOne _hatom
  rw [Prod.lex_def]
  omega

def loadOperand (t : ParseTree Token) : Collect (Rule Token String) :=
  match t.label with
  | some "group" =>
      match _halternation : t.selected.selectOneLabelled ["alternation"] with
      | .error f => fail f
      | .ok alternation => loadAlternation alternation
  | some "ref" => do
      let token ← t.singleToken
      return if isKind token.value then .literal token.value else .ref token.value
  | some "literal" => do
      let token ← t.singleToken
      mentionQuoted token.value
      return .literal token.value
  | _ => fail (.malformed "atom")
termination_by (sizeOf t, 1)
decreasing_by
  have hle := ParseTree.sizeOf_le_of_selectOne _halternation
  rw [Prod.lex_def]
  omega

end

variable {isKind}

theorem loadAlternation_eq (t : ParseTree Token) :
    loadAlternation isKind t = do
      let rules ← (t.skip.selectLabelled ["sequence"]).nodes.mapM (loadSequence isKind)
      return Rule.ofParts .alt rules := by
  rw [loadAlternation, List.mapM_subtype fun s hs => rfl, List.unattach_attach]

theorem loadSequence_eq (t : ParseTree Token) :
    loadSequence isKind t = do
      let rules ← (t.skip.selectLabelled ["term"]).nodes.mapM (loadTerm isKind)
      return Rule.ofParts .seq rules := by
  rw [loadSequence, List.mapM_subtype fun s hs => rfl, List.unattach_attach]

theorem loadTerm_eq {t term : ParseTree Token}
    (h : t.selected.selectOneLabelled termNames = .ok term) :
    loadTerm isKind t =
      if term.isLabelled "atom" then loadAtom isKind term else loadMarked isKind term := by
  rw [loadTerm]
  split <;> rename_i hterm <;> cases h.symm.trans hterm
  rfl

theorem loadMarked_eq {t atom : ParseTree Token}
    (h : t.selected.selectOneLabelled ["atom"] = .ok atom) :
    loadMarked isKind t = (do
      let operand ← loadAtom isKind atom
      match t.label with
      | some "zero_or_more" => return .star operand
      | some "one_or_more" => return .plus operand
      | some "zero_or_one" => return .opt operand
      | some "until_empty" => return .untilEnd operand
      | _ => fail (.malformed "term")) := by
  rw [loadMarked]
  split <;> rename_i hatom <;> cases h.symm.trans hatom
  rfl

theorem loadAtom_eq {t atom : ParseTree Token}
    (h : t.selected.selectOneLabelled atomNames = .ok atom) :
    loadAtom isKind t = loadOperand isKind atom := by
  rw [loadAtom]
  split <;> rename_i hatom <;> cases h.symm.trans hatom
  rfl

theorem loadOperand_group {t alternation : ParseTree Token} (hlabel : t.label = some "group")
    (h : t.selected.selectOneLabelled ["alternation"] = .ok alternation) :
    loadOperand isKind t = loadAlternation isKind alternation := by
  rw [loadOperand, hlabel]
  simp only
  split <;> rename_i halternation <;> cases h.symm.trans halternation
  rfl

theorem loadOperand_ref {t : ParseTree Token} (hlabel : t.label = some "ref") :
    loadOperand isKind t = do
      let token ← t.singleToken
      return if isKind token.value then .literal token.value else .ref token.value := by
  rw [loadOperand, hlabel]
  rfl

theorem loadOperand_literal {t : ParseTree Token} (hlabel : t.label = some "literal") :
    loadOperand isKind t = do
      let token ← t.singleToken
      mentionQuoted token.value
      return .literal token.value := by
  rw [loadOperand, hlabel]
  rfl

end Rules

/-- The name that a declaration begins with, unless it is taken. -/
def declaredName (taken : List String) (t : ParseTree Token) : Except Failure String := do
  match t.values with
  | [] => throw (.malformed "declaration")
  | first :: _ =>
      declare taken first.value
      return first.value

def loadTokens (taken : List String) :
    List (ParseTree Token) → Outcome (List (String × Rule Char Char))
  | [] => .done []
  | t :: ts => do
      let name ← declaredName taken t
      match t.values.find? (·.kind = "str") with
      | none => .failed (.malformed "lexer declaration")
      | some quoted =>
          let rule ← Pattern.load (unquote quoted.value)
          let kinds ← loadTokens (name :: taken) ts
          return (name, rule) :: kinds

def loadRules (isKind : String → Bool) (taken : List String) :
    List (ParseTree Token) → Collect (List (String × Rule Token String))
  | [] => return []
  | t :: ts => do
      let name ← declaredName taken t
      let alternation ← t.selected.selectOneLabelled ["alternation"]
      let rule ← loadAlternation isKind alternation
      let rules ← loadRules isKind (name :: taken) ts
      return (name, rule) :: rules

/-- The kinds of token of declarations as patterns, but for the arrow. -/
def tokenSources : List (String × String) :=
  [("_ws", "\\w+"), ("id", "(_|[a-z]|[A-Z])(_|[a-z]|[A-Z]|[0-9])*"),
   ("str", "\"((\\\\\\\\)|(\\\\\")|^\")*\"")]

def operatorSources : List (String × String) :=
  ['=', ';', '|', '(', ')', '*', '+', '?', '!'].map fun c =>
    (String.singleton c, String.ofList ['\\', c])

def loadKind (source : String × String) : Outcome (String × Rule Char Char) := do
  return (source.1, ← Pattern.load source.2)

/-- The parser of declarations. -/
def loadParser : Outcome Parser := do
  let kinds ← tokenSources.mapM loadKind
  let operators ← operatorSources.mapM loadKind
  let lexer ← Lexer.ofKinds (kinds ++ ("->", Rule.word "->") :: operators) .unambiguous
  let grammar ← Grammar.ofRules "root" grammarRules
  return ⟨lexer, grammar⟩

def declarationNames : List String :=
  ["lexer_decl", "parser_decl"]

/-- The parser that the tree of a whole source describes. -/
def loadTree (t : ParseTree Token) : Outcome Parser := do
  let declarations := (t.selected.selectLabelled declarationNames).nodes
  let kinds ← loadTokens [] (declarations.filter (·.isLabelled "lexer_decl"))
  let names := kinds.map Prod.fst
  let (rules, mentioned) ←
    (loadRules names.contains names (declarations.filter (·.isLabelled "parser_decl"))).run []
  match rules with
  | [] => .failed (.malformed "grammar without parser rules")
  | (start, _) :: _ =>
      let lexer ← Lexer.ofKinds (mentioned ++ kinds)
      let grammar ← Grammar.ofRules start rules
      return ⟨lexer, grammar⟩

/-- The parser that a source describes. -/
def load (src : String) : Outcome Parser := do
  let parser ← loadParser
  let tree ← (parser.parse src).mapFailure fun f => malformed [f]
  loadTree tree

end Peg.Declaration
