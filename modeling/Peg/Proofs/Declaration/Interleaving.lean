import Peg.Proofs.Declaration.Queries

/-!
How declarations of the two sorts are placed among one another does not matter, and neither
do the blanks between their words. A sound declaration is known by its words, since a source
of just these words is parsed as that declaration and as no other. So the tokens of each sort
of declarations, taken in their order, say all that loading them depends on.
-/

namespace Peg.Declaration

theorem Sound.eq_of_lexemes {d d' : Declaration} (h : d.Sound) (h' : d'.Sound)
    (hlexemes : declarationLexemes d = declarationLexemes d') : d = d' := by
  let ts := Token.placed 0 (declarationLexemes d)
  have hts : ts.map Token.lexeme = declarationLexemes d := Token.map_lexeme_placed 0 _
  have hstart : Remains ts.toArray 0 (ts ++ []) := by
    rw [List.append_nil]
    exact .start ts.toArray
  obtain ⟨os, hyields, parts, rfl, hread⟩ :=
    (declarationItem h).yields ts [] hts trivial
  obtain ⟨os', hyields', parts', rfl, hread'⟩ :=
    (declarationItem h').yields ts [] (hts.trans hlexemes) trivial
  cases hyields.unique hyields' hstart
  exact Option.some.inj (hread.symm.trans hread')

theorem eq_of_map_lexemes {ds ds' : List Declaration} (h : ∀ d ∈ ds, d.Sound)
    (h' : ∀ d ∈ ds', d.Sound) (hlexemes : ds.map declarationLexemes = ds'.map declarationLexemes) :
    ds = ds' := by
  induction ds generalizing ds' with
  | nil => exact (List.map_eq_nil_iff.mp hlexemes.symm).symm
  | cons d ds ih =>
      obtain ⟨d', rest, rfl, hd, hrest⟩ := List.map_eq_cons_iff.mp hlexemes.symm
      obtain ⟨hsound, hall⟩ := List.forall_mem_cons.mp h
      obtain ⟨hsound', hall'⟩ := List.forall_mem_cons.mp h'
      rw [hsound.eq_of_lexemes hsound' hd.symm, ih hall hall' hrest.symm]

/-- The rule that matches declarations of a sort. -/
def ruleName : Declaration → String
  | .token _ _ => "lexer_decl"
  | .rule _ _ => "parser_decl"

theorem ruleName_mem (d : Declaration) : d.ruleName ∈ declarationNames := by
  cases d with
  | token name body => exact List.mem_cons_self
  | rule name alternatives => exact List.mem_cons_of_mem _ List.mem_cons_self

/-- The node of a declaration, which holds the words that it is written with. -/
structure Writes (t : ParseTree Token) (d : Declaration) : Prop where
  label : t.label = some d.ruleName
  written : t.values.map Token.lexeme = declarationLexemes d

/-- Only such nodes are read as declarations. -/
theorem of_ofOutline? {name : String} {parts : List (Outline Token)} {d : Declaration}
    (h : ofOutline? (.node name parts) = some d) :
    name = "decl" ∧ ∃ inner, parts = [.node d.ruleName inner] := by
  unfold ofOutline? at h
  split at h
  · rename_i hnode
    obtain ⟨body, -, rfl⟩ := Option.map_eq_some_iff.mp h
    cases hnode
    exact ⟨rfl, _, rfl⟩
  · rename_i hnode
    obtain ⟨alternatives, -, rfl⟩ := Option.map_eq_some_iff.mp h
    cases hnode
    exact ⟨rfl, _, rfl⟩
  · cases h

/-- The node of a declaration is read as one that is written with the tokens below it. -/
def Spells (name : String) (ts : List Token) (os : List (Outline Token)) : Prop :=
  os.flatMap Outline.values = ts ∧
    ∀ d, ofOutline? (.node name os) = some d → ts.map Token.lexeme = declarationLexemes d

theorem spells_of_parsed {name : String} {ts : List Token} {os : List (Outline Token)}
    (hvalues : os.flatMap Outline.values = ts) (hts : ∀ t ∈ ts, Legible t)
    (hparsed : Parsed name ts os) : Spells name ts os := by
  refine ⟨hvalues, fun d hd => ?_⟩
  obtain ⟨rfl, -⟩ := of_ofOutline? hd
  obtain ⟨d', hd', hlexemes, -⟩ := hparsed
  obtain rfl : d = d' := Option.some.inj (hd.symm.trans hd')
  rw [declarationLexemes, hlexemes, wordLexemes, words, List.map_map]
  exact List.map_congr_left fun t ht => (hts t ht).lexeme_eq

/-- The query for declarations finds a node for each of them, in their order. -/
theorem writes_of_parse {src : String} {tree : ParseTree Token}
    (h : parser.parse src = .done tree) {ds : List Declaration} (hds : parse src = .done ds) :
    List.Forall₂ Writes (tree.selected.selectLabelled declarationNames).nodes ds := by
  obtain ⟨ts, os, hts, houtline, r, hrule, hread⟩ :=
    Parser.parse_tells closed_parsed.values.reads h
  have hroot : parser.grammar.rule? "root" = some (.untilEnd (.ref "decl")) := rfl
  cases hrule.symm.trans hroot
  have hspells : (Rule.untilEnd (.ref "decl")).Reads Spells ts os := by
    refine Rule.Reads.given (hread.mono ?_) (legible_of_tokens hts)
    rintro name ys ps ⟨hvalues, hparsed⟩ hys
    exact spells_of_parsed hvalues hys (hparsed hys)
  refine forall₂_declarations h houtline (forall₂_root hspells ?_ (mapM_of_parse h houtline hds))
  rintro xs parts d ⟨hvalues, hwritten⟩ hd
  obtain ⟨-, inner, rfl⟩ := of_ofOutline? hd
  rw [outermost_decl d.ruleName_mem]
  refine .cons (fun t ht => ⟨ht.label, ?_⟩) .nil
  rw [List.flatMap_singleton] at hvalues
  rw [ht.values, hvalues]
  exact hwritten d hd

/-- The declarations of one sort in a parse tree, each as the lexemes of its tokens. -/
def declared (sort : String) (t : ParseTree Token) : List (List Lexeme) :=
  ((t.selected.selectLabelled declarationNames).nodes.filter (·.isLabelled sort)).map
    fun s => s.values.map Token.lexeme

theorem declared_eq {t : ParseTree Token} {ds : List Declaration} {sort : String}
    (h : List.Forall₂ Writes (t.selected.selectLabelled declarationNames).nodes ds) :
    declared sort t = (ds.filter (·.ruleName = sort)).map declarationLexemes := by
  unfold declared
  generalize (t.selected.selectLabelled declarationNames).nodes = nodes at h
  induction h with
  | nil => rfl
  | @cons s d nodes ds head tail ih =>
      have hsort : s.isLabelled sort = decide (d.ruleName = sort) := by
        rw [ParseTree.isLabelled, head.label]
        simp
      rw [List.filter_cons, List.filter_cons, hsort]
      split
      · rw [List.map_cons, List.map_cons, head.written, ih]
      · exact ih

theorem tokens_filter (ds : List Declaration) :
    tokens (ds.filter (·.ruleName = "lexer_decl")) = tokens ds := by
  induction ds with
  | nil => rfl
  | cons d ds ih =>
      cases d with
      | token name body => exact congrArg ((name, body) :: ·) ih
      | rule name alternatives => exact ih

theorem rules_filter (ds : List Declaration) :
    rules (ds.filter (·.ruleName = "parser_decl")) = rules ds := by
  induction ds with
  | nil => rfl
  | cons d ds ih =>
      cases d with
      | token name body => exact ih
      | rule name alternatives => exact congrArg ((name, alternatives) :: ·) ih

/-- A sort of sound declarations is known by its tokens. -/
theorem filter_eq_of_declared {t t' : ParseTree Token} {ds ds' : List Declaration} {sort : String}
    (h : List.Forall₂ Writes (t.selected.selectLabelled declarationNames).nodes ds)
    (h' : List.Forall₂ Writes (t'.selected.selectLabelled declarationNames).nodes ds')
    (hsound : ∀ d ∈ ds, d.Sound) (hsound' : ∀ d ∈ ds', d.Sound)
    (hsame : declared sort t = declared sort t') :
    ds.filter (·.ruleName = sort) = ds'.filter (·.ruleName = sort) := by
  rw [declared_eq h, declared_eq h'] at hsame
  refine eq_of_map_lexemes ?_ ?_ hsame
  · exact fun d hd => hsound d (List.mem_of_mem_filter hd)
  · exact fun d hd => hsound' d (List.mem_of_mem_filter hd)

/-- Loading sources whose declarations of each sort are the same, token by token, comes to the
same: the same failure or the same parser. It has no influence where blanks are, and where
declarations of the one sort stand among those of the other. -/
theorem load_of_same_declarations (src src' : String) (tree tree' : ParseTree Token)
    (h : parser.parse src = .done tree) (h' : parser.parse src' = .done tree')
    (htokens : declared "lexer_decl" tree = declared "lexer_decl" tree')
    (hrules : declared "parser_decl" tree = declared "parser_decl" tree') :
    (∃ f, load src = .failed f ∧ load src' = .failed f) ∨
      ∃ p, load src = .done p ∧ load src' = .done p := by
  obtain ⟨ds, -, hds, -, -, hsound⟩ := exists_parse h
  obtain ⟨ds', -, hds', -, -, hsound'⟩ := exists_parse h'
  have hfilter {sort : String} (hsort : declared sort tree = declared sort tree') :
      ds.filter (·.ruleName = sort) = ds'.filter (·.ruleName = sort) :=
    filter_eq_of_declared (writes_of_parse h hds) (writes_of_parse h' hds') hsound hsound' hsort
  have hsameTokens : tokens ds = tokens ds' := by
    rw [← tokens_filter ds, ← tokens_filter ds', hfilter htokens]
  have hsameRules : rules ds = rules ds' := by
    rw [← rules_filter ds, ← rules_filter ds', hfilter hrules]
  have hsame : load src = load src' := by
    rw [load_of_parse h hds, load_of_parse h' hds', Parser.ofDeclarations, Parser.ofDeclarations,
      hsameTokens, hsameRules]
  have hends : load src' ≠ .endless := by
    rw [load_eq_ofSource]
    exact Parser.ofSource_ne_endless src'
  rw [hsame]
  rcases Outcome.ne_endless_iff.mp hends with ⟨p, hp⟩ | ⟨f, hf⟩
  · exact .inr ⟨p, hp, hp⟩
  · exact .inl ⟨f, hf, hf⟩

private def tokenFirst : List Declaration :=
  [.token "x" "y", .rule "s" [[.name "x" none]]]

private def ruleFirst : List Declaration :=
  [.rule "s" [[.name "x" none]], .token "x" "y"]

private theorem ruleFirst_wellFormed : AllWellFormed ruleFirst where
  each := by
    have hletter : WellQuoted "y" :=
      .of_printAll [.atom (.plain ⟨'y', by decide⟩) none] rfl rfl
    have hname : Alternation.WellFormed [[.name "x" none]] := by
      refine ⟨by simp, by simp, ?_⟩
      simpa using .name rfl none
    rw [ruleFirst, List.forall_mem_cons, List.forall_mem_singleton]
    exact ⟨.rule rfl hname, .token rfl hletter⟩
  distinct := by decide
  has_rule := List.cons_ne_nil _ _

private theorem ruleFirst_layout :
    Layout none (ruleFirst.flatMap lexemes) "s->x;x=\"y\";".toList := by
  refine @Layout.cons none [] "s" _ _ rfl (by decide) ?_
  refine @Layout.cons _ [] "->" _ _ rfl (by decide) ?_
  refine @Layout.cons _ [] "x" _ _ rfl (by decide) ?_
  refine @Layout.cons _ [] ";" _ _ rfl (by decide) ?_
  refine @Layout.cons _ [] "x" _ _ rfl (by decide) ?_
  refine @Layout.cons _ [] "=" _ _ rfl (by decide) ?_
  refine @Layout.cons _ [] "\"y\"" _ _ rfl (by decide) ?_
  refine @Layout.cons _ [] ";" _ _ rfl (by decide) ?_
  exact @Layout.nil _ [] rfl

/-- The kind of token that the rule names may be declared before it or behind it. -/
theorem load_of_same_declarations_moved :
    ∃ tree tree', (parser.parse "s->x;x=\"y\";" = .done tree ∧
        parser.parse "x = \"y\" ; s -> x ;" = .done tree' ∧
        declared "lexer_decl" tree = declared "lexer_decl" tree' ∧
        declared "parser_decl" tree = declared "parser_decl" tree') ∧
      ∃ p, load "s->x;x=\"y\";" = .done p ∧ load "x = \"y\" ; s -> x ;" = .done p := by
  have hds : parse "s->x;x=\"y\";" = .done ruleFirst :=
    parse_of_layout ruleFirst_wellFormed.each ruleFirst_layout
  have hprint : print tokenFirst = "x = \"y\" ; s -> x ;" := rfl
  have hds' : parse "x = \"y\" ; s -> x ;" = .done tokenFirst := by
    have heach : ∀ d ∈ tokenFirst, d.WellFormed := fun d hd =>
      ruleFirst_wellFormed.each d ((List.Perm.swap _ _ []).mem_iff.mp hd)
    rw [← hprint]
    exact parse_print heach
  obtain ⟨tree, h⟩ := exists_tree_of_parse hds
  obtain ⟨tree', h'⟩ := exists_tree_of_parse hds'
  have hwrites := writes_of_parse h hds
  have hwrites' := writes_of_parse h' hds'
  have htokens : declared "lexer_decl" tree = declared "lexer_decl" tree' := by
    rw [declared_eq hwrites, declared_eq hwrites']
    rfl
  have hrules : declared "parser_decl" tree = declared "parser_decl" tree' := by
    rw [declared_eq hwrites, declared_eq hwrites']
    rfl
  refine ⟨tree, tree', ⟨h, h', htokens, hrules⟩, ?_⟩
  obtain ⟨p, hp, -⟩ := load_implements ruleFirst_wellFormed hds
  rcases load_of_same_declarations _ _ tree tree' h h' htokens hrules with ⟨f, hf, -⟩ | hdone
  · cases hf.symm.trans hp
  · exact hdone

end Peg.Declaration
