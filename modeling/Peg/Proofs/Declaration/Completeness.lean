import Peg.Proofs.Declaration.Layout
import Peg.Proofs.Lexing.Parsing
import Peg.Proofs.Matching.Lists
import Peg.Proofs.Matching.Marks

/-!
Laid out declarations are parsed back. Terms go on as long as a token opens one, and
sequences as long as there is a bar. What closes an alternation, a bracket or a semicolon,
can neither open a term nor mark one, so that every part is matched whole and read as
itself.
-/

namespace Peg.Declaration

theorem hasMarks : grammar.HasMarks "atom" := by
  intro repetition
  cases repetition <;> rfl

theorem term_rule :
    grammar.rule? "term" = some (.alt (Grammar.markedRules ++ [.ref "atom"])) := rfl

theorem atom_rule :
    grammar.rule? "atom" = some (.alt [.ref "group", .ref "ref", .ref "literal"]) := rfl

theorem decl_rule :
    grammar.rule? "decl" = some (.alt [.ref "lexer_decl", .ref "parser_decl"]) := rfl

variable {input : Array Token} {xs ts rest : List Token}

/-- The lexemes of a list of words. -/
def wordLexemes (ws : List String) : List Lexeme :=
  ws.map wordLexeme

theorem kind_of_word {t : Token} {w : String} (ht : t.lexeme = wordLexeme w) :
    t.kind = wordKind w :=
  congrArg Prod.fst ht

theorem value_of_word {t : Token} {w : String} (ht : t.lexeme = wordLexeme w) : t.value = w :=
  String.toList_inj.mp (congrArg Prod.snd ht)

theorem body?_of_word {t : Token} {body : String} (ht : t.lexeme = wordLexeme (quotation body)) :
    t.body? = some body := by
  rw [Token.body?, value_of_word ht, toList_quotation]
  simp

theorem wordKind_mark (repetition : Repetition) :
    wordKind (String.singleton repetition.mark) = repetition.markKind := by
  cases repetition <;> decide

theorem yields_word {t : Token} {w kind : String} (ht : t.lexeme = wordLexeme w)
    (hkind : wordKind w = kind) (rest : List Token) :
    grammar.Yields input (.literal kind) [t] rest [.item t] :=
  Grammar.yields_literal ((kind_of_word ht).trans hkind) rest

theorem refuses_word {t : Token} {w kind : String} (ht : t.lexeme = wordLexeme w)
    (hkind : wordKind w ≠ kind) (rest : List Token) :
    grammar.Refuses input (.literal kind) (t :: rest) := by
  apply Grammar.refuses_literal
  intro t' ht'
  obtain rfl : t = t' := by simpa using ht'
  exact (kind_of_word ht).trans_ne hkind

/-- The kinds of token that a term begins with. -/
def termOpeners : List String :=
  ["(", "id", "str"]

theorem refuses_atom (hts : ∀ t ∈ ts.head?, t.kind ∉ termOpeners) :
    grammar.Refuses input (.ref "atom") ts := by
  have hkind (kind : String) (hkind : kind ∈ termOpeners) :
      grammar.Refuses input (.literal kind) ts := by
    apply Grammar.refuses_literal
    rintro t ht rfl
    exact hts t ht hkind
  apply Grammar.refuses_ref atom_rule
  apply Grammar.refuses_alt
  simp only [List.forall_mem_cons]
  refine ⟨?_, ?_, ?_, by simp⟩
  · exact Grammar.refuses_ref rfl (Grammar.refuses_seq_head (hkind "(" (by decide)))
  · exact Grammar.refuses_ref rfl (hkind "id" (by decide))
  · exact Grammar.refuses_ref rfl (hkind "str" (by decide))

theorem refuses_term (hts : ∀ t ∈ ts.head?, t.kind ∉ termOpeners) :
    grammar.Refuses input (.ref "term") ts := by
  have hatom : grammar.Refuses input (.ref "atom") ts := refuses_atom hts
  apply Grammar.refuses_ref term_rule
  apply Grammar.refuses_alt
  rw [List.forall_mem_append]
  exact ⟨hasMarks.refuses_of_refuses hatom, by simpa using hatom⟩

/-- Tokens that are matched in front of some others as an atom, which is read as a term
that still takes a mark. -/
structure AtomYields (input : Array Token) (xs rest : List Token)
    (make : Option Repetition → Term) (os : List (Outline Token)) : Prop where
  yields : grammar.Yields input (.ref "atom") xs rest [.node "atom" os]
  reads : ∀ repetition, Term.ofOutline? repetition (.node "atom" os) = some (make repetition)

/-- Tokens that are matched in front of some others as one term. -/
def TermYields (input : Array Token) (xs rest : List Token) (t : Term) : Prop :=
  ∃ os, grammar.Yields input (.ref "term") xs rest [.node "term" os] ∧
    Term.ofOutline? none (.node "term" os) = some t

/-- An atom is one term together with the mark behind it, if there is one. -/
theorem AtomYields.term {make : Option Repetition → Term} {os : List (Outline Token)}
    (h : AtomYields input xs (ts ++ rest) make os) {repetition : Option Repetition}
    (hts : ts.map Token.lexeme = wordLexemes (markLexeme repetition)) (hrest : Unmarked rest) :
    TermYields input (xs ++ ts) rest (make repetition) := by
  cases repetition with
  | none =>
      obtain rfl : ts = [] := List.map_eq_nil_iff.mp hts
      rw [List.append_nil]
      refine ⟨[.node "atom" os], ?_, h.reads none⟩
      apply Grammar.yields_ref term_rule
      exact Grammar.yields_alt (hasMarks.refuses_of_unmarked h.yields hrest) h.yields
  | some repetition =>
      obtain ⟨t, rfl, ht⟩ := List.map_eq_singleton_iff.mp hts
      have hkind : t.kind = repetition.markKind := (kind_of_word ht).trans (wordKind_mark repetition)
      refine ⟨_, Grammar.yields_ref term_rule (hasMarks.yields hkind h.yields _), ?_⟩
      have hreads := h.reads (some repetition)
      cases repetition with
      | star => exact hreads
      | plus => exact hreads
      | opt => exact hreads
      | untilEnd => exact hreads

theorem atomYields_name {t : Token} {id : String} (hid : isIdentifier id = true)
    (ht : t.lexeme = wordLexeme id) (rest : List Token) :
    ∃ os, AtomYields input [t] rest (.name id) os := by
  have hkind := wordKind_of_isIdentifier hid
  refine ⟨[.node "ref" [.item t]], ?_, ?_⟩
  · have hgroup : grammar.Refuses input (.literal "(") (t :: rest) :=
      refuses_word ht (by simp [hkind]) rest
    apply Grammar.yields_ref atom_rule
    apply Grammar.yields_alt_tail (Grammar.refuses_ref rfl (Grammar.refuses_seq_head hgroup))
    exact Grammar.yields_alt_head (Grammar.yields_ref rfl (yields_word ht hkind rest))
  · intro repetition
    rw [Term.ofOutline?, Term.ofOutline?, value_of_word ht]

theorem atomYields_quoted {t : Token} {body : String}
    (ht : t.lexeme = wordLexeme (quotation body)) (rest : List Token) :
    ∃ os, AtomYields input [t] rest (.quoted body) os := by
  have hkind := wordKind_quotation body
  refine ⟨[.node "literal" [.item t]], ?_, ?_⟩
  · have hgroup : grammar.Refuses input (.literal "(") (t :: rest) :=
      refuses_word ht (by simp [hkind]) rest
    have hname : grammar.Refuses input (.literal "id") (t :: rest) :=
      refuses_word ht (by simp [hkind]) rest
    apply Grammar.yields_ref atom_rule
    apply Grammar.yields_alt_tail (Grammar.refuses_ref rfl (Grammar.refuses_seq_head hgroup))
    apply Grammar.yields_alt_tail (Grammar.refuses_ref rfl hname)
    exact Grammar.yields_alt_head (Grammar.yields_ref rfl (yields_word ht hkind rest))
  · intro repetition
    rw [Term.ofOutline?, Term.ofOutline?, body?_of_word ht]
    rfl

/-- What is read as one term. -/
def ReadsTerm (t : Term) (os : List (Outline Token)) : Prop :=
  ∃ parts, os = [.node "term" parts] ∧ Term.ofOutline? none (.node "term" parts) = some t

theorem ofOutlines?_terms {us : List Term} {oss : List (List (Outline Token))}
    (h : List.Forall₂ ReadsTerm us oss) : Term.ofOutlines? oss.flatten = some us := by
  induction h with
  | nil => rfl
  | cons head tail ih =>
      obtain ⟨parts, rfl, hread⟩ := head
      rw [List.flatten_cons, List.singleton_append, Term.ofOutlines?, hread, ih]
      rfl

def termLexemes (t : Term) : List Lexeme :=
  wordLexemes t.lexemes

theorem wordLexemes_allLexemes (us : List Term) :
    wordLexemes (Term.allLexemes us) = us.flatMap termLexemes := by
  rw [Term.allLexemes_eq_flatMap, wordLexemes, List.map_flatMap]
  rfl

abbrev TermItem (input : Array Token) (t : Term) : Prop :=
  grammar.YieldsItem input (.ref "term") termLexemes Unmarked ReadsTerm t

theorem opener_ne_markKind :
    ∀ kind ∈ termOpeners, ∀ repetition ∈ Repetition.all, kind ≠ repetition.markKind := by
  decide

/-- Tokens of which the first, if there is one, closes a part. -/
def Closes (closers : List String) (ts : List Token) : Prop :=
  ∀ t ∈ ts.head?, t.kind ∈ closers

def sequenceClosers : List String :=
  ["|", ";", ")"]

def alternationClosers : List String :=
  [";", ")"]

theorem Closes.unmarked (h : Closes sequenceClosers ts) : Unmarked ts := by
  have hclosers : ∀ kind ∈ sequenceClosers, ∀ repetition ∈ Repetition.all,
      kind ≠ repetition.markKind := by decide
  intro t ht repetition
  exact hclosers t.kind (h t ht) repetition repetition.mem_all

theorem Closes.refuses_term (h : Closes sequenceClosers ts) :
    grammar.Refuses input (.ref "term") ts := by
  have hclosers : ∀ kind ∈ sequenceClosers, kind ∉ termOpeners := by decide
  exact Declaration.refuses_term fun t ht => hclosers t.kind (h t ht)

theorem Closes.of_alternation (h : Closes alternationClosers ts) : Closes sequenceClosers ts :=
  fun t ht => List.mem_cons_of_mem _ (h t ht)

theorem Closes.refuses_bar (h : Closes alternationClosers ts) :
    grammar.Refuses input (.literal "|") ts := by
  apply Grammar.refuses_literal
  intro t ht hkind
  have hcloses : t.kind ∈ alternationClosers := h t ht
  rw [show t.kind = "|" from hkind] at hcloses
  exact absurd hcloses (by decide)

theorem closes_word {t : Token} {w : String} {closers : List String}
    (ht : t.lexeme = wordLexeme w) (hw : wordKind w ∈ closers) (rest : List Token) :
    Closes closers (t :: rest) := by
  intro t' ht'
  obtain rfl : t = t' := by simpa using ht'
  rw [kind_of_word ht]
  exact hw

/-- A sequence is matched up to what closes it. -/
theorem yields_sequence {us : List Term} (hne : us ≠ []) (hus : ∀ u ∈ us, TermItem input u)
    (hxs : xs.map Token.lexeme = wordLexemes (Term.allLexemes us))
    (hrest : Closes sequenceClosers rest) :
    ∃ parts, grammar.Yields input (.ref "sequence") xs rest [.node "sequence" parts] ∧
      Term.ofOutlines? parts = some us := by
  obtain ⟨u, us, rfl⟩ := List.exists_cons_of_ne_nil hne
  obtain ⟨hu, hus⟩ := List.forall_mem_cons.mp hus
  rw [wordLexemes_allLexemes, List.flatMap_cons] at hxs
  obtain ⟨oss, hreads, hyields⟩ :=
    Grammar.yields_plus_list hu hus hxs hrest.unmarked hrest.refuses_term
  exact ⟨oss.flatten, Grammar.yields_ref rfl hyields, ofOutlines?_terms hreads⟩

/-- What is read as one sequence. -/
def ReadsSequence (us : List Term) (os : List (Outline Token)) : Prop :=
  ∃ parts bar, os = [.item bar, .node "sequence" parts] ∧ Term.ofOutlines? parts = some us

theorem ofOutlines?_sequences {uss : List (List Term)} {oss : List (List (Outline Token))}
    (h : List.Forall₂ ReadsSequence uss oss) : Alternation.ofOutlines? oss.flatten = some uss := by
  induction h with
  | nil => rfl
  | cons head tail ih =>
      obtain ⟨parts, bar, rfl, hread⟩ := head
      rw [List.flatten_cons, List.cons_append, List.singleton_append, Alternation.ofOutlines?,
        Alternation.ofOutlines?, hread, ih]
      rfl

/-- A sequence behind a bar. -/
def barLexemes (us : List Term) : List Lexeme :=
  wordLexemes ("|" :: Term.allLexemes us)

theorem barItem {us : List Term} (hne : us ≠ []) (hus : ∀ u ∈ us, TermItem input u) :
    grammar.YieldsItem input (.seq [.literal "|", .ref "sequence"]) barLexemes
      (Closes sequenceClosers) ReadsSequence us := by
  refine ⟨List.cons_ne_nil _ _, ?_, ?_⟩
  · intro xs rest hxs
    obtain ⟨bar, xs, rfl, hbar, -⟩ := List.map_eq_cons_iff.mp hxs
    exact closes_word hbar (by decide) (xs ++ rest)
  · intro xs rest hxs hrest
    obtain ⟨bar, xs, rfl, hbar, hxs⟩ := List.map_eq_cons_iff.mp hxs
    obtain ⟨parts, hyields, hread⟩ := yields_sequence hne hus hxs hrest
    refine ⟨[.item bar, .node "sequence" parts], ?_, parts, bar, rfl, hread⟩
    exact Grammar.yields_seq_item (yields_word hbar (by decide) _)
      (Grammar.yields_seq_last hyields)

/-- An alternation is matched up to what closes it. -/
theorem yields_alternation {uss : Alternation} (hne : uss ≠ [])
    (hsequences : ∀ us ∈ uss, us ≠ []) (hterms : ∀ us ∈ uss, ∀ u ∈ us, TermItem input u)
    (hxs : xs.map Token.lexeme = wordLexemes uss.lexemes)
    (hrest : Closes alternationClosers rest) :
    ∃ parts, grammar.Yields input (.ref "alternation") xs rest [.node "alternation" parts] ∧
      Alternation.ofOutlines? parts = some uss := by
  obtain ⟨us, uss, rfl⟩ := List.exists_cons_of_ne_nil hne
  obtain ⟨hus, huss⟩ := List.forall_mem_cons.mp hterms
  obtain ⟨hfirst, hothers⟩ := List.forall_mem_cons.mp hsequences
  have hbars : ∀ vs ∈ uss, grammar.YieldsItem input (.seq [.literal "|", .ref "sequence"])
      barLexemes (Closes sequenceClosers) ReadsSequence vs :=
    fun vs hvs => barItem (hothers vs hvs) (huss vs hvs)
  rw [Alternation.lexemes_cons, wordLexemes, List.map_append, List.map_flatMap] at hxs
  obtain ⟨ys, zs, rfl, hys, hzs⟩ := List.map_eq_append_iff.mp hxs
  have hclose := hrest.of_alternation
  obtain ⟨parts, hyields, hread⟩ :=
    yields_sequence hfirst hus hys (Grammar.follow_flatMap hbars hzs hclose)
  obtain ⟨oss, hreads, hyields'⟩ := Grammar.yields_star_list hbars hzs hclose
    (Grammar.refuses_seq_head hrest.refuses_bar)
  refine ⟨.node "sequence" parts :: oss.flatten, ?_, ?_⟩
  · apply Grammar.yields_ref rfl
    exact Grammar.yields_seq_cons hyields (Grammar.yields_seq_last hyields')
  · rw [Alternation.ofOutlines?, hread, ofOutlines?_sequences hreads]
    rfl

theorem atomYields_group {t₁ t₂ : Token} {uss : List (List Term)} (hne : uss ≠ [])
    (hsequences : ∀ us ∈ uss, us ≠ []) (hterms : ∀ us ∈ uss, ∀ u ∈ us, TermItem input u)
    (hopen : t₁.lexeme = wordLexeme "(") (hclose : t₂.lexeme = wordLexeme ")")
    (hxs : xs.map Token.lexeme = wordLexemes (Alternation.lexemes uss)) (rest : List Token) :
    ∃ os, AtomYields input (t₁ :: (xs ++ [t₂])) rest (.group uss) os := by
  obtain ⟨parts, hyields, hread⟩ := yields_alternation hne hsequences hterms hxs
    (closes_word hclose (by decide) rest)
  refine ⟨[.node "group" [.item t₁, .node "alternation" parts, .item t₂]], ?_, ?_⟩
  · have hgroup : grammar.Yields input (.ref "group") (t₁ :: (xs ++ [t₂])) rest
        [.node "group" [.item t₁, .node "alternation" parts, .item t₂]] := by
      have hbracket : grammar.Yields input (.literal ")") [t₂] rest [.item t₂] :=
        yields_word hclose (by decide) rest
      apply Grammar.yields_ref rfl
      apply Grammar.yields_seq_item (yields_word hopen (by decide) _)
      exact Grammar.yields_seq_cons hyields (Grammar.yields_seq_last hbracket)
    exact Grammar.yields_ref atom_rule (Grammar.yields_alt_head hgroup)
  · intro repetition
    rw [Term.ofOutline?, Term.ofOutline?, hread]
    rfl

theorem termItem_of_termYields {t : Term} {w : String} {ws : List String}
    (hlexemes : t.lexemes = w :: ws) (hw : wordKind w ∈ termOpeners)
    (h : ∀ xs rest, xs.map Token.lexeme = termLexemes t → Unmarked rest →
      TermYields input xs rest t) : TermItem input t := by
  refine ⟨by simp [termLexemes, hlexemes, wordLexemes], ?_, ?_⟩
  · intro xs rest hxs
    rw [termLexemes, hlexemes] at hxs
    exact unmarked_of_lexemes hxs (opener_ne_markKind _ hw)
  · intro xs rest hxs hrest
    obtain ⟨os, hyields, hread⟩ := h xs rest hxs hrest
    exact ⟨_, hyields, os, rfl, hread⟩

/-- Every term is matched whole and read as itself, in front of anything but a mark. -/
theorem termItem {t : Term} (h : t.Sound) : TermItem input t := by
  induction h with
  | @name id hid repetition =>
      refine termItem_of_termYields rfl (by rw [wordKind_of_isIdentifier hid]; decide) ?_
      intro xs rest hxs hrest
      obtain ⟨t, ts, rfl, ht, hts⟩ := List.map_eq_cons_iff.mp hxs
      obtain ⟨os, hatom⟩ := atomYields_name hid ht (ts ++ rest)
      exact hatom.term hts hrest
  | @quoted body hbody repetition =>
      refine termItem_of_termYields rfl (by rw [wordKind_quotation]; decide) ?_
      intro xs rest hxs hrest
      obtain ⟨t, ts, rfl, ht, hts⟩ := List.map_eq_cons_iff.mp hxs
      obtain ⟨os, hatom⟩ := atomYields_quoted ht (ts ++ rest)
      exact hatom.term hts hrest
  | @group uss nonempty sequences terms repetition ih =>
      have hlexemes : (Term.group uss repetition).lexemes =
          "(" :: (Alternation.lexemes uss ++ ")" :: markLexeme repetition) := by
        rw [Term.lexemes, List.cons_append]
      refine termItem_of_termYields hlexemes (by decide) ?_
      intro xs rest hxs hrest
      rw [termLexemes, Term.lexemes, wordLexemes, List.map_append] at hxs
      obtain ⟨opened, closed, rfl, hopened, hclosed⟩ := List.map_eq_append_iff.mp hxs
      obtain ⟨t₁, body, rfl, hopen, hbody⟩ := List.map_eq_cons_iff.mp hopened
      obtain ⟨t₂, ts, rfl, hclose, hts⟩ := List.map_eq_cons_iff.mp hclosed
      obtain ⟨os, hatom⟩ := atomYields_group nonempty sequences ih hopen hclose hbody (ts ++ rest)
      simpa using hatom.term hts hrest

/-- What is read as one declaration. -/
def ReadsDeclaration (d : Declaration) (os : List (Outline Token)) : Prop :=
  ∃ parts, os = [.node "decl" parts] ∧ ofOutline? (.node "decl" parts) = some d

theorem mapM_ofOutline? {ds : List Declaration} {oss : List (List (Outline Token))}
    (h : List.Forall₂ ReadsDeclaration ds oss) : oss.flatten.mapM ofOutline? = some ds := by
  induction h with
  | nil => rfl
  | cons head tail ih =>
      obtain ⟨parts, rfl, hread⟩ := head
      rw [List.flatten_cons, List.singleton_append, List.mapM_cons, hread, ih]
      rfl

theorem yields_token {name body : String} (hname : isIdentifier name = true)
    (hxs : xs.map Token.lexeme = wordLexemes [name, "=", quotation body, ";"])
    (rest : List Token) :
    ∃ os, grammar.Yields input (.ref "decl") xs rest os ∧
      ReadsDeclaration (.token name body) os := by
  simp only [wordLexemes, List.map_cons, List.map_nil, List.map_eq_cons_iff,
    List.map_eq_nil_iff] at hxs
  obtain ⟨t₁, -, rfl, h₁, t₂, -, rfl, h₂, t₃, -, rfl, h₃, t₄, -, rfl, h₄, rfl⟩ := hxs
  have hid : wordKind name = "id" := wordKind_of_isIdentifier hname
  have hstr : wordKind (quotation body) = "str" := wordKind_quotation body
  have hend : grammar.Yields input (.literal ";") [t₄] rest [.item t₄] :=
    yields_word h₄ (by decide) rest
  have hdeclaration : grammar.Yields input (.ref "lexer_decl") [t₁, t₂, t₃, t₄] rest
      [.node "lexer_decl" [.item t₁, .item t₂, .item t₃, .item t₄]] := by
    apply Grammar.yields_ref rfl
    apply Grammar.yields_seq_item (yields_word h₁ hid _)
    apply Grammar.yields_seq_item (yields_word h₂ (by decide) _)
    apply Grammar.yields_seq_item (yields_word h₃ hstr _)
    exact Grammar.yields_seq_last hend
  refine ⟨_, Grammar.yields_ref decl_rule (Grammar.yields_alt_head hdeclaration), _, rfl, ?_⟩
  rw [ofOutline?, body?_of_word h₃, value_of_word h₁]
  rfl

/-- The arrow tells a rule from a kind of token. -/
theorem yields_rule {name : String} {uss : Alternation} (hname : isIdentifier name = true)
    (huss : uss.Sound)
    (hxs : xs.map Token.lexeme = wordLexemes (name :: "->" :: uss.lexemes ++ [";"]))
    (rest : List Token) :
    ∃ os, grammar.Yields input (.ref "decl") xs rest os ∧
      ReadsDeclaration (.rule name uss) os := by
  rw [wordLexemes, List.map_append] at hxs
  obtain ⟨front, last, rfl, hfront, hlast⟩ := List.map_eq_append_iff.mp hxs
  obtain ⟨t₁, front, rfl, h₁, hfront⟩ := List.map_eq_cons_iff.mp hfront
  obtain ⟨t₂, body, rfl, h₂, hbody⟩ := List.map_eq_cons_iff.mp hfront
  obtain ⟨t₃, rfl, h₃⟩ := List.map_eq_singleton_iff.mp hlast
  have hid : wordKind name = "id" := wordKind_of_isIdentifier hname
  have hclose : Closes alternationClosers (t₃ :: rest) := closes_word h₃ (by decide) rest
  have hend : grammar.Yields input (.literal ";") [t₃] rest [.item t₃] :=
    yields_word h₃ (by decide) rest
  obtain ⟨parts, hyields, hread⟩ := yields_alternation huss.nonempty huss.sequences
    (fun us hus u hu => termItem (huss.terms us hus u hu)) hbody hclose
  have htoken : grammar.Refuses input (.ref "lexer_decl") (t₁ :: t₂ :: (body ++ t₃ :: rest)) := by
    have hequals : grammar.Refuses input (.literal "=") (t₂ :: (body ++ t₃ :: rest)) :=
      refuses_word h₂ (by decide) _
    apply Grammar.refuses_ref rfl
    exact Grammar.refuses_seq_tail (yields_word h₁ hid _) (Grammar.refuses_seq_head hequals)
  have hdeclaration : grammar.Yields input (.ref "parser_decl") (t₁ :: t₂ :: (body ++ [t₃])) rest
      [.node "parser_decl" [.item t₁, .item t₂, .node "alternation" parts, .item t₃]] := by
    apply Grammar.yields_ref rfl
    apply Grammar.yields_seq_item (yields_word h₁ hid _)
    apply Grammar.yields_seq_item (yields_word h₂ (by decide) _)
    exact Grammar.yields_seq_cons hyields (Grammar.yields_seq_last hend)
  have hdecl := Grammar.yields_ref decl_rule (Grammar.yields_alt_tail (by simpa using htoken)
    (Grammar.yields_alt_head hdeclaration))
  refine ⟨_, hdecl, _, rfl, ?_⟩
  rw [ofOutline?, hread, value_of_word h₁]
  rfl

def declarationLexemes (d : Declaration) : List Lexeme :=
  wordLexemes d.lexemes

theorem declarationItem {d : Declaration} (h : d.Sound) :
    grammar.YieldsItem input (.ref "decl") declarationLexemes (fun _ => True) ReadsDeclaration d := by
  cases h with
  | token hname hbody =>
      refine ⟨List.cons_ne_nil _ _, fun _ _ _ => trivial, ?_⟩
      intro xs rest hxs _
      exact yields_token hname hxs rest
  | rule hname huss =>
      refine ⟨List.cons_ne_nil _ _, fun _ _ _ => trivial, ?_⟩
      intro xs rest hxs _
      exact yields_rule hname huss hxs rest

theorem refuses_decl_nil : grammar.Refuses input (.ref "decl") [] := by
  have hid : grammar.Refuses input (.literal "id") [] := Grammar.refuses_literal (by simp)
  apply Grammar.refuses_ref decl_rule
  apply Grammar.refuses_alt
  simp only [List.forall_mem_cons]
  refine ⟨?_, ?_, by simp⟩
  · exact Grammar.refuses_ref rfl (Grammar.refuses_seq_head hid)
  · exact Grammar.refuses_ref rfl (Grammar.refuses_seq_head hid)

/-- Well-formed declarations are parsed back from every layout of their words. -/
theorem parse_of_layout {ds : List Declaration} (hds : ∀ d ∈ ds, d.WellFormed) {text : String}
    (h : Layout none (ds.flatMap lexemes) text.toList) : parse text = .done ds := by
  have hwords : ∀ w ∈ ds.flatMap lexemes, IsWord w := by
    intro w hw
    obtain ⟨d, hd, hw⟩ := List.mem_flatMap.mp hw
    exact isWord_declaration (hds d hd).sound w hw
  obtain ⟨ts, hts, hlexemes⟩ := tokens_of_layout h hwords
  rw [List.map_flatMap] at hlexemes
  obtain ⟨oss, hreads, hyields⟩ := Grammar.yields_star_list
    (fun d hd => declarationItem (hds d hd).sound) hlexemes trivial refuses_decl_nil
  obtain ⟨tree, htree, houtline⟩ :=
    Parser.parse_of_yields (p := parser) hts rfl (Grammar.yields_untilEnd hyields)
  simp [parse, htree, houtline, mapM_ofOutline? hreads, Outcome.mapFailure, Outcome.bind]

theorem layout_intercalate {previous : Option String} {gap : List Char}
    (hgap : gap.all isBlank = true) (hapart : previous = none ∨ gap ≠ []) (ws : List String) :
    Layout previous ws (gap ++ (" ".intercalate ws).toList) := by
  induction ws generalizing previous gap with
  | nil =>
      rw [String.intercalate_nil, String.toList_empty, List.append_nil]
      exact .nil previous hgap
  | cons w ws ih =>
      have apart : ∀ v ∈ previous, isIdentifier v = true → isIdentifier w = true → gap ≠ [] := by
        intro v hv _ _
        rcases hapart with rfl | hgap
        · cases hv
        · exact hgap
      cases ws with
      | nil =>
          have h := Layout.cons hgap apart (.nil (some w) List.all_nil)
          rwa [List.append_nil] at h
      | cons u us =>
          have hblank : [' '].all isBlank = true := rfl
          have htail : Layout (some w) (u :: us) (' ' :: (" ".intercalate (u :: us)).toList) :=
            ih hblank (.inr (List.cons_ne_nil _ _))
          simpa using Layout.cons hgap apart htail

/-- To put a blank between any two words is one way to lay them out. -/
theorem parse_print {ds : List Declaration} (hds : ∀ d ∈ ds, d.WellFormed) :
    parse (print ds) = .done ds :=
  parse_of_layout hds (layout_intercalate List.all_nil (.inl rfl) _)

end Peg.Declaration
