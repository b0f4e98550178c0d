import Peg.Proofs.Lexing.Parsing
import Peg.Proofs.Matching.Lists
import Peg.Proofs.Matching.Marks
import Peg.Proofs.Pattern.Printing

/-!
Printed patterns are parsed back. The grammar of patterns decides by the token at hand:
an operand begins with a bracket or a character, a sequence and a choice differ by what
stands behind their first patterns, and a mark behind an operand is always taken. So in
front of anything but a mark, every pattern is matched whole and read as itself.
-/

namespace Peg.Pattern

theorem hasMarks : grammar.HasMarks "operand" := by
  intro repetition
  cases repetition <;> rfl

variable {input : Array Token} {xs ts rest : List Token}

theorem unary_operand_rule :
    grammar.rule? "unary_operand" =
      some (.alt [.ref "literal", .ref "class", .ref "special"]) := rfl

theorem operand_rule :
    grammar.rule? "operand" =
      some (.alt [.ref "and", .ref "or", .ref "unary_operand"]) := rfl

theorem operation_rule :
    grammar.rule? "operation" = some (.alt (Grammar.markedRules ++ [.ref "not"])) := rfl

theorem rule_rule :
    grammar.rule? "rule" = some (.alt [.ref "operation", .ref "operand"]) := rfl

/-- The kinds of token that an atom begins with. -/
def atomOpeners : List String :=
  ["literal", "[", "special"]

def operandOpeners : List String :=
  "(" :: atomOpeners

def ruleOpeners : List String :=
  "^" :: operandOpeners

theorem refuses_token {kind : String} (hts : ∀ t ∈ ts.head?, t.kind ≠ kind) :
    grammar.Refuses input (.literal kind) ts :=
  Grammar.refuses_literal hts

theorem refuses_other {kind : String} {t : Token} (ht : t.kind ≠ kind) (rest : List Token) :
    grammar.Refuses input (.literal kind) (t :: rest) := by
  apply refuses_token
  intro t' ht'
  obtain rfl : t = t' := by simpa using ht'
  exact ht

theorem refuses_unary_operand (hts : ∀ t ∈ ts.head?, t.kind ∉ atomOpeners) :
    grammar.Refuses input (.ref "unary_operand") ts := by
  have hkind (kind : String) (hkind : kind ∈ atomOpeners) :
      grammar.Refuses input (.literal kind) ts := by
    apply refuses_token
    rintro t ht rfl
    exact hts t ht hkind
  apply Grammar.refuses_ref unary_operand_rule
  apply Grammar.refuses_alt
  simp only [List.forall_mem_cons]
  refine ⟨?_, ?_, ?_, by simp⟩
  · exact Grammar.refuses_ref rfl (hkind "literal" (by decide))
  · exact Grammar.refuses_ref rfl (Grammar.refuses_seq_head (hkind "[" (by decide)))
  · exact Grammar.refuses_ref rfl (hkind "special" (by decide))

theorem refuses_operand (hts : ∀ t ∈ ts.head?, t.kind ∉ operandOpeners) :
    grammar.Refuses input (.ref "operand") ts := by
  have hopen : grammar.Refuses input (.literal "(") ts := by
    apply refuses_token
    rintro t ht hkind
    exact hts t ht (hkind ▸ List.mem_cons_self)
  apply Grammar.refuses_ref operand_rule
  apply Grammar.refuses_alt
  simp only [List.forall_mem_cons]
  refine ⟨?_, ?_, ?_, by simp⟩
  · exact Grammar.refuses_ref rfl (Grammar.refuses_seq_head hopen)
  · exact Grammar.refuses_ref rfl (Grammar.refuses_seq_head hopen)
  · exact refuses_unary_operand fun t ht hmem => hts t ht (List.mem_cons_of_mem _ hmem)

theorem refuses_not (hts : ∀ t ∈ ts.head?, t.kind ≠ "^") :
    grammar.Refuses input (.ref "not") ts :=
  Grammar.refuses_ref rfl (Grammar.refuses_seq_head (refuses_token hts))

theorem refuses_rule (hts : ∀ t ∈ ts.head?, t.kind ∉ ruleOpeners) :
    grammar.Refuses input (.ref "rule") ts := by
  have hoperand : grammar.Refuses input (.ref "operand") ts :=
    refuses_operand fun t ht hmem => hts t ht (List.mem_cons_of_mem _ hmem)
  have hnot : grammar.Refuses input (.ref "not") ts := by
    apply refuses_not
    rintro t ht hkind
    exact hts t ht (hkind ▸ List.mem_cons_self)
  apply Grammar.refuses_ref rule_rule
  apply Grammar.refuses_alt
  simp only [List.forall_mem_cons]
  refine ⟨?_, hoperand, by simp⟩
  apply Grammar.refuses_ref operation_rule
  apply Grammar.refuses_alt
  rw [List.forall_mem_append]
  exact ⟨hasMarks.refuses_of_refuses hoperand, by simpa using hnot⟩

theorem yields_token {kind : String} {t : Token} (ht : t.kind = kind) (rest : List Token) :
    grammar.Yields input (.literal kind) [t] rest [.item t] :=
  Grammar.yields_literal ht rest

theorem yields_literal_rule {t : Token} (ht : t.kind = "literal") (rest : List Token) :
    grammar.Yields input (.ref "literal") [t] rest [.node "literal" [.item t]] :=
  Grammar.yields_ref rfl (yields_token ht rest)

/-- Tokens that are matched as an atom, whatever comes behind them. -/
def AtomYields (input : Array Token) (xs : List Token) (a : Atom) : Prop :=
  ∃ os, Atom.ofOutline? (.node "unary_operand" os) = some a ∧ ∀ rest,
    grammar.Yields input (.ref "unary_operand") xs rest [.node "unary_operand" os]

theorem yields_plain {t : Token} {c : PlainChar} (ht : t.lexeme = ("literal", [c.val])) :
    AtomYields input [t] (.plain c) := by
  refine ⟨[.node "literal" [.item t]], ?_, ?_⟩
  · rw [Atom.ofOutline?, plainChar?_eq (congrArg Prod.snd ht)]
    rfl
  · intro rest
    apply Grammar.yields_ref unary_operand_rule
    exact Grammar.yields_alt_head (yields_literal_rule (congrArg Prod.fst ht) rest)

theorem yields_escaped {t : Token} {c : Char} (ht : t.lexeme = ("special", ['\\', c])) :
    AtomYields input [t] (.escaped c) := by
  have hkind : t.kind = "special" := congrArg Prod.fst ht
  have hvalue : t.value.toList = ['\\', c] := congrArg Prod.snd ht
  refine ⟨[.node "special" [.item t]], ?_, ?_⟩
  · rw [Atom.ofOutline?, hvalue]
    rfl
  · intro rest
    have hliteral : grammar.Refuses input (.ref "literal") (t :: rest) :=
      Grammar.refuses_ref rfl (refuses_other (by simp [hkind]) rest)
    have hclass : grammar.Refuses input (.ref "class") (t :: rest) :=
      Grammar.refuses_ref rfl (Grammar.refuses_seq_head (refuses_other (by simp [hkind]) rest))
    apply Grammar.yields_ref unary_operand_rule
    apply Grammar.yields_alt_tail hliteral
    apply Grammar.yields_alt_tail hclass
    exact Grammar.yields_alt_head (Grammar.yields_ref rfl (yields_token hkind rest))

theorem yields_class {t₁ t₂ t₃ t₄ t₅ : Token} {lo hi : PlainChar}
    (h₁ : t₁.lexeme = operatorLexeme '[') (h₂ : t₂.lexeme = ("literal", [lo.val]))
    (h₃ : t₃.lexeme = operatorLexeme '-') (h₄ : t₄.lexeme = ("literal", [hi.val]))
    (h₅ : t₅.lexeme = operatorLexeme ']') :
    AtomYields input [t₁, t₂, t₃, t₄, t₅] (.range lo hi) := by
  have hkind : t₁.kind = "[" := congrArg Prod.fst h₁
  refine ⟨[.node "class" [.item t₁, .node "literal" [.item t₂], .item t₃,
    .node "literal" [.item t₄], .item t₅]], ?_, ?_⟩
  · rw [Atom.ofOutline?, plainChar?_eq (congrArg Prod.snd h₂),
      plainChar?_eq (congrArg Prod.snd h₄)]
    rfl
  · intro rest
    have hclass : grammar.Yields input (.ref "class") [t₁, t₂, t₃, t₄, t₅] rest
        [.node "class" [.item t₁, .node "literal" [.item t₂], .item t₃,
          .node "literal" [.item t₄], .item t₅]] := by
      apply Grammar.yields_ref rfl
      apply Grammar.yields_seq_item (yields_token hkind _)
      apply Grammar.yields_seq_item (yields_literal_rule (congrArg Prod.fst h₂) _)
      apply Grammar.yields_seq_item (yields_token (congrArg Prod.fst h₃) _)
      apply Grammar.yields_seq_item (yields_literal_rule (congrArg Prod.fst h₄) _)
      apply Grammar.yields_seq_item (yields_token (congrArg Prod.fst h₅) _)
      exact Grammar.yields_seq_nil rest
    have hliteral : grammar.Refuses input (.ref "literal") ([t₁, t₂, t₃, t₄, t₅] ++ rest) :=
      Grammar.refuses_ref rfl (refuses_other (by simp [hkind]) _)
    apply Grammar.yields_ref unary_operand_rule
    exact Grammar.yields_alt_tail hliteral (Grammar.yields_alt_head hclass)

theorem yields_atom (a : Atom) (hxs : xs.map Token.lexeme = a.lexemes) :
    AtomYields input xs a := by
  cases a with
  | plain c =>
      obtain ⟨t, rfl, ht⟩ := List.map_eq_singleton_iff.mp hxs
      exact yields_plain ht
  | escaped c =>
      obtain ⟨t, rfl, ht⟩ := List.map_eq_singleton_iff.mp hxs
      exact yields_escaped ht
  | range lo hi =>
      simp only [Atom.lexemes, List.map_eq_cons_iff, List.map_eq_nil_iff] at hxs
      obtain ⟨t₁, -, rfl, h₁, t₂, -, rfl, h₂, t₃, -, rfl, h₃, t₄, -, rfl, h₄, t₅, -, rfl, h₅,
        rfl⟩ := hxs
      exact yields_class h₁ h₂ h₃ h₄ h₅

/-- Tokens that are matched in front of some others as an operand, which is read as a
pattern that still takes a mark. -/
structure OperandYields (input : Array Token) (xs rest : List Token)
    (make : Option Repetition → Pattern) (os : List (Outline Token)) : Prop where
  opens : ∀ t ∈ (xs ++ rest).head?, t.kind ∈ operandOpeners
  yields : grammar.Yields input (.ref "operand") xs rest [.node "operand" os]
  reads : ∀ repetition, ofOutline? repetition (.node "operand" os) = some (make repetition)

/-- Tokens that are matched in front of some others as one pattern. -/
def RuleYields (input : Array Token) (xs rest : List Token) (p : Pattern) : Prop :=
  ∃ os, grammar.Yields input (.ref "rule") xs rest [.node "rule" os] ∧
    ofOutline? none (.node "rule" os) = some p

theorem OperandYields.unmarked {make : Option Repetition → Pattern}
    {os : List (Outline Token)} (h : OperandYields input xs rest make os)
    (hrest : Unmarked rest) : RuleYields input xs rest (make none) := by
  have hnot : grammar.Refuses input (.ref "not") (xs ++ rest) := by
    apply refuses_not
    intro t ht hkind
    have hopens := h.opens t ht
    rw [hkind] at hopens
    exact absurd hopens (by decide)
  have hoperation : grammar.Refuses input (.ref "operation") (xs ++ rest) := by
    apply Grammar.refuses_ref operation_rule
    apply Grammar.refuses_alt
    rw [List.forall_mem_append]
    exact ⟨hasMarks.refuses_of_unmarked h.yields hrest, by simpa using hnot⟩
  refine ⟨[.node "operand" os], ?_, h.reads none⟩
  apply Grammar.yields_ref rule_rule
  exact Grammar.yields_alt_tail hoperation (Grammar.yields_alt_head h.yields)

theorem OperandYields.marked {make : Option Repetition → Pattern}
    {os : List (Outline Token)} {repetition : Repetition} {t : Token}
    (h : OperandYields input xs (t :: rest) make os) (ht : t.kind = repetition.markKind) :
    RuleYields input (xs ++ [t]) rest (make (some repetition)) := by
  have hoperation := Grammar.yields_ref operation_rule
    (hasMarks.yields ht h.yields [.ref "not"])
  refine ⟨_, Grammar.yields_ref rule_rule (Grammar.yields_alt_head hoperation), ?_⟩
  have hreads := h.reads (some repetition)
  cases repetition with
  | star => exact hreads
  | plus => exact hreads
  | opt => exact hreads
  | untilEnd => exact hreads

/-- An operand is one pattern together with the mark behind it, if there is one. -/
theorem OperandYields.rule {make : Option Repetition → Pattern} {os : List (Outline Token)}
    (h : OperandYields input xs (ts ++ rest) make os) {repetition : Option Repetition}
    (hts : ts.map Token.lexeme = markLexemes repetition) (hrest : Unmarked rest) :
    RuleYields input (xs ++ ts) rest (make repetition) := by
  cases repetition with
  | none =>
      obtain rfl : ts = [] := List.map_eq_nil_iff.mp hts
      rw [List.append_nil]
      exact h.unmarked hrest
  | some repetition =>
      obtain ⟨t, rfl, ht⟩ := List.map_eq_singleton_iff.mp hts
      exact h.marked (congrArg Prod.fst ht)

theorem Atom.opens (a : Atom) (hxs : xs.map Token.lexeme = a.lexemes) (rest : List Token) :
    ∀ t ∈ (xs ++ rest).head?, t.kind ∈ atomOpeners := by
  have hhead : ∃ w ws, a.lexemes = w :: ws ∧ w.1 ∈ atomOpeners := by
    cases a with
    | plain c => exact ⟨_, _, rfl, by simp [atomOpeners]⟩
    | escaped c => exact ⟨_, _, rfl, by simp [atomOpeners]⟩
    | range lo hi => exact ⟨_, _, rfl, by decide⟩
  obtain ⟨w, ws, hws, hw⟩ := hhead
  rw [hws] at hxs
  obtain ⟨t, ts, rfl, ht, -⟩ := List.map_eq_cons_iff.mp hxs
  intro t' ht'
  obtain rfl : t = t' := by simpa using ht'
  rw [← ht] at hw
  exact hw

theorem operandYields_atom (a : Atom) (hxs : xs.map Token.lexeme = a.lexemes)
    (rest : List Token) : ∃ os, OperandYields input xs rest (.atom a) os := by
  obtain ⟨os, hread, hyields⟩ := @yields_atom input xs a hxs
  refine ⟨[.node "unary_operand" os], ?_, ?_, ?_⟩
  · intro t ht
    exact List.mem_cons_of_mem _ (a.opens hxs rest t ht)
  · have hopen : grammar.Refuses input (.literal "(") (xs ++ rest) := by
      apply refuses_token
      intro t ht hkind
      have hopens := a.opens hxs rest t ht
      rw [hkind] at hopens
      exact absurd hopens (by decide)
    apply Grammar.yields_ref operand_rule
    apply Grammar.yields_alt_tail (Grammar.refuses_ref rfl (Grammar.refuses_seq_head hopen))
    apply Grammar.yields_alt_tail (Grammar.refuses_ref rfl (Grammar.refuses_seq_head hopen))
    exact Grammar.yields_alt_head (hyields rest)
  · intro repetition
    change (Atom.ofOutline? (.node "unary_operand" os)).map (Pattern.atom · repetition) = _
    rw [hread]
    rfl

/-- What is read as one pattern. -/
def ReadsOne (p : Pattern) (os : List (Outline Token)) : Prop :=
  ofOutlines? os = some [p]

theorem ofOutlines?_flatten {ps : List Pattern} {oss : List (List (Outline Token))}
    (h : List.Forall₂ ReadsOne ps oss) : ofOutlines? oss.flatten = some ps := by
  induction h with
  | nil => rfl
  | cons head tail ih => exact ofOutlines?_append head ih

/-- A rule for single patterns that are written in a certain way. -/
abbrev ItemYields (input : Array Token) (r : Rule Token String)
    (write : Pattern → List Lexeme) (p : Pattern) : Prop :=
  grammar.YieldsItem input r write Unmarked ReadsOne p

/-- Every pattern begins with a token that opens one. -/
theorem lexemes_head (p : Pattern) : ∃ w ws, p.lexemes = w :: ws ∧ w.1 ∈ ruleOpeners := by
  cases p with
  | atom a repetition =>
      cases a with
      | plain c => exact ⟨("literal", [c.val]), _, rfl, by simp [ruleOpeners, operandOpeners,
          atomOpeners]⟩
      | escaped c => exact ⟨("special", ['\\', c]), _, rfl, by simp [ruleOpeners,
          operandOpeners, atomOpeners]⟩
      | range lo hi => exact ⟨operatorLexeme '[', _, rfl, by decide⟩
  | sequence p ps repetition =>
      rw [lexemes]
      exact ⟨operatorLexeme '(', _, rfl, by decide⟩
  | choice p q qs repetition =>
      rw [lexemes]
      exact ⟨operatorLexeme '(', _, rfl, by decide⟩
  | except a =>
      rw [lexemes]
      exact ⟨operatorLexeme '^', _, rfl, by decide⟩

theorem opener_ne_markKind :
    ∀ kind ∈ ruleOpeners, ∀ repetition ∈ Repetition.all, kind ≠ repetition.markKind := by
  decide

theorem RuleYields.outlines {p : Pattern} (h : RuleYields input xs rest p) :
    ∃ os, grammar.Yields input (.ref "rule") xs rest os ∧ ReadsOne p os := by
  obtain ⟨os, hyields, hread⟩ := h
  refine ⟨_, hyields, ?_⟩
  rw [ReadsOne, ofOutlines?_node, hread]
  rfl

theorem itemYields_of_ruleYields {p : Pattern}
    (h : ∀ xs rest, xs.map Token.lexeme = p.lexemes → Unmarked rest →
      RuleYields input xs rest p) : ItemYields input (.ref "rule") lexemes p := by
  obtain ⟨w, ws, hlexemes, hw⟩ := p.lexemes_head
  refine ⟨?_, ?_, ?_⟩
  · simp [hlexemes]
  · intro xs rest hxs
    exact unmarked_of_lexemes (hxs.trans hlexemes) (opener_ne_markKind w.1 hw)
  · intro xs rest hxs hrest
    exact (h xs rest hxs hrest).outlines

/-- Tokens that begin with the one of an operator. -/
theorem head_operator {t : Token} {c : Char} (ht : t.lexeme = operatorLexeme c)
    (P : String → Prop) (hc : P (String.singleton c)) : ∀ t' ∈ (t :: ts).head?, P t'.kind := by
  intro t' ht'
  obtain rfl : t = t' := by simpa using ht'
  have hkind : t.kind = String.singleton c := congrArg Prod.fst ht
  rwa [hkind]

theorem unmarked_operator {t : Token} {c : Char} (ht : t.lexeme = operatorLexeme c)
    (hc : ∀ repetition ∈ Repetition.all, String.singleton c ≠ repetition.markKind) :
    Unmarked (t :: ts) := by
  intro t' ht' repetition
  have hkind : t'.kind = String.singleton c :=
    head_operator ht (· = String.singleton c) rfl t' ht'
  rw [hkind]
  exact hc repetition repetition.mem_all

theorem operandYields_sequence {t₁ t₂ : Token} {p : Pattern} {ps : List Pattern}
    (hopen : t₁.lexeme = operatorLexeme '(') (hclose : t₂.lexeme = operatorLexeme ')')
    (hp : ItemYields input (.ref "rule") lexemes p)
    (hps : ∀ q ∈ ps, ItemYields input (.ref "rule") lexemes q)
    (hxs : xs.map Token.lexeme = p.lexemes ++ ps.flatMap lexemes) (rest : List Token) :
    ∃ os, OperandYields input (t₁ :: (xs ++ [t₂])) rest (.sequence p ps) os := by
  have hunmarked : Unmarked (t₂ :: rest) := unmarked_operator hclose (by decide)
  have hstop : grammar.Refuses input (.ref "rule") (t₂ :: rest) :=
    refuses_rule (head_operator hclose (· ∉ ruleOpeners) (by decide))
  obtain ⟨oss, hreads, hyields⟩ := Grammar.yields_plus_list hp hps hxs hunmarked hstop
  have hand : grammar.Yields input (.ref "and") (t₁ :: (xs ++ [t₂])) rest
      [.node "and" (.item t₁ :: (oss.flatten ++ [.item t₂]))] := by
    apply Grammar.yields_ref rfl
    apply Grammar.yields_seq_item (yields_token (congrArg Prod.fst hopen) _)
    apply Grammar.yields_seq_cons hyields
    apply Grammar.yields_seq_item (yields_token (congrArg Prod.fst hclose) _)
    exact Grammar.yields_seq_nil rest
  refine ⟨[.node "and" (.item t₁ :: (oss.flatten ++ [.item t₂]))], ?_, ?_, ?_⟩
  · exact head_operator hopen (· ∈ operandOpeners) (by decide)
  · exact Grammar.yields_ref operand_rule (Grammar.yields_alt_head hand)
  · intro repetition
    have hparts : ofOutlines? (oss.flatten ++ [.item t₂]) = some (p :: ps ++ []) :=
      ofOutlines?_append (ofOutlines?_flatten hreads) rfl
    rw [ofOutline?, ofOutline?, ofOutlines?_item, hparts, List.append_nil]

def alternative (p : Pattern) : List Lexeme :=
  operatorLexeme '|' :: p.lexemes

theorem itemYields_alternative {p : Pattern} (hp : ItemYields input (.ref "rule") lexemes p) :
    ItemYields input (.seq [.literal "|", .ref "rule"]) alternative p := by
  refine ⟨List.cons_ne_nil _ _, ?_, ?_⟩
  · intro xs rest hxs
    exact unmarked_of_lexemes hxs (by decide)
  · intro xs rest hxs hrest
    obtain ⟨bar, xs, rfl, hbar, hxs⟩ := List.map_eq_cons_iff.mp hxs
    obtain ⟨os, hyields, hread⟩ := hp.yields xs rest hxs hrest
    refine ⟨.item bar :: os, ?_, hread⟩
    exact Grammar.yields_seq_item (yields_token (congrArg Prod.fst hbar) _)
      (Grammar.yields_seq_last hyields)

/-- A sequence takes the first pattern, finds the bar behind it, and is given up. -/
theorem refuses_and_of_bar {t bar : Token} {os : List (Outline Token)} (ht : t.kind = "(")
    (hbar : bar.lexeme = operatorLexeme '|')
    (h : grammar.Yields input (.ref "rule") xs (bar :: rest) os) :
    grammar.Refuses input (.ref "and") (t :: (xs ++ bar :: rest)) := by
  have hrules : grammar.Yields input (.plus (.ref "rule")) xs (bar :: rest) os := by
    have hnone : grammar.Refuses input (.ref "rule") (bar :: rest) :=
      refuses_rule (head_operator hbar (· ∉ ruleOpeners) (by decide))
    simpa using Grammar.yields_plus h (Grammar.yields_star_nil hnone)
  have hend : grammar.Refuses input (.seq [.literal ")"]) (bar :: rest) :=
    Grammar.refuses_seq_head (refuses_token (head_operator hbar (· ≠ ")") (by decide)))
  apply Grammar.refuses_ref rfl
  exact Grammar.refuses_seq_tail (yields_token ht _) (Grammar.refuses_seq_tail hrules hend)

theorem operandYields_choice {t₁ t₂ : Token} {p q : Pattern} {qs : List Pattern}
    (hopen : t₁.lexeme = operatorLexeme '(') (hclose : t₂.lexeme = operatorLexeme ')')
    (hp : ItemYields input (.ref "rule") lexemes p)
    (hq : ItemYields input (.ref "rule") lexemes q)
    (hqs : ∀ q' ∈ qs, ItemYields input (.ref "rule") lexemes q')
    (hxs : xs.map Token.lexeme = p.lexemes)
    (hts : ts.map Token.lexeme = alternative q ++ qs.flatMap alternative)
    (rest : List Token) :
    ∃ os, OperandYields input (t₁ :: (xs ++ (ts ++ [t₂]))) rest (.choice p q qs) os := by
  obtain ⟨bar, ts, rfl, hbar, -⟩ := List.map_eq_cons_iff.mp hts
  have hunmarkedBar : Unmarked (bar :: (ts ++ t₂ :: rest)) :=
    unmarked_operator hbar (by decide)
  have hunmarked : Unmarked (t₂ :: rest) := unmarked_operator hclose (by decide)
  have hstop : grammar.Refuses input (.seq [.literal "|", .ref "rule"]) (t₂ :: rest) :=
    Grammar.refuses_seq_head (refuses_token (head_operator hclose (· ≠ "|") (by decide)))
  obtain ⟨os, hyields, hread⟩ := hp.yields xs (bar :: (ts ++ t₂ :: rest)) hxs hunmarkedBar
  obtain ⟨oss, hreads, hyields'⟩ := Grammar.yields_plus_list (itemYields_alternative hq)
    (fun q' hq' => itemYields_alternative (hqs q' hq')) hts hunmarked hstop
  have hand := refuses_and_of_bar (congrArg Prod.fst hopen) hbar hyields
  have hor : grammar.Yields input (.ref "or") (t₁ :: (xs ++ (bar :: ts ++ [t₂]))) rest
      [.node "or" (.item t₁ :: (os ++ (oss.flatten ++ [.item t₂])))] := by
    apply Grammar.yields_ref rfl
    apply Grammar.yields_seq_item (yields_token (congrArg Prod.fst hopen) _)
    apply Grammar.yields_seq_cons (by simpa using hyields)
    apply Grammar.yields_seq_cons hyields'
    apply Grammar.yields_seq_item (yields_token (congrArg Prod.fst hclose) _)
    exact Grammar.yields_seq_nil rest
  refine ⟨[.node "or" (.item t₁ :: (os ++ (oss.flatten ++ [.item t₂])))], ?_, ?_, ?_⟩
  · exact head_operator hopen (· ∈ operandOpeners) (by decide)
  · apply Grammar.yields_ref operand_rule
    exact Grammar.yields_alt_tail (by simpa using hand) (Grammar.yields_alt_head hor)
  · intro repetition
    have hparts : ofOutlines? (os ++ (oss.flatten ++ [.item t₂])) = some ([p] ++ (q :: qs ++ [])) :=
      ofOutlines?_append hread (ofOutlines?_append (ofOutlines?_flatten hreads) rfl)
    rw [ofOutline?, ofOutline?, ofOutlines?_item, hparts, List.append_nil]
    rfl

theorem ruleYields_except {t : Token} (a : Atom) (ht : t.lexeme = operatorLexeme '^')
    (hxs : xs.map Token.lexeme = a.lexemes) (rest : List Token) :
    RuleYields input (t :: xs) rest (.except a) := by
  obtain ⟨os, hread, hyields⟩ := @yields_atom input xs a hxs
  have hoperand : grammar.Refuses input (.ref "operand") (t :: xs ++ rest) :=
    refuses_operand (head_operator ht (· ∉ operandOpeners) (by decide))
  have hnot : grammar.Yields input (.ref "not") (t :: xs) rest
      [.node "not" [.item t, .node "unary_operand" os]] := by
    apply Grammar.yields_ref rfl
    exact Grammar.yields_seq_item (yields_token (congrArg Prod.fst ht) _)
      (Grammar.yields_seq_last (hyields rest))
  have hoperation := Grammar.yields_ref operation_rule
    (Grammar.yields_alt (hasMarks.refuses_of_refuses hoperand) hnot)
  refine ⟨_, Grammar.yields_ref rule_rule (Grammar.yields_alt_head hoperation), ?_⟩
  change (Atom.ofOutline? (.node "unary_operand" os)).map Pattern.except = _
  rw [hread]
  rfl

/-- Every pattern is matched whole and read as itself, in front of anything but a mark. -/
theorem itemYields_rule (p : Pattern) : ItemYields input (.ref "rule") lexemes p := by
  induction p with
  | atom a repetition =>
      apply itemYields_of_ruleYields
      intro xs rest hxs hrest
      rw [lexemes] at hxs
      obtain ⟨ys, ts, rfl, hys, hts⟩ := List.map_eq_append_iff.mp hxs
      obtain ⟨os, hoperand⟩ := operandYields_atom a hys (ts ++ rest)
      exact hoperand.rule hts hrest
  | sequence p ps repetition ihp ihps =>
      apply itemYields_of_ruleYields
      intro xs rest hxs hrest
      rw [lexemes, allLexemes_eq_flatMap] at hxs
      obtain ⟨opened, closed, rfl, hopened, hclosed⟩ := List.map_eq_append_iff.mp hxs
      obtain ⟨t₁, body, rfl, hopen, hbody⟩ := List.map_eq_cons_iff.mp hopened
      obtain ⟨t₂, ts, rfl, hclose, hts⟩ := List.map_eq_cons_iff.mp hclosed
      obtain ⟨os, hoperand⟩ := operandYields_sequence hopen hclose ihp ihps hbody (ts ++ rest)
      simpa using hoperand.rule hts hrest
  | choice p q qs repetition ihp ihq ihqs =>
      apply itemYields_of_ruleYields
      intro xs rest hxs hrest
      rw [lexemes, alternativeLexemes_eq_flatMap] at hxs
      obtain ⟨opened, closed, rfl, hopened, hclosed⟩ := List.map_eq_append_iff.mp hxs
      obtain ⟨t₂, ts, rfl, hclose, hts⟩ := List.map_eq_cons_iff.mp hclosed
      rw [List.append_assoc] at hopened
      obtain ⟨first, others, rfl, hfirst, hothers⟩ := List.map_eq_append_iff.mp hopened
      obtain ⟨t₁, body, rfl, hopen, hbody⟩ := List.map_eq_cons_iff.mp hfirst
      obtain ⟨os, hoperand⟩ := operandYields_choice hopen hclose ihp ihq ihqs hbody hothers
        (ts ++ rest)
      simpa using hoperand.rule hts hrest
  | except a =>
      apply itemYields_of_ruleYields
      intro xs rest hxs hrest
      rw [lexemes] at hxs
      obtain ⟨caret, ys, rfl, hcaret, hys⟩ := List.map_eq_cons_iff.mp hxs
      exact ruleYields_except a hcaret hys rest

/-- What is printed is parsed back. -/
theorem parse_of_printAll {src : String} {ps : List Pattern} (h : printAll ps = src.toList) :
    parse src = .done ps := by
  obtain ⟨ts, hts, hlexemes⟩ :=
    tokens_of_spelled (spelled_allLexemes ps) ((chars_allLexemes ps).trans h)
  rw [allLexemes_eq_flatMap] at hlexemes
  have hend : grammar.Refuses ts.toArray (.ref "rule") [] := refuses_rule (by simp)
  obtain ⟨oss, hreads, hyields⟩ := Grammar.yields_star_list (fun p _ => itemYields_rule p)
    hlexemes (by simp [Unmarked]) hend
  have hread := ofOutlines?_flatten hreads
  obtain ⟨tree, htree, houtline⟩ :=
    Parser.parse_of_yields (p := parser) hts rfl (Grammar.yields_untilEnd hyields)
  simp [parse, htree, houtline, hread, Outcome.mapFailure, Outcome.bind]

theorem compile_of_printAll {src : String} {ps : List Pattern} (h : printAll ps = src.toList) :
    compile src = .done (sourceMeaning ps) := by
  rw [compile, parse_of_printAll h]
  rfl

end Peg.Pattern
