import Peg.Pattern.Queries
import Peg.Proofs.Declaration.Termination
import Peg.Proofs.Matching.Queries
import Peg.Proofs.Pattern.Soundness

/-!
Queries on parse trees of patterns always find what they ask for, and what is loaded in
this way is what the syntax trees denote. So a source fails to compile only if it cannot be
parsed.
-/

namespace Peg.Pattern

variable {o : Outline Token} {os parts : List (Outline Token)} {name : String}
  {r : Rule Char Char} {ps : List Pattern} {ts : List Token}

/-- A query for what can be loaded finds one node, and this is loaded as a certain rule. -/
def Denotes (o : Outline Token) (r : Rule Char Char) : Prop :=
  ∃ found, o.outermost loaderNames = [found] ∧
    ∀ t : ParseTree Token, t.Shows found → loadNode t = .ok r

theorem Denotes.loadRule_eq {t : ParseTree Token} (h : Denotes o r) (ht : t.Shows o) :
    loadRule t = .ok r := by
  obtain ⟨found, ho, hload⟩ := h
  obtain ⟨s, hs, hshows⟩ := ht.selectOne ho
  rw [Pattern.loadRule_eq, hs]
  exact hload s hshows

/-- A node that cannot be loaded itself stands for its only part. -/
theorem Denotes.within (h : Denotes o r) (hname : name ∉ loaderNames) :
    Denotes (.node name [o]) r := by
  obtain ⟨found, ho, hload⟩ := h
  refine ⟨found, ?_, hload⟩
  rw [Outline.outermost_of_not_mem hname, List.flatMap_singleton, ho]

theorem denotes_node (hname : name ∈ loaderNames)
    (h : ∀ t : ParseTree Token, t.Shows (.node name parts) → loadNode t = .ok r) :
    Denotes (.node name parts) r :=
  ⟨_, Outline.outermost_of_mem hname parts, h⟩

theorem loader?_eq {t : ParseTree Token} (h : t.Shows (.node name parts)) :
    loader? t = loaders.lookup name := by
  rw [loader?, h.label, Option.bind_some]

theorem denotes_tokens {load : ParseTree Token → Except Failure (Rule Char Char)}
    (hname : loaders.lookup name = some (.tokens load)) (hmem : name ∈ loaderNames)
    (h : ∀ t : ParseTree Token, t.Shows (.node name parts) → load t = .ok r) :
    Denotes (.node name parts) r := by
  refine denotes_node hmem ?_
  intro t ht
  rw [loadNode_tokens ((loader?_eq ht).trans hname)]
  exact h t ht

theorem denotes_operand (make : Rule Char Char → Rule Char Char) {operand : Outline Token}
    (hname : loaders.lookup name = some (.operand make)) (hmem : name ∈ loaderNames)
    (hoperand : (Outline.node name parts).outermost operandNames = [operand])
    (h : Denotes operand r) : Denotes (.node name parts) (make r) := by
  refine denotes_node hmem ?_
  intro t ht
  obtain ⟨s, hs, hshows⟩ := ht.selectOne hoperand
  rw [loadNode_operand ((loader?_eq ht).trans hname), hs]
  change (loadRule s).map make = _
  rw [h.loadRule_eq hshows]
  rfl

/-- Brackets and bars, and rules that are loaded as what they are read as. -/
def LoadsParts (os : List (Outline Token)) : Prop :=
  ∀ o ∈ os, (∃ token, o = .item token) ∨
    ∃ parts, o = .node "rule" parts ∧ ∀ p, ofOutline? none o = some p → Denotes o p.meaning

theorem denotes_of_ofOutlines? (h : LoadsParts os) (hread : ofOutlines? os = some ps) :
    List.Forall₂ (fun o p => Denotes o p.meaning) (os.flatMap (Outline.outermost ["rule"]))
      ps := by
  induction os generalizing ps with
  | nil =>
      cases hread
      exact .nil
  | cons o os ih =>
      obtain ⟨ho, hos⟩ := List.forall_mem_cons.mp h
      rw [List.flatMap_cons]
      rcases ho with ⟨token, rfl⟩ | ⟨parts, rfl, hrule⟩
      · exact ih hos hread
      · rw [ofOutlines?_node] at hread
        simp only [Option.bind_eq_bind, Option.bind_eq_some_iff, Option.pure_def,
          Option.some.injEq] at hread
        obtain ⟨p, hp, qs, hqs, rfl⟩ := hread
        exact .cons (hrule p hp) (ih hos hqs)

theorem loadRules_eq {t : ParseTree Token} (h : LoadsParts os)
    (hread : ofOutlines? os = some ps) (ht : t.Shows (.node name os)) :
    loadRules t = .ok (meanings ps) := by
  have hparts : List.Forall₂
      (fun o p => ∀ s : ParseTree Token, s.Shows o → loadRule s = pure (meaning p))
      (os.flatMap (Outline.outermost ["rule"])) ps := by
    refine (denotes_of_ofOutlines? h hread).imp ?_
    intro o p hdenotes s hs
    exact hdenotes.loadRule_eq hs
  rw [loadRules, ht.mapM_skip hparts, List.mapM_pure, meanings_eq_map]
  rfl

theorem denotes_parts {make : List (Rule Char Char) → Rule Char Char}
    (hname : loaders.lookup name = some (.parts make)) (hmem : name ∈ loaderNames)
    (h : LoadsParts os) (hread : ofOutlines? os = some ps) :
    Denotes (.node name os) (make (meanings ps)) := by
  refine denotes_node hmem ?_
  intro t ht
  rw [loadNode_parts ((loader?_eq ht).trans hname), loadRules_eq h hread ht]
  rfl

theorem loadsParts_item (token : Token) : LoadsParts [.item token] :=
  List.forall_mem_singleton.mpr (.inl ⟨token, rfl⟩)

theorem LoadsParts.append (h : LoadsParts os) (hparts : LoadsParts parts) :
    LoadsParts (os ++ parts) :=
  List.forall_mem_append.mpr ⟨h, hparts⟩

theorem value_of_plainChar? {token : Token} {c : PlainChar} (h : plainChar? token = some c) :
    token.value.toList = [c.val] := by
  unfold plainChar? at h
  split at h
  · rename_i d hvalue
    split at h
    · cases h
      exact hvalue
    · cases h
  · cases h

theorem loadLiteral_eq {token : Token} {c : PlainChar} (hc : plainChar? token = some c)
    {t : ParseTree Token} (ht : t.Shows (.node "literal" [.item token])) :
    loadLiteral t = .ok (.literal c.val) := by
  rw [loadLiteral, ht.singleToken]
  simp only [bind, Except.bind, value_of_plainChar? hc, List.head?_cons]
  rfl

theorem loadSpecial_eq {token : Token} {c : Char} (hc : token.value.toList[1]? = some c)
    {t : ParseTree Token} (ht : t.Shows (.node "special" [.item token])) :
    loadSpecial t = .ok (Atom.escaped c).meaning := by
  rw [loadSpecial, ht.singleToken]
  simp only [bind, Except.bind, hc, specialRule_eq_meaning]
  rfl

theorem loadClass_eq {t₁ t₂ t₃ lo hi : Token} {cLo cHi : PlainChar}
    (hLo : plainChar? lo = some cLo) (hHi : plainChar? hi = some cHi) {t : ParseTree Token}
    (ht : t.Shows (.node "class" [.item t₁, .node "literal" [.item lo], .item t₂,
      .node "literal" [.item hi], .item t₃])) :
    loadClass t = .ok (.range cLo.val cHi.val) := by
  have hfound := ht.selectLabelled ["literal"]
  have hbounds : (Outline.node "class" [.item t₁, .node "literal" [.item lo], .item t₂,
      .node "literal" [.item hi], .item t₃]).outermost ["literal"] =
        [.node "literal" [.item lo], .node "literal" [.item hi]] := rfl
  rw [hbounds] at hfound
  unfold loadClass
  generalize (t.selected.selectLabelled ["literal"]).nodes = nodes at hfound
  cases hfound with
  | cons hsLo tail =>
      cases tail with
      | cons hsHi tail =>
          cases tail
          simp only [loadLiteral_eq hLo hsLo, loadLiteral_eq hHi hsHi]
          rfl

/-- What the node of a named rule is loaded as, if it can be read. -/
def Loads (name : String) (_ : List Token) (os : List (Outline Token)) : Prop :=
  match name with
  | "root" => LoadsParts os
  | "operand" | "and" | "or" =>
      ∀ repetition p, ofOutline? repetition (.node name os) = some p →
        ∃ r, Denotes (.node name os) r ∧ p.meaning = r.repeated repetition
  | "unary_operand" =>
      ∀ a, Atom.ofOutline? (.node name os) = some a → Denotes (.node name os) a.meaning
  | "class" | "special" =>
      ∀ a, Atom.ofOutline? (.node "unary_operand" [.node name os]) = some a →
        Denotes (.node name os) a.meaning
  | "literal" => ∃ token, os = [.item token]
  | _ => ∀ p, ofOutline? none (.node name os) = some p → Denotes (.node name os) p.meaning

theorem loadsParts_star {r : Rule Token String}
    (hr : ∀ xs ps, r.Reads Loads xs ps → LoadsParts ps)
    (h : (Rule.star r).Reads Loads ts os) : LoadsParts os := by
  refine h.star_induction (P := fun _ os => LoadsParts os) (List.forall_mem_nil _) ?_
  intro xs ys ps qs hread ih
  exact (hr xs ps hread).append ih

theorem loadsParts_plus {r : Rule Token String}
    (hr : ∀ xs ps, r.Reads Loads xs ps → LoadsParts ps)
    (h : (Rule.plus r).Reads Loads ts os) : LoadsParts os := by
  obtain ⟨xs, ys, ps, qs, hhead, htail, rfl, rfl⟩ := Rule.reads_plus_iff.mp h
  exact (hr xs ps hhead).append (loadsParts_star hr htail)

theorem loadsParts_rule (h : (Rule.ref "rule").Reads Loads ts os) : LoadsParts os := by
  obtain ⟨parts, rfl, hparts⟩ := Rule.reads_ref_iff.mp h
  exact List.forall_mem_singleton.mpr (.inr ⟨parts, rfl, hparts⟩)

/-- A bar with the rule behind it. -/
theorem loadsParts_alternative (h : (Rule.seq [.literal "|", .ref "rule"]).Reads Loads ts os) :
    LoadsParts os := by
  obtain ⟨t, ys, qs, rfl, rfl, -, htail⟩ := Rule.reads_seq_literal_iff.mp h
  obtain ⟨xs, zs, ps, qs, hrule, hend, rfl, rfl⟩ := Rule.reads_seq_cons_iff.mp htail
  obtain ⟨rfl, rfl⟩ := Rule.reads_seq_nil_iff.mp hend
  rw [List.append_nil]
  exact (loadsParts_item t).append (loadsParts_rule hrule)

theorem loads_root (h : (Rule.untilEnd (.ref "rule")).Reads Loads ts os) :
    Loads "root" ts os :=
  loadsParts_star (fun _ _ => loadsParts_rule) (Rule.reads_untilEnd_iff.mp h)

theorem loads_rule (h : (Rule.alt [.ref "operation", .ref "operand"]).Reads Loads ts os) :
    Loads "rule" ts os := by
  obtain ⟨name, hname, parts, rfl, hparts⟩ :=
    (Rule.reads_alt_refs_iff ["operation", "operand"]).mp h
  simp only [List.mem_cons, List.not_mem_nil, or_false] at hname
  intro p hp
  rcases hname with rfl | rfl
  · exact (hparts p hp).within (by decide)
  · obtain ⟨r, hr, hmeaning⟩ := hparts none p hp
    rw [hmeaning]
    exact hr.within (by decide)

theorem loads_operation
    (h : (Rule.alt [.ref "zero_or_more", .ref "one_or_more", .ref "zero_or_one",
      .ref "until_empty", .ref "not"]).Reads Loads ts os) : Loads "operation" ts os := by
  obtain ⟨name, hname, parts, rfl, hparts⟩ := (Rule.reads_alt_refs_iff
    ["zero_or_more", "one_or_more", "zero_or_one", "until_empty", "not"]).mp h
  simp only [List.mem_cons, List.not_mem_nil, or_false] at hname
  intro p hp
  rcases hname with rfl | rfl | rfl | rfl | rfl <;>
    exact (hparts p hp).within (by decide)

theorem loads_marked (repetition : Repetition)
    (h : (Rule.seq [.ref "operand", .literal repetition.markKind]).Reads Loads ts os) :
    Loads repetition.ruleName ts os := by
  obtain ⟨xs, ys, parts, qs, rfl, rfl, hparts, htail⟩ := Rule.reads_seq_ref_iff.mp h
  obtain ⟨t, zs, qs, rfl, rfl, -, hend⟩ := Rule.reads_seq_literal_iff.mp htail
  obtain ⟨rfl, rfl⟩ := Rule.reads_seq_nil_iff.mp hend
  have hdenotes (p : Pattern)
      (hp : ofOutline? (some repetition) (.node "operand" parts) = some p) :
      Denotes (.node repetition.ruleName [.node "operand" parts, .item t]) p.meaning := by
    obtain ⟨r, hr, hmeaning⟩ := hparts (some repetition) p hp
    rw [hmeaning]
    cases repetition <;> exact denotes_operand _ rfl (by decide) rfl hr
  cases repetition <;> exact hdenotes

theorem loads_not
    (h : (Rule.seq [.literal "^", .ref "unary_operand"]).Reads Loads ts os) :
    Loads "not" ts os := by
  obtain ⟨t, ys, qs, rfl, rfl, -, htail⟩ := Rule.reads_seq_literal_iff.mp h
  obtain ⟨xs, zs, parts, qs, rfl, rfl, hparts, hend⟩ := Rule.reads_seq_ref_iff.mp htail
  obtain ⟨rfl, rfl⟩ := Rule.reads_seq_nil_iff.mp hend
  intro p hp
  obtain ⟨a, ha, rfl⟩ := Option.map_eq_some_iff.mp hp
  exact denotes_operand .except rfl (by decide) rfl (hparts a ha)

theorem loads_operand
    (h : (Rule.alt [.ref "and", .ref "or", .ref "unary_operand"]).Reads Loads ts os) :
    Loads "operand" ts os := by
  obtain ⟨name, hname, parts, rfl, hparts⟩ :=
    (Rule.reads_alt_refs_iff ["and", "or", "unary_operand"]).mp h
  simp only [List.mem_cons, List.not_mem_nil, or_false] at hname
  intro repetition p hp
  rcases hname with rfl | rfl | rfl
  · obtain ⟨r, hr, hmeaning⟩ := hparts repetition p hp
    exact ⟨r, hr.within (by decide), hmeaning⟩
  · obtain ⟨r, hr, hmeaning⟩ := hparts repetition p hp
    exact ⟨r, hr.within (by decide), hmeaning⟩
  · obtain ⟨a, ha, rfl⟩ := Option.map_eq_some_iff.mp hp
    exact ⟨a.meaning, (hparts a ha).within (by decide), rfl⟩

theorem loads_unary_operand
    (h : (Rule.alt [.ref "literal", .ref "class", .ref "special"]).Reads Loads ts os) :
    Loads "unary_operand" ts os := by
  obtain ⟨name, hname, parts, rfl, hparts⟩ :=
    (Rule.reads_alt_refs_iff ["literal", "class", "special"]).mp h
  simp only [List.mem_cons, List.not_mem_nil, or_false] at hname
  intro a ha
  rcases hname with rfl | rfl | rfl
  · obtain ⟨token, rfl⟩ := hparts
    obtain ⟨c, hc, rfl⟩ := Option.map_eq_some_iff.mp ha
    have hliteral : Denotes (.node "literal" [.item token]) (.literal c.val) :=
      denotes_tokens rfl (by decide) fun t ht => loadLiteral_eq hc ht
    exact hliteral.within (by decide)
  · exact (hparts a ha).within (by decide)
  · exact (hparts a ha).within (by decide)

theorem loads_special (h : (Rule.literal "special").Reads Loads ts os) :
    Loads "special" ts os := by
  obtain ⟨token, -, rfl, rfl⟩ := Rule.reads_literal_iff.mp h
  intro a ha
  obtain ⟨c, hc, rfl⟩ := Option.map_eq_some_iff.mp ha
  exact denotes_tokens rfl (by decide) fun t ht => loadSpecial_eq hc ht

theorem loads_class
    (h : (Rule.seq [.literal "[", .ref "literal", .literal "-", .ref "literal",
      .literal "]"]).Reads Loads ts os) : Loads "class" ts os := by
  obtain ⟨t₁, ys, qs, rfl, rfl, -, h⟩ := Rule.reads_seq_literal_iff.mp h
  obtain ⟨xs, ys, parts, qs, rfl, rfl, hlo, h⟩ := Rule.reads_seq_ref_iff.mp h
  obtain ⟨t₂, ys, qs, rfl, rfl, -, h⟩ := Rule.reads_seq_literal_iff.mp h
  obtain ⟨xs', ys, parts', qs, rfl, rfl, hhi, h⟩ := Rule.reads_seq_ref_iff.mp h
  obtain ⟨t₃, ys, qs, rfl, rfl, -, h⟩ := Rule.reads_seq_literal_iff.mp h
  obtain ⟨rfl, rfl⟩ := Rule.reads_seq_nil_iff.mp h
  obtain ⟨lo, rfl⟩ := hlo
  obtain ⟨hi, rfl⟩ := hhi
  intro a ha
  simp only [Atom.ofOutline?, Option.bind_eq_bind, Option.bind_eq_some_iff, Option.pure_def,
    Option.some.injEq] at ha
  obtain ⟨cLo, hLo, cHi, hHi, rfl⟩ := ha
  exact denotes_tokens rfl (by decide) fun t ht => loadClass_eq hLo hHi ht

theorem loads_and
    (h : (Rule.seq [.literal "(", .plus (.ref "rule"), .literal ")"]).Reads Loads ts os) :
    Loads "and" ts os := by
  obtain ⟨t₁, ys, qs, rfl, rfl, -, h⟩ := Rule.reads_seq_literal_iff.mp h
  obtain ⟨xs, ys, ps, qs, hplus, hclose, rfl, rfl⟩ := Rule.reads_seq_cons_iff.mp h
  obtain ⟨t₂, ys, qs, rfl, rfl, -, h⟩ := Rule.reads_seq_literal_iff.mp hclose
  obtain ⟨rfl, rfl⟩ := Rule.reads_seq_nil_iff.mp h
  have hrules : LoadsParts ps := loadsParts_plus (fun _ _ => loadsParts_rule) hplus
  have hparts : LoadsParts (.item t₁ :: (ps ++ [.item t₂])) :=
    (loadsParts_item t₁).append (hrules.append (loadsParts_item t₂))
  intro repetition p hp
  rw [ofOutline?] at hp
  split at hp
  · rename_i q qs hread
    cases hp
    exact ⟨_, denotes_parts rfl (by decide) hparts hread, rfl⟩
  · cases hp

theorem loads_or
    (h : (Rule.seq [.literal "(", .ref "rule", .plus (.seq [.literal "|", .ref "rule"]),
      .literal ")"]).Reads Loads ts os) : Loads "or" ts os := by
  obtain ⟨t₁, ys, qs, rfl, rfl, -, h⟩ := Rule.reads_seq_literal_iff.mp h
  obtain ⟨xs, ys, ps, qs, hfirst, hothers, rfl, rfl⟩ := Rule.reads_seq_cons_iff.mp h
  obtain ⟨xs', ys, ps', qs, hplus, hclose, rfl, rfl⟩ := Rule.reads_seq_cons_iff.mp hothers
  obtain ⟨t₂, ys, qs, rfl, rfl, -, h⟩ := Rule.reads_seq_literal_iff.mp hclose
  obtain ⟨rfl, rfl⟩ := Rule.reads_seq_nil_iff.mp h
  have hrules : LoadsParts ps' := loadsParts_plus (fun _ _ => loadsParts_alternative) hplus
  have hparts : LoadsParts (.item t₁ :: (ps ++ (ps' ++ [.item t₂]))) :=
    (loadsParts_item t₁).append
      ((loadsParts_rule hfirst).append (hrules.append (loadsParts_item t₂)))
  intro repetition p hp
  rw [ofOutline?] at hp
  split at hp
  · rename_i q q' qs hread
    cases hp
    exact ⟨_, denotes_parts rfl (by decide) hparts hread, rfl⟩
  · cases hp

/-- Every rule of the grammar is loaded as what it is read as. -/
theorem closed_loads : grammar.Closed Loads := by
  intro name r ts os hrule h
  have hmem : (name, r) ∈ grammarRules := grammar.rule?_eq_some_iff.mp hrule
  simp only [grammarRules, List.mem_cons, List.not_mem_nil, or_false, Prod.mk.injEq] at hmem
  rcases hmem with ⟨rfl, rfl⟩ | ⟨rfl, rfl⟩ | ⟨rfl, rfl⟩ | ⟨rfl, rfl⟩ | ⟨rfl, rfl⟩ |
    ⟨rfl, rfl⟩ | ⟨rfl, rfl⟩ | ⟨rfl, rfl⟩ | ⟨rfl, rfl⟩ | ⟨rfl, rfl⟩ | ⟨rfl, rfl⟩ |
    ⟨rfl, rfl⟩ | ⟨rfl, rfl⟩ | ⟨rfl, rfl⟩ | ⟨rfl, rfl⟩
  · exact loads_root h
  · exact loads_rule h
  · exact loads_operation h
  · exact loads_marked .star h
  · exact loads_marked .plus h
  · exact loads_marked .opt h
  · exact loads_marked .untilEnd h
  · exact loads_not h
  · exact loads_operand h
  · exact loads_unary_operand h
  · obtain ⟨token, -, -, hos⟩ := Rule.reads_literal_iff.mp h
    exact ⟨token, hos⟩
  · exact loads_special h
  · exact loads_class h
  · exact loads_and h
  · exact loads_or h

/-- What the queries load from a parse tree is what the tree is read as. -/
theorem loadTree_of_parse {src : String} {tree : ParseTree Token}
    (h : parser.parse src = .done tree) :
    ∃ ps, parse src = .done ps ∧ loadTree tree = .ok (sourceMeaning ps) := by
  obtain ⟨ts, os, hts, houtline, hparsed⟩ := Parser.parse_tells closed_parsed h
  obtain ⟨ts', os', -, houtline', hparts⟩ := Parser.parse_tells closed_loads h
  obtain rfl : os = os' := by
    simpa [houtline] using houtline'
  obtain ⟨ps, hread, -⟩ := hparsed (spelled_of_tokens hts).1
  have hshows : tree.Shows (.node "root" os) := .node (Parser.keeps_of_parse h).label houtline
  refine ⟨ps, ?_, ?_⟩
  · simp only [parse, h, Outcome.mapFailure, Outcome.bind_eq, Outcome.bind, houtline, hread]
  · rw [loadTree, loadRules_eq hparts hread hshows]
    rfl

/-- The parser that loading begins with can always be put together. -/
theorem loadParser_eq : loadParser = .done parser := by
  have hlexer : Lexer.ofKinds tokenKinds .unambiguous = .ok lexer :=
    Lexer.ofKinds_eq_ok lexer.distinct _ _
  have hgrammar : Grammar.ofRules "root" grammarRules = .ok grammar :=
    Grammar.ofRules_eq_ok grammar.distinct grammar.start_declared
  rw [loadParser, hlexer, hgrammar]
  rfl

theorem load_eq (src : String) :
    load src =
      ((parser.parse src).mapFailure fun f => malformed src [f]).bind fun tree =>
        .ofExcept (loadTree tree) := by
  rw [load, loadParser_eq]
  rfl

theorem load_of_parse {src : String} {tree : ParseTree Token}
    (h : parser.parse src = .done tree) :
    ∃ r, loadTree tree = .ok r ∧ load src = .done r ∧ compile src = .done r := by
  obtain ⟨ps, hparse, hload⟩ := loadTree_of_parse h
  refine ⟨sourceMeaning ps, hload, ?_, ?_⟩
  · simp only [load_eq, h, Outcome.mapFailure, Outcome.bind, hload, Outcome.ofExcept]
  · rw [compile, hparse, Outcome.map]

theorem load_eq_compile (src : String) : load src = compile src := by
  cases h : parser.parse src with
  | done tree =>
      obtain ⟨r, -, hload, hcompile⟩ := load_of_parse h
      rw [hload, hcompile]
  | failed e =>
      rw [load_eq, compile, parse, h]
      rfl
  | endless =>
      rw [load_eq, compile, parse, h]
      rfl

/-- A source denotes a rule just if it is printed from patterns with this meaning. -/
theorem load_eq_done_iff (src : String) (r : Rule Char Char) :
    load src = .done r ↔
      ∃ ps : List Pattern, String.ofList (printAll ps) = src ∧ sourceMeaning ps = r := by
  rw [load_eq_compile]
  exact compile_eq_done_iff src r

theorem parse_eq_failed_iff {src : String} {e : Failure} :
    parser.parse src = .failed e ↔
      lexer.tokens src = .failed e ∨
        ∃ ts, lexer.tokens src = .done ts ∧ parser.parseTokens ts = .failed e :=
  Outcome.bind_eq_failed_iff

theorem compile_eq_failed_iff {src : String} {f : Failure} :
    compile src = .failed f ↔
      ∃ e, parser.parse src = .failed e ∧ f = malformed src [e] := by
  rw [← load_eq_compile]
  cases h : parser.parse src with
  | done tree =>
      obtain ⟨r, -, hload, -⟩ := load_of_parse h
      simp [hload]
  | failed e => simp [load_eq, h, Outcome.mapFailure, Outcome.bind, eq_comm]
  | endless => simp [load_eq, h, Outcome.mapFailure, Outcome.bind]

/-- A source denotes a rule just if it is cut into tokens and these are parsed: whatever is
asked of the parse tree is there, at any depth. Else the failure says which source it is, and
what kept it from being parsed. -/
theorem load_fails_only_unparsed (src : String) :
    load src = compile src ∧ load src ≠ .endless ∧
      (∀ f, load src = .failed f ↔
        ∃ e, f = malformed src [e] ∧
          (lexer.tokens src = .failed e ∨
            ∃ ts, lexer.tokens src = .done ts ∧ parser.parseTokens ts = .failed e)) ∧
      ∀ tree, parser.parse src = .done tree →
        ∃ r, loadTree tree = .ok r ∧ load src = .done r := by
  refine ⟨load_eq_compile src, ?_, ?_, ?_⟩
  · rw [load_eq_compile]
    exact compile_ne_endless src
  · intro f
    rw [load_eq_compile, compile_eq_failed_iff]
    simp only [parse_eq_failed_iff, and_comm]
  · intro tree h
    obtain ⟨r, hload, hsource, -⟩ := load_of_parse h
    exact ⟨r, hload, hsource⟩

theorem load_fails_only_unparsed_nested :
    (∃ tree r, parser.parse "((a|b)\\w)*" = .done tree ∧ loadTree tree = .ok r ∧
        load "((a|b)\\w)*" = .done r) ∧
      ∃ e, lexer.tokens "a\\" = .failed e ∧ load "a\\" = .failed (malformed "a\\" [e]) := by
  have hread : parse "((a|b)\\w)*" = .done
      [.sequence (.choice (.atom (.plain ⟨'a', by decide⟩) none)
        (.atom (.plain ⟨'b', by decide⟩) none) [] none) [.atom (.escaped 'w') none]
        (some .star)] := parse_of_printAll rfl
  have htokens : ∃ e, lexer.tokens "a\\" = .failed e := ⟨_, rfl⟩
  simp only [parse, Outcome.bind_eq, Outcome.bind_eq_done_iff,
    Outcome.mapFailure_eq_done_iff] at hread
  obtain ⟨tree, htree, -⟩ := hread
  obtain ⟨e, he⟩ := htokens
  obtain ⟨r, hload, hsource⟩ := (load_fails_only_unparsed "((a|b)\\w)*").2.2.2 tree htree
  refine ⟨⟨tree, r, htree, hload, hsource⟩, e, he, ?_⟩
  exact ((load_fails_only_unparsed "a\\").2.2.1 _).mpr ⟨e, rfl, .inl he⟩

end Peg.Pattern
