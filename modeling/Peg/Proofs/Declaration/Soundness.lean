import Peg.Proofs.Declaration.Completeness
import Peg.Proofs.Declaration.Words

/-!
Reading a parse tree of declarations undoes writing. Whatever the grammar of declarations
matches is read as syntax trees, which are written with the words that were matched, and
which are well-formed but for quoted bodies that are no patterns. Every rule of the grammar
passes this on from the rules that it names.
-/

namespace Peg

namespace Declaration

/-- Texts that are patterns. -/
def AllCompile (bodies : List String) : Prop :=
  ∀ body ∈ bodies, ∃ r, Pattern.compile body = .done r

/-- The bodies of the quoted patterns in a declaration, from left to right. -/
def quotedBodies : Declaration → List String
  | .token _ body => [body]
  | .rule _ alternatives => alternatives.quotedBodies

end Declaration

open Declaration

/-- What stands between quotes is all right if it is a pattern. -/
theorem Term.Sound.wellFormed {u : Term} (h : u.Sound) (hbodies : AllCompile u.quotedBodies) :
    u.WellFormed := by
  induction h with
  | name hid repetition => exact .name hid repetition
  | quoted hbody repetition =>
      have hcompiles := hbodies _ (List.mem_singleton_self _)
      exact .quoted ⟨hcompiles, hbody.quotesEscaped rfl⟩ repetition
  | group nonempty sequences terms repetition ih =>
      refine .group nonempty sequences (fun us hus u hu => ih us hus u hu ?_) repetition
      exact fun body hbody => hbodies body (mem_quotedBodies_iff.mpr ⟨us, hus, u, hu, hbody⟩)

theorem Alternation.Sound.wellFormed {alternatives : Alternation} (h : alternatives.Sound)
    (hbodies : AllCompile alternatives.quotedBodies) : alternatives.WellFormed where
  nonempty := h.nonempty
  sequences := h.sequences
  terms us hus u hu := by
    refine (h.terms us hus u hu).wellFormed fun body hbody => ?_
    exact hbodies body (mem_quotedBodies_iff.mpr ⟨us, hus, u, hu, hbody⟩)

theorem Declaration.Sound.wellFormed {d : Declaration} (h : d.Sound)
    (hbodies : AllCompile d.quotedBodies) : d.WellFormed := by
  cases h with
  | token hname hbody =>
      have hcompiles := hbodies _ (List.mem_singleton_self _)
      exact .token hname ⟨hcompiles, hbody.quotesEscaped rfl⟩
  | rule hname halternatives => exact .rule hname (halternatives.wellFormed hbodies)

/-- A sequence of sound terms, which is not empty. -/
structure Term.AllSound (us : List Term) : Prop where
  nonempty : us ≠ []
  terms : ∀ u ∈ us, u.Sound

theorem Alternation.sound_of_sequences {alternatives : Alternation} (h : alternatives ≠ [])
    (hsequences : ∀ us ∈ alternatives, Term.AllSound us) : alternatives.Sound where
  nonempty := h
  sequences us hus := (hsequences us hus).nonempty
  terms us hus := (hsequences us hus).terms

namespace Declaration

/-- The words of some tokens. -/
def words (ts : List Token) : List String :=
  ts.map Token.value

theorem words_append (ts us : List Token) : words (ts ++ us) = words ts ++ words us :=
  List.map_append

/-- What the outline of a term is read as, and how that is written. -/
structure TermRead (repetition : Option Repetition) (o : Outline Token) (ws : List String)
    (u : Term) : Prop where
  reads : Term.ofOutline? repetition o = some u
  written : u.lexemes = ws ++ markLexeme repetition
  sound : u.Sound

/-- What the parts of the node of a named rule are read as, and how that is written. -/
def Parsed (name : String) (ts : List Token) (os : List (Outline Token)) : Prop :=
  match name with
  | "root" => ∃ ds, os.mapM ofOutline? = some ds ∧ ds.flatMap lexemes = words ts ∧
      ∀ d ∈ ds, d.Sound
  | "decl" => ∃ d, ofOutline? (.node "decl" os) = some d ∧ d.lexemes = words ts ∧ d.Sound
  | "lexer_decl" | "parser_decl" =>
      ∃ d, ofOutline? (.node "decl" [.node name os]) = some d ∧ d.lexemes = words ts ∧ d.Sound
  | "alternation" => ∃ uss : Alternation, Alternation.ofOutlines? os = some uss ∧
      uss.lexemes = words ts ∧ uss.Sound
  | "sequence" => ∃ us, Term.ofOutlines? os = some us ∧ Term.allLexemes us = words ts ∧
      Term.AllSound us
  | "atom" | "group" | "ref" | "literal" =>
      ∀ repetition, ∃ u, TermRead repetition (.node name os) (words ts) u
  | _ => ∃ u, TermRead none (.node name os) (words ts) u

section Rules

variable {ts : List Token} {os : List (Outline Token)}

theorem Legible.lexeme_eq {t : Token} (h : Legible t) : t.lexeme = wordLexeme t.value := by
  rw [Token.lexeme, wordLexeme, h.kind_eq]

/-- Tokens of some kinds are always the same word. -/
theorem Legible.value_eq {t : Token} (h : Legible t) {kind : String} (hkind : t.kind = kind)
    (hfixed : kind ∈ fixedKinds) : t.value = kind := by
  have hword : wordKind t.value = kind := h.kind_eq.symm.trans hkind
  rw [← hword] at hfixed
  exact (h.word.eq_wordKind hfixed).trans hword

theorem Legible.isIdentifier {t : Token} (h : Legible t) (hkind : t.kind = "id") :
    isIdentifier t.value = true :=
  h.word.isIdentifier (h.kind_eq.symm.trans hkind)

theorem Legible.exists_body {t : Token} (h : Legible t) (hkind : t.kind = "str") :
    ∃ body, t.value = quotation body ∧ t.body? = some body ∧
      Quotable body.toList := by
  obtain ⟨body, hvalue, hquotable⟩ := h.word.exists_body (h.kind_eq.symm.trans hkind)
  exact ⟨body, hvalue, body?_of_word (hvalue ▸ h.lexeme_eq), hquotable⟩

theorem parsed_terms (h : (Rule.star (.ref "term")).Reads Parsed ts os) :
    ∃ us, Term.ofOutlines? os = some us ∧ Term.allLexemes us = words ts ∧
      ∀ u ∈ us, u.Sound := by
  refine h.star_induction
    (P := fun ts os => ∃ us, Term.ofOutlines? os = some us ∧ Term.allLexemes us = words ts ∧
      ∀ u ∈ us, u.Sound) ⟨[], rfl, rfl, by simp⟩ ?_
  rintro xs ys ps qs hread ⟨us, hus, hwritten, hsound⟩
  obtain ⟨parts, rfl, u, hu⟩ := Rule.reads_ref_iff.mp hread
  refine ⟨u :: us, ?_, ?_, List.forall_mem_cons.mpr ⟨hu.sound, hsound⟩⟩
  · rw [List.singleton_append, Term.ofOutlines?, hu.reads, hus]
    rfl
  · have hterm : u.lexemes = words xs := hu.written.trans (List.append_nil _)
    rw [Term.allLexemes, hterm, hwritten, words_append]

theorem parsed_sequence (h : (Rule.plus (.ref "term")).Reads Parsed ts os) :
    Parsed "sequence" ts os := by
  obtain ⟨xs, ys, ps, qs, hhead, htail, rfl, rfl⟩ := Rule.reads_plus_iff.mp h
  obtain ⟨us, hus, hwritten, hsound⟩ := parsed_terms (.starCons hhead htail)
  refine ⟨us, hus, hwritten, ?_, hsound⟩
  rintro rfl
  obtain ⟨parts, rfl, -⟩ := Rule.reads_ref_iff.mp hhead
  rw [List.singleton_append, Term.ofOutlines?] at hus
  simp [Option.bind_eq_some_iff] at hus

theorem parsed_bars (hts : ∀ t ∈ ts, Legible t)
    (h : (Rule.star (.seq [.literal "|", .ref "sequence"])).Reads Parsed ts os) :
    ∃ uss, Alternation.ofOutlines? os = some uss ∧
      (uss.flatMap fun us => "|" :: Term.allLexemes us) = words ts ∧
      ∀ us ∈ uss, Term.AllSound us := by
  revert hts
  refine h.star_induction
    (P := fun ts os => (∀ t ∈ ts, Legible t) →
      ∃ uss, Alternation.ofOutlines? os = some uss ∧
        (uss.flatMap fun us => "|" :: Term.allLexemes us) = words ts ∧
        ∀ us ∈ uss, Term.AllSound us) (fun _ => ⟨[], rfl, rfl, by simp⟩) ?_
  intro xs ys ps qs hread ih hts
  obtain ⟨hxs, hys⟩ := List.forall_mem_append.mp hts
  obtain ⟨uss, huss, hwritten, hsound⟩ := ih hys
  obtain ⟨bar, zs, os, rfl, rfl, hbar, hrest⟩ := Rule.reads_seq_literal_iff.mp hread
  obtain ⟨zs, ws, parts, os, rfl, rfl, ⟨us, hus, hterms, hall⟩, hend⟩ :=
    Rule.reads_seq_ref_iff.mp hrest
  obtain ⟨rfl, rfl⟩ := Rule.reads_seq_nil_iff.mp hend
  have hword : bar.value = "|" := (hxs bar List.mem_cons_self).value_eq hbar (by decide)
  refine ⟨us :: uss, ?_, ?_, List.forall_mem_cons.mpr ⟨hall, hsound⟩⟩
  · simp only [List.cons_append, List.nil_append, Alternation.ofOutlines?, hus, huss]
    rfl
  · simp [hwritten, hterms, words, hword]

theorem parsed_alternation (hts : ∀ t ∈ ts, Legible t)
    (h : (Rule.seq [.ref "sequence", .star (.seq [.literal "|", .ref "sequence"])]).Reads Parsed
      ts os) : Parsed "alternation" ts os := by
  obtain ⟨xs, ys, parts, qs, rfl, rfl, ⟨us, hus, hfirst, hall⟩, hrest⟩ :=
    Rule.reads_seq_ref_iff.mp h
  obtain ⟨ys, zs, ps, qs, hbars, hend, rfl, rfl⟩ := Rule.reads_seq_cons_iff.mp hrest
  obtain ⟨rfl, rfl⟩ := Rule.reads_seq_nil_iff.mp hend
  rw [List.append_nil] at hts ⊢
  obtain ⟨uss, huss, hothers, hsound⟩ := parsed_bars (List.forall_mem_append.mp hts).2 hbars
  refine ⟨us :: uss, ?_, ?_, Alternation.sound_of_sequences (List.cons_ne_nil us uss)
    (List.forall_mem_cons.mpr ⟨hall, hsound⟩)⟩
  · rw [List.append_nil, Alternation.ofOutlines?, hus, huss]
    rfl
  · rw [Alternation.lexemes_cons, hfirst, hothers, words_append]

theorem parsed_term
    (h : (Rule.alt [.ref "zero_or_more", .ref "one_or_more", .ref "zero_or_one",
      .ref "until_empty", .ref "atom"]).Reads Parsed ts os) : Parsed "term" ts os := by
  obtain ⟨name, hname, parts, rfl, hparts⟩ := (Rule.reads_alt_refs_iff
    ["zero_or_more", "one_or_more", "zero_or_one", "until_empty", "atom"]).mp h
  have hread : ∃ u, TermRead none (.node name parts) (words ts) u := by
    simp only [List.mem_cons, List.not_mem_nil, or_false] at hname
    rcases hname with rfl | rfl | rfl | rfl | rfl
    · exact hparts
    · exact hparts
    · exact hparts
    · exact hparts
    · exact hparts none
  obtain ⟨u, hu⟩ := hread
  exact ⟨u, hu.reads, hu.written, hu.sound⟩

theorem parsed_marked (repetition : Repetition) (hts : ∀ t ∈ ts, Legible t)
    (h : (Rule.seq [.ref "atom", .literal repetition.markKind]).Reads Parsed ts os) :
    Parsed repetition.ruleName ts os := by
  obtain ⟨xs, ys, parts, qs, rfl, rfl, hparts, hrest⟩ := Rule.reads_seq_ref_iff.mp h
  obtain ⟨mark, zs, qs, rfl, rfl, hmark, hend⟩ := Rule.reads_seq_literal_iff.mp hrest
  obtain ⟨rfl, rfl⟩ := Rule.reads_seq_nil_iff.mp hend
  obtain ⟨u, hu⟩ := hparts (some repetition)
  have hfixed : repetition.markKind ∈ fixedKinds := by
    cases repetition <;> decide
  have hword : mark.value = repetition.markKind :=
    (hts mark (by simp)).value_eq hmark hfixed
  have hwritten : u.lexemes = words (xs ++ [mark]) ++ markLexeme none := by
    rw [hu.written, words_append, words, words, List.map_singleton, hword]
    exact (List.append_nil _).symm
  have hterm : ∃ u, TermRead none (.node repetition.ruleName [.node "atom" parts, .item mark])
      (words (xs ++ [mark])) u := by
    refine ⟨u, ?_, hwritten, hu.sound⟩
    have hreads := hu.reads
    cases repetition <;> exact hreads
  cases repetition <;> exact hterm

theorem parsed_atom
    (h : (Rule.alt [.ref "group", .ref "ref", .ref "literal"]).Reads Parsed ts os) :
    Parsed "atom" ts os := by
  obtain ⟨name, hname, parts, rfl, hparts⟩ :=
    (Rule.reads_alt_refs_iff ["group", "ref", "literal"]).mp h
  simp only [List.mem_cons, List.not_mem_nil, or_false] at hname
  intro repetition
  rcases hname with rfl | rfl | rfl <;>
    obtain ⟨u, hu⟩ := hparts repetition <;>
    exact ⟨u, hu.reads, hu.written, hu.sound⟩

theorem parsed_group (hts : ∀ t ∈ ts, Legible t)
    (h : (Rule.seq [.literal "(", .ref "alternation", .literal ")"]).Reads Parsed ts os) :
    Parsed "group" ts os := by
  obtain ⟨bra, ys, qs, rfl, rfl, hbra, hrest⟩ := Rule.reads_seq_literal_iff.mp h
  obtain ⟨xs, ys, parts, qs, rfl, rfl, ⟨uss, huss, hwritten, hsound⟩, hrest⟩ :=
    Rule.reads_seq_ref_iff.mp hrest
  obtain ⟨ket, zs, qs, rfl, rfl, hket, hend⟩ := Rule.reads_seq_literal_iff.mp hrest
  obtain ⟨rfl, rfl⟩ := Rule.reads_seq_nil_iff.mp hend
  have hopen : bra.value = "(" := (hts bra (by simp)).value_eq hbra (by decide)
  have hclose : ket.value = ")" := (hts ket (by simp)).value_eq hket (by decide)
  intro repetition
  refine ⟨.group uss repetition, ?_, ?_,
    .group hsound.nonempty hsound.sequences hsound.terms repetition⟩
  · rw [Term.ofOutline?, huss]
    rfl
  · simp [Term.lexemes, hwritten, words, hopen, hclose]

theorem parsed_ref (hts : ∀ t ∈ ts, Legible t)
    (h : (Rule.literal "id").Reads Parsed ts os) : Parsed "ref" ts os := by
  obtain ⟨t, hkind, rfl, rfl⟩ := Rule.reads_literal_iff.mp h
  intro repetition
  refine ⟨.name t.value repetition, rfl, rfl, ?_⟩
  exact .name ((hts t (by simp)).isIdentifier hkind) repetition

theorem parsed_literal (hts : ∀ t ∈ ts, Legible t)
    (h : (Rule.literal "str").Reads Parsed ts os) : Parsed "literal" ts os := by
  obtain ⟨t, hkind, rfl, rfl⟩ := Rule.reads_literal_iff.mp h
  obtain ⟨body, hvalue, hbody, hquotable⟩ := (hts t (by simp)).exists_body hkind
  intro repetition
  refine ⟨.quoted body repetition, ?_, ?_, .quoted hquotable repetition⟩
  · rw [Term.ofOutline?, hbody]
    rfl
  · simp [Term.lexemes, words, hvalue]

theorem parsed_lexer_decl (hts : ∀ t ∈ ts, Legible t)
    (h : (Rule.seq [.literal "id", .literal "=", .literal "str", .literal ";"]).Reads Parsed
      ts os) : Parsed "lexer_decl" ts os := by
  obtain ⟨name, ys, qs, rfl, rfl, hname, hrest⟩ := Rule.reads_seq_literal_iff.mp h
  obtain ⟨sign, ys, qs, rfl, rfl, hsign, hrest⟩ := Rule.reads_seq_literal_iff.mp hrest
  obtain ⟨quoted, ys, qs, rfl, rfl, hquoted, hrest⟩ := Rule.reads_seq_literal_iff.mp hrest
  obtain ⟨stop, ys, qs, rfl, rfl, hstop, hend⟩ := Rule.reads_seq_literal_iff.mp hrest
  obtain ⟨rfl, rfl⟩ := Rule.reads_seq_nil_iff.mp hend
  simp only [List.forall_mem_cons] at hts
  obtain ⟨htName, htSign, htQuoted, htStop, -⟩ := hts
  obtain ⟨body, hvalue, hbody, hquotable⟩ := htQuoted.exists_body hquoted
  have hequals : sign.value = "=" := htSign.value_eq hsign (by decide)
  have hsemicolon : stop.value = ";" := htStop.value_eq hstop (by decide)
  refine ⟨.token name.value body, ?_, ?_, .token (htName.isIdentifier hname) hquotable⟩
  · rw [ofOutline?, hbody]
    rfl
  · simp [lexemes, words, hequals, hvalue, hsemicolon]

theorem parsed_parser_decl (hts : ∀ t ∈ ts, Legible t)
    (h : (Rule.seq [.literal "id", .literal "->", .ref "alternation", .literal ";"]).Reads Parsed
      ts os) : Parsed "parser_decl" ts os := by
  obtain ⟨name, ys, qs, rfl, rfl, hname, hrest⟩ := Rule.reads_seq_literal_iff.mp h
  obtain ⟨sign, ys, qs, rfl, rfl, hsign, hrest⟩ := Rule.reads_seq_literal_iff.mp hrest
  obtain ⟨xs, ys, parts, qs, rfl, rfl, ⟨uss, huss, hwritten, hsound⟩, hrest⟩ :=
    Rule.reads_seq_ref_iff.mp hrest
  obtain ⟨stop, ys, qs, rfl, rfl, hstop, hend⟩ := Rule.reads_seq_literal_iff.mp hrest
  obtain ⟨rfl, rfl⟩ := Rule.reads_seq_nil_iff.mp hend
  have harrow : sign.value = "->" := (hts sign (by simp)).value_eq hsign (by decide)
  have hsemicolon : stop.value = ";" := (hts stop (by simp)).value_eq hstop (by decide)
  refine ⟨.rule name.value uss, ?_, ?_, .rule ((hts name (by simp)).isIdentifier hname) hsound⟩
  · rw [ofOutline?, huss]
    rfl
  · simp [lexemes, words, hwritten, harrow, hsemicolon]

theorem parsed_decl
    (h : (Rule.alt [.ref "lexer_decl", .ref "parser_decl"]).Reads Parsed ts os) :
    Parsed "decl" ts os := by
  obtain ⟨name, hname, parts, rfl, hparts⟩ :=
    (Rule.reads_alt_refs_iff ["lexer_decl", "parser_decl"]).mp h
  simp only [List.mem_cons, List.not_mem_nil, or_false] at hname
  rcases hname with rfl | rfl <;> exact hparts

theorem parsed_root (h : (Rule.untilEnd (.ref "decl")).Reads Parsed ts os) :
    Parsed "root" ts os := by
  refine (Rule.reads_untilEnd_iff.mp h).star_induction
    (P := fun ts os => ∃ ds, os.mapM ofOutline? = some ds ∧ ds.flatMap lexemes = words ts ∧
      ∀ d ∈ ds, d.Sound) ⟨[], rfl, rfl, by simp⟩ ?_
  rintro xs ys ps qs hread ⟨ds, hds, hwritten, hsound⟩
  obtain ⟨parts, rfl, d, hd, hlexemes, hdSound⟩ := Rule.reads_ref_iff.mp hread
  refine ⟨d :: ds, ?_, ?_, List.forall_mem_cons.mpr ⟨hdSound, hsound⟩⟩
  · rw [List.singleton_append, List.mapM_cons, hd, hds]
    rfl
  · rw [List.flatMap_cons, hlexemes, hwritten, words_append]

end Rules

/-- Every rule of the grammar is read, and undoes writing. -/
theorem closed_parsed :
    grammar.Closed fun name ts os => (∀ t ∈ ts, Legible t) → Parsed name ts os := by
  refine Grammar.closed_given ?_
  intro name r ts os hrule hts h
  have hmem : (name, r) ∈ grammarRules := grammar.rule?_eq_some_iff.mp hrule
  simp only [grammarRules, List.mem_cons, List.not_mem_nil, or_false, Prod.mk.injEq] at hmem
  rcases hmem with ⟨rfl, rfl⟩ | ⟨rfl, rfl⟩ | ⟨rfl, rfl⟩ | ⟨rfl, rfl⟩ | ⟨rfl, rfl⟩ |
    ⟨rfl, rfl⟩ | ⟨rfl, rfl⟩ | ⟨rfl, rfl⟩ | ⟨rfl, rfl⟩ | ⟨rfl, rfl⟩ | ⟨rfl, rfl⟩ |
    ⟨rfl, rfl⟩ | ⟨rfl, rfl⟩ | ⟨rfl, rfl⟩ | ⟨rfl, rfl⟩
  · exact parsed_root h
  · exact parsed_decl h
  · exact parsed_lexer_decl hts h
  · exact parsed_parser_decl hts h
  · exact parsed_alternation hts h
  · exact parsed_sequence h
  · exact parsed_term h
  · exact parsed_marked .star hts h
  · exact parsed_marked .plus hts h
  · exact parsed_marked .opt hts h
  · exact parsed_marked .untilEnd hts h
  · exact parsed_atom h
  · exact parsed_group hts h
  · exact parsed_ref hts h
  · exact parsed_literal hts h

/-- The declarations of a source are written with the words that it has been cut into, and
nothing can be wrong with them but what stands between quotes. -/
theorem exists_parse {src : String} {tree : ParseTree Token}
    (h : parser.parse src = .done tree) :
    ∃ ds ts, parse src = .done ds ∧ lexer.tokens src = .done ts ∧
      ds.flatMap lexemes = words ts ∧ ∀ d ∈ ds, d.Sound := by
  obtain ⟨ts, os, hts, houtline, hparsed⟩ := Parser.parse_tells closed_parsed h
  obtain ⟨ds, hds, hwritten, hsound⟩ := hparsed (legible_of_tokens hts)
  refine ⟨ds, ts, ?_, hts, hwritten, hsound⟩
  simp only [parse, h, Outcome.mapFailure, Outcome.bind_eq, Outcome.bind, houtline, hds]

end Declaration

end Peg
