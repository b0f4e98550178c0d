import Peg.Declaration.Queries
import Peg.Proofs.Declaration.Soundness
import Peg.Proofs.Matching.Queries
import Peg.Proofs.Pattern.Queries

/-!
Queries on parse trees of declarations always find what they ask for. What is collected on
the way are the quoted patterns in the order in which the syntax trees mention them, so that
loading a source is reading its declarations and compiling these.
-/

namespace Peg.Declaration

/-- A computation that comes to a value, and that collects some quoted patterns from left to
right, unless one of them fails to compile. -/
def Collects {β : Type} (m : Collect β) (bodies : List String) (v : β) : Prop :=
  ∀ found, m found = (compileQuoted found bodies).map fun found => (v, found)

namespace Collects

variable {β γ δ : Type} {m : Collect β} {next : β → Collect γ} {bodies others : List String}
  {v : β} {w : γ}

theorem pure (v : β) : Collects (pure v) [] v :=
  fun _ => rfl

theorem bind (h : Collects m bodies v) (hnext : Collects (next v) others w) :
    Collects (m >>= next) (bodies ++ others) w := by
  intro found
  have hrun : (m >>= next) found = (m found).bind fun r => next r.1 r.2 := rfl
  rw [hrun, h found, compileQuoted_append]
  cases compileQuoted found bodies with
  | done found => exact hnext found
  | failed f => rfl
  | endless => rfl

theorem map (h : Collects m bodies v) (g : β → γ) :
    Collects (do return g (← m)) bodies (g v) := by
  have hbind : Collects (m >>= fun b => Pure.pure (g b)) (bodies ++ []) (g v) :=
    h.bind (pure (g v))
  rwa [List.append_nil] at hbind

theorem mapM {f : γ → Collect β} {bodies : δ → List String} {value : δ → β} {cs : List γ}
    {ds : List δ} (h : List.Forall₂ (fun c d => Collects (f c) (bodies d) (value d)) cs ds) :
    Collects (cs.mapM f) (ds.flatMap bodies) (ds.map value) := by
  induction h with
  | nil => exact pure []
  | cons head tail ih =>
      rw [List.mapM_cons, List.flatMap_cons, List.map_cons]
      exact head.bind (ih.map _)

end Collects

/-- A quoted pattern is collected as compiling the text between its quotes says. -/
theorem collects_mentionQuoted (body : String) :
    Collects (mentionQuoted (quotation body)) [body] () := by
  intro found
  have hrun : mentionQuoted (quotation body) found =
      (if quotation body ∉ found.map Prod.fst then (do
          let rule ← Pattern.load (unquote (quotation body))
          set (found ++ [(quotation body, rule)]) : Collect Unit)
        else pure ()) found := rfl
  rw [hrun, compileQuoted, unquote_quotation, Pattern.load_eq_compile]
  by_cases hfound : quotation body ∈ found.map Prod.fst
  · rw [if_neg (not_not_intro hfound), if_pos hfound]
    rfl
  · rw [if_pos hfound, if_neg hfound]
    cases Pattern.compile body <;> rfl

theorem value_of_body? {t : Token} {body : String} (h : t.body? = some body) :
    t.value = quotation body := by
  unfold Token.body? at h
  split at h
  · rename_i rest hvalue
    split at h
    · rename_i hlast
      cases h
      rw [← String.toList_inj, hvalue, toList_quotation, String.toList_ofList,
        List.dropLast_append_getLast? _ hlast]
    · cases h
  · cases h

variable {isKind : String → Bool} {o : Outline Token} {ts : List Token}
  {os parts : List (Outline Token)} {name : String}

/-- What is loaded from a node with some outline. -/
def Loaded {β : Type} (load : (String → Bool) → ParseTree Token → Collect β)
    (o : Outline Token) (bodies : List String) (value : (String → Bool) → β) : Prop :=
  ∀ isKind, ∀ t : ParseTree Token, t.Shows o → Collects (load isKind t) bodies (value isKind)

/-- An operand is loaded as a term without its mark. -/
def LoadedOperand (load : (String → Bool) → ParseTree Token → Collect (Rule Token String))
    (o : Outline Token) (repetition : Option Repetition) (u : Term) : Prop :=
  ∃ value : (String → Bool) → Rule Token String, Loaded load o u.quotedBodies value ∧
    ∀ isKind, u.meaning isKind = (value isKind).repeated repetition

/-- What the queries find in the node of a declaration. -/
inductive Declares : ParseTree Token → Declaration → Prop
  | token {t : ParseTree Token} {first quoted : Token} {body : String}
      (label : t.label = some "lexer_decl") (head : t.values.head? = some first)
      (find : t.values.find? (·.kind = "str") = some quoted)
      (value : quoted.value = quotation body) : Declares t (.token first.value body)
  | rule {t s : ParseTree Token} {first : Token} {alternatives : Alternation}
      (label : t.label = some "parser_decl") (head : t.values.head? = some first)
      (one : t.selected.selectOneLabelled ["alternation"] = .ok s)
      (collects : ∀ isKind, Collects (loadAlternation isKind s) alternatives.quotedBodies
        (alternatives.meaning isKind)) : Declares t (.rule first.value alternatives)

/-- What the node of a named rule is loaded as, if it can be read. -/
def Loads (name : String) (_ : List Token) (os : List (Outline Token)) : Prop :=
  match name with
  | "root" => ∀ ds, os.mapM ofOutline? = some ds →
      List.Forall₂ (fun o d => ∀ t : ParseTree Token, t.Shows o → Declares t d)
        (os.flatMap (Outline.outermost declarationNames)) ds
  | "decl" => ∃ name ∈ declarationNames, ∃ parts, os = [.node name parts] ∧
      ∀ d, ofOutline? (.node "decl" os) = some d →
        ∀ t : ParseTree Token, t.Shows (.node name parts) → Declares t d
  | "lexer_decl" | "parser_decl" =>
      ∀ d, ofOutline? (.node "decl" [.node name os]) = some d →
        ∀ t : ParseTree Token, t.Shows (.node name os) → Declares t d
  | "alternation" => ∀ uss, Alternation.ofOutlines? os = some uss →
      Loaded loadAlternation (.node name os) uss.quotedBodies (Alternation.meaning · uss)
  | "sequence" => ∀ us, Term.ofOutlines? os = some us →
      Loaded loadSequence (.node name os) (Term.allQuotedBodies us)
        fun isKind => Rule.ofParts .seq (Term.meanings isKind us)
  | "term" => ∀ u, Term.ofOutline? none (.node name os) = some u →
      Loaded loadTerm (.node name os) u.quotedBodies (Term.meaning · u)
  | "atom" => ∀ repetition u, Term.ofOutline? repetition (.node name os) = some u →
      LoadedOperand loadAtom (.node name os) repetition u
  | "group" | "ref" | "literal" =>
      ∀ repetition u, Term.ofOutline? repetition (.node name os) = some u →
        LoadedOperand loadOperand (.node name os) repetition u
  | _ => ∀ u, Term.ofOutline? none (.node name os) = some u →
      Loaded loadMarked (.node name os) u.quotedBodies (Term.meaning · u)

theorem loaded_terms (h : (Rule.star (.ref "term")).Reads Loads ts os) {us : List Term}
    (hus : Term.ofOutlines? os = some us) :
    List.Forall₂ (fun o u => Loaded loadTerm o u.quotedBodies (Term.meaning · u))
      (os.flatMap (Outline.outermost ["term"])) us := by
  revert us
  refine h.star_induction
    (P := fun _ os => ∀ {us : List Term}, Term.ofOutlines? os = some us →
      List.Forall₂ (fun o u => Loaded loadTerm o u.quotedBodies (Term.meaning · u))
        (os.flatMap (Outline.outermost ["term"])) us) ?_ ?_
  · rintro us hus
    cases hus
    exact .nil
  · intro xs ys ps qs hread ih us hus
    obtain ⟨parts, rfl, hterm⟩ := Rule.reads_ref_iff.mp hread
    rw [List.singleton_append, Term.ofOutlines?] at hus
    simp only [Option.bind_eq_bind, Option.bind_eq_some_iff, Option.pure_def,
      Option.some.injEq] at hus
    obtain ⟨u, hu, us, hus, rfl⟩ := hus
    exact .cons (hterm u hu) (ih hus)

theorem loads_sequence (h : (Rule.plus (.ref "term")).Reads Loads ts os) :
    Loads "sequence" ts os := by
  obtain ⟨xs, ys, ps, qs, hhead, htail, rfl, rfl⟩ := Rule.reads_plus_iff.mp h
  intro us hus isKind t ht
  have hterms := loaded_terms (.starCons hhead htail) hus
  have hnodes := ParseTree.forall₂_of_shows (ht.skip ["term"])
    (hterms.imp fun o u hu => hu isKind)
  simp only [loadSequence_eq, Term.allQuotedBodies_eq_flatMap, Term.meanings_eq_map]
  exact (Collects.mapM hnodes).map _

/-- The parts of an alternation are bars and sequences. -/
def LoadsSequences (os : List (Outline Token)) : Prop :=
  ∀ o ∈ os, (∃ token, o = .item token) ∨
    ∃ ts parts, o = .node "sequence" parts ∧ Loads "sequence" ts parts

theorem loaded_sequences (h : LoadsSequences os) {uss : Alternation}
    (huss : Alternation.ofOutlines? os = some uss) :
    List.Forall₂ (fun o us => Loaded loadSequence o (Term.allQuotedBodies us)
        fun isKind => Rule.ofParts .seq (Term.meanings isKind us))
      (os.flatMap (Outline.outermost ["sequence"])) uss := by
  induction os generalizing uss with
  | nil =>
      cases huss
      exact .nil
  | cons o os ih =>
      obtain ⟨ho, hos⟩ := List.forall_mem_cons.mp h
      rcases ho with ⟨token, rfl⟩ | ⟨ts, parts, rfl, hsequence⟩
      · exact ih hos huss
      · rw [Alternation.ofOutlines?] at huss
        simp only [Option.bind_eq_bind, Option.bind_eq_some_iff, Option.pure_def,
          Option.some.injEq] at huss
        obtain ⟨us, hus, uss, huss, rfl⟩ := huss
        exact .cons (hsequence us hus) (ih hos huss)

theorem loadsSequences_bars
    (h : (Rule.star (.seq [.literal "|", .ref "sequence"])).Reads Loads ts os) :
    LoadsSequences os := by
  refine h.star_induction (P := fun _ os => LoadsSequences os) (List.forall_mem_nil _) ?_
  intro xs ys ps qs hread ih
  obtain ⟨bar, zs, os, rfl, rfl, -, hrest⟩ := Rule.reads_seq_literal_iff.mp hread
  obtain ⟨zs, ws, parts, os, rfl, rfl, hsequence, hend⟩ := Rule.reads_seq_ref_iff.mp hrest
  obtain ⟨rfl, rfl⟩ := Rule.reads_seq_nil_iff.mp hend
  refine List.forall_mem_cons.mpr ⟨.inl ⟨bar, rfl⟩, List.forall_mem_cons.mpr ⟨?_, ih⟩⟩
  exact .inr ⟨zs, parts, rfl, hsequence⟩

theorem loads_alternation
    (h : (Rule.seq [.ref "sequence", .star (.seq [.literal "|", .ref "sequence"])]).Reads Loads
      ts os) : Loads "alternation" ts os := by
  obtain ⟨xs, ys, parts, qs, rfl, rfl, hfirst, hrest⟩ := Rule.reads_seq_ref_iff.mp h
  obtain ⟨ys, zs, ps, qs, hbars, hend, rfl, rfl⟩ := Rule.reads_seq_cons_iff.mp hrest
  obtain ⟨rfl, rfl⟩ := Rule.reads_seq_nil_iff.mp hend
  simp only [List.append_nil]
  intro uss huss isKind t ht
  have hall : LoadsSequences (.node "sequence" parts :: ps) :=
    List.forall_mem_cons.mpr ⟨.inr ⟨xs, parts, rfl, hfirst⟩, loadsSequences_bars hbars⟩
  have hnodes := ParseTree.forall₂_of_shows (ht.skip ["sequence"])
    ((loaded_sequences hall huss).imp fun o us hus => hus isKind)
  simp only [loadAlternation_eq, Alternation.quotedBodies_eq_flatMap, Alternation.meaning,
    Alternation.meanings_eq_map]
  exact (Collects.mapM hnodes).map _

theorem loads_term
    (h : (Rule.alt [.ref "zero_or_more", .ref "one_or_more", .ref "zero_or_one",
      .ref "until_empty", .ref "atom"]).Reads Loads ts os) : Loads "term" ts os := by
  obtain ⟨name, hname, parts, rfl, hparts⟩ := (Rule.reads_alt_refs_iff termNames).mp h
  intro u hu isKind t ht
  have houter : (Outline.node "term" [.node name parts]).outermost termNames =
      [.node name parts] := by
    rw [Outline.outermost_of_not_mem (by decide), List.flatMap_singleton,
      Outline.outermost_of_mem hname]
  obtain ⟨s, hs, hshows⟩ := ht.selectOne houter
  have hlabel : s.isLabelled "atom" = decide (name = "atom") := by
    simp [ParseTree.isLabelled, hshows.label]
  rw [loadTerm_eq hs, hlabel]
  simp only [termNames, List.mem_cons, List.not_mem_nil, or_false] at hname
  rcases hname with rfl | rfl | rfl | rfl | rfl
  · exact hparts u hu isKind s hshows
  · exact hparts u hu isKind s hshows
  · exact hparts u hu isKind s hshows
  · exact hparts u hu isKind s hshows
  · obtain ⟨value, hload, hmeaning⟩ := hparts none u hu
    have hunmarked : u.meaning isKind = value isKind := hmeaning isKind
    simp only [hunmarked]
    exact hload isKind s hshows

theorem loads_marked (repetition : Repetition)
    (h : (Rule.seq [.ref "atom", .literal repetition.markKind]).Reads Loads ts os) :
    Loads repetition.ruleName ts os := by
  obtain ⟨xs, ys, parts, qs, rfl, rfl, hparts, hrest⟩ := Rule.reads_seq_ref_iff.mp h
  obtain ⟨mark, zs, qs, rfl, rfl, -, hend⟩ := Rule.reads_seq_literal_iff.mp hrest
  obtain ⟨rfl, rfl⟩ := Rule.reads_seq_nil_iff.mp hend
  have hname : repetition.ruleName ∉ ["atom"] := by
    cases repetition <;> decide
  have hloaded (u : Term) (hu : Term.ofOutline? (some repetition) (.node "atom" parts) = some u) :
      Loaded loadMarked (.node repetition.ruleName [.node "atom" parts, .item mark])
        u.quotedBodies (Term.meaning · u) := by
    obtain ⟨value, hload, hmeaning⟩ := hparts (some repetition) u hu
    intro isKind t ht
    have houter : (Outline.node repetition.ruleName [.node "atom" parts, .item mark]).outermost
        ["atom"] = [.node "atom" parts] := by
      rw [Outline.outermost_of_not_mem hname]
      rfl
    obtain ⟨s, hs, hshows⟩ := ht.selectOne houter
    rw [loadMarked_eq hs, ht.label]
    simp only [hmeaning isKind]
    have hatom := hload isKind s hshows
    cases repetition <;> exact hatom.map _
  cases repetition <;> exact hloaded

theorem loads_atom
    (h : (Rule.alt [.ref "group", .ref "ref", .ref "literal"]).Reads Loads ts os) :
    Loads "atom" ts os := by
  obtain ⟨name, hname, parts, rfl, hparts⟩ := (Rule.reads_alt_refs_iff atomNames).mp h
  have houter : (Outline.node "atom" [.node name parts]).outermost atomNames =
      [.node name parts] := by
    rw [Outline.outermost_of_not_mem (by decide), List.flatMap_singleton,
      Outline.outermost_of_mem hname]
  have hatom {repetition : Option Repetition} {u : Term}
      (hoperand : LoadedOperand loadOperand (.node name parts) repetition u) :
      LoadedOperand loadAtom (.node "atom" [.node name parts]) repetition u := by
    obtain ⟨value, hload, hmeaning⟩ := hoperand
    refine ⟨value, fun isKind t ht => ?_, hmeaning⟩
    obtain ⟨s, hs, hshows⟩ := ht.selectOne houter
    rw [loadAtom_eq hs]
    exact hload isKind s hshows
  simp only [atomNames, List.mem_cons, List.not_mem_nil, or_false] at hname
  intro repetition u hu
  rcases hname with rfl | rfl | rfl <;> exact hatom (hparts repetition u hu)

theorem loads_group
    (h : (Rule.seq [.literal "(", .ref "alternation", .literal ")"]).Reads Loads ts os) :
    Loads "group" ts os := by
  obtain ⟨bra, ys, qs, rfl, rfl, -, hrest⟩ := Rule.reads_seq_literal_iff.mp h
  obtain ⟨xs, ys, parts, qs, rfl, rfl, hparts, hrest⟩ := Rule.reads_seq_ref_iff.mp hrest
  obtain ⟨ket, zs, qs, rfl, rfl, -, hend⟩ := Rule.reads_seq_literal_iff.mp hrest
  obtain ⟨rfl, rfl⟩ := Rule.reads_seq_nil_iff.mp hend
  intro repetition u hu
  rw [Term.ofOutline?] at hu
  obtain ⟨uss, huss, rfl⟩ := Option.map_eq_some_iff.mp hu
  refine ⟨(Alternation.meaning · uss), fun isKind t ht => ?_, fun isKind => rfl⟩
  have houter : (Outline.node "group" [.item bra, .node "alternation" parts, .item ket]).outermost
      ["alternation"] = [.node "alternation" parts] := rfl
  obtain ⟨s, hs, hshows⟩ := ht.selectOne houter
  rw [loadOperand_group ht.label hs]
  exact hparts uss huss isKind s hshows

theorem loads_ref (h : (Rule.literal "id").Reads Loads ts os) : Loads "ref" ts os := by
  obtain ⟨token, -, rfl, rfl⟩ := Rule.reads_literal_iff.mp h
  intro repetition u hu
  cases hu
  refine ⟨fun isKind => if isKind token.value then .literal token.value else .ref token.value,
    fun isKind t ht => ?_, fun isKind => rfl⟩
  rw [loadOperand_ref ht.label, ht.singleToken]
  exact .pure _

theorem loads_literal (h : (Rule.literal "str").Reads Loads ts os) : Loads "literal" ts os := by
  obtain ⟨token, -, rfl, rfl⟩ := Rule.reads_literal_iff.mp h
  intro repetition u hu
  rw [Term.ofOutline?] at hu
  obtain ⟨body, hbody, rfl⟩ := Option.map_eq_some_iff.mp hu
  have hvalue : token.value = quotation body := value_of_body? hbody
  refine ⟨fun _ => .literal (quotation body), fun isKind t ht => ?_, fun isKind => rfl⟩
  rw [loadOperand_literal ht.label, ht.singleToken]
  change Collects (do mentionQuoted token.value; return Rule.literal token.value) _ _
  rw [hvalue]
  exact (collects_mentionQuoted body).map fun _ => Rule.literal (quotation body)

theorem loads_lexer_decl
    (h : (Rule.seq [.literal "id", .literal "=", .literal "str", .literal ";"]).Reads Loads
      ts os) : Loads "lexer_decl" ts os := by
  obtain ⟨name, ys, qs, rfl, rfl, hname, hrest⟩ := Rule.reads_seq_literal_iff.mp h
  obtain ⟨sign, ys, qs, rfl, rfl, hsign, hrest⟩ := Rule.reads_seq_literal_iff.mp hrest
  obtain ⟨quoted, ys, qs, rfl, rfl, hquoted, hrest⟩ := Rule.reads_seq_literal_iff.mp hrest
  obtain ⟨stop, ys, qs, rfl, rfl, -, hend⟩ := Rule.reads_seq_literal_iff.mp hrest
  obtain ⟨rfl, rfl⟩ := Rule.reads_seq_nil_iff.mp hend
  intro d hd t ht
  rw [ofOutline?] at hd
  obtain ⟨body, hbody, rfl⟩ := Option.map_eq_some_iff.mp hd
  have hvalues : t.values = [name, sign, quoted, stop] := ht.values
  have hkinds : name.kind = "id" ∧ sign.kind = "=" ∧ quoted.kind = "str" :=
    ⟨hname, hsign, hquoted⟩
  refine .token ht.label (by rw [hvalues]; rfl) ?_ (value_of_body? hbody)
  simp [hvalues, hkinds]

theorem loads_parser_decl
    (h : (Rule.seq [.literal "id", .literal "->", .ref "alternation", .literal ";"]).Reads Loads
      ts os) : Loads "parser_decl" ts os := by
  obtain ⟨name, ys, qs, rfl, rfl, -, hrest⟩ := Rule.reads_seq_literal_iff.mp h
  obtain ⟨sign, ys, qs, rfl, rfl, -, hrest⟩ := Rule.reads_seq_literal_iff.mp hrest
  obtain ⟨xs, ys, parts, qs, rfl, rfl, hparts, hrest⟩ := Rule.reads_seq_ref_iff.mp hrest
  obtain ⟨stop, ys, qs, rfl, rfl, -, hend⟩ := Rule.reads_seq_literal_iff.mp hrest
  obtain ⟨rfl, rfl⟩ := Rule.reads_seq_nil_iff.mp hend
  intro d hd t ht
  rw [ofOutline?] at hd
  obtain ⟨uss, huss, rfl⟩ := Option.map_eq_some_iff.mp hd
  have houter : (Outline.node "parser_decl" [.item name, .item sign, .node "alternation" parts,
      .item stop]).outermost ["alternation"] = [.node "alternation" parts] := rfl
  obtain ⟨s, hs, hshows⟩ := ht.selectOne houter
  refine .rule ht.label ?_ hs fun isKind => hparts uss huss isKind s hshows
  rw [ht.values]
  rfl

theorem loads_decl
    (h : (Rule.alt [.ref "lexer_decl", .ref "parser_decl"]).Reads Loads ts os) :
    Loads "decl" ts os := by
  obtain ⟨name, hname, parts, rfl, hparts⟩ := (Rule.reads_alt_refs_iff declarationNames).mp h
  refine ⟨name, hname, parts, rfl, ?_⟩
  simp only [declarationNames, List.mem_cons, List.not_mem_nil, or_false] at hname
  rcases hname with rfl | rfl <;> exact hparts

theorem outermost_decl (hname : name ∈ declarationNames) :
    (Outline.node "decl" [.node name parts]).outermost declarationNames =
      [.node name parts] := by
  rw [Outline.outermost_of_not_mem (by decide), List.flatMap_singleton,
    Outline.outermost_of_mem hname]

/-- What holds of the node of each declaration holds of all that the query for them finds. -/
theorem forall₂_root {C : String → List Token → List (Outline Token) → Prop}
    {R : Outline Token → Declaration → Prop}
    (h : (Rule.untilEnd (.ref "decl")).Reads C ts os)
    (hdecl : ∀ xs parts d, C "decl" xs parts → ofOutline? (.node "decl" parts) = some d →
      List.Forall₂ R ((Outline.node "decl" parts).outermost declarationNames) [d])
    {ds : List Declaration} (hds : os.mapM ofOutline? = some ds) :
    List.Forall₂ R (os.flatMap (Outline.outermost declarationNames)) ds := by
  revert ds
  refine (Rule.reads_untilEnd_iff.mp h).star_induction
    (P := fun _ os => ∀ {ds}, os.mapM ofOutline? = some ds →
      List.Forall₂ R (os.flatMap (Outline.outermost declarationNames)) ds) ?_ ?_
  · intro ds hds
    cases hds
    exact .nil
  · intro xs ys ps qs hread ih ds hds
    obtain ⟨parts, rfl, hparts⟩ := Rule.reads_ref_iff.mp hread
    rw [List.singleton_append, List.mapM_cons] at hds
    simp only [Option.bind_eq_bind, Option.bind_eq_some_iff, Option.pure_def,
      Option.some.injEq] at hds
    obtain ⟨d, hd, ds, hds, rfl⟩ := hds
    rw [List.singleton_append, List.flatMap_cons]
    exact List.rel_append (hdecl xs parts d hparts hd) (ih hds)

theorem loads_root (h : (Rule.untilEnd (.ref "decl")).Reads Loads ts os) :
    Loads "root" ts os := by
  intro ds hds
  refine forall₂_root h ?_ hds
  rintro xs parts d ⟨name, hname, parts, rfl, hdecl⟩ hd
  rw [outermost_decl hname]
  exact .cons (hdecl d hd) .nil

/-- Every rule of the grammar is loaded as what it is read as. -/
theorem closed_loads : grammar.Closed Loads := by
  intro name r ts os hrule h
  have hmem : (name, r) ∈ grammarRules := grammar.rule?_eq_some_iff.mp hrule
  simp only [grammarRules, List.mem_cons, List.not_mem_nil, or_false, Prod.mk.injEq] at hmem
  rcases hmem with ⟨rfl, rfl⟩ | ⟨rfl, rfl⟩ | ⟨rfl, rfl⟩ | ⟨rfl, rfl⟩ | ⟨rfl, rfl⟩ |
    ⟨rfl, rfl⟩ | ⟨rfl, rfl⟩ | ⟨rfl, rfl⟩ | ⟨rfl, rfl⟩ | ⟨rfl, rfl⟩ | ⟨rfl, rfl⟩ |
    ⟨rfl, rfl⟩ | ⟨rfl, rfl⟩ | ⟨rfl, rfl⟩ | ⟨rfl, rfl⟩
  · exact loads_root h
  · exact loads_decl h
  · exact loads_lexer_decl h
  · exact loads_parser_decl h
  · exact loads_alternation h
  · exact loads_sequence h
  · exact loads_term h
  · exact loads_marked .star h
  · exact loads_marked .plus h
  · exact loads_marked .opt h
  · exact loads_marked .untilEnd h
  · exact loads_atom h
  · exact loads_group h
  · exact loads_ref h
  · exact loads_literal h

theorem declaredName_eq {t : ParseTree Token} {first : Token} (h : t.values.head? = some first)
    (taken : List String) :
    declaredName taken t = (declare taken first.value).map fun _ => first.value := by
  obtain ⟨rest, hvalues⟩ := List.head?_eq_some_iff.mp h
  simp only [declaredName, hvalues]
  rfl

theorem loadTokens_eq {nodes : List (ParseTree Token)} {ds : List Declaration}
    (h : List.Forall₂ Declares nodes ds) (taken : List String) :
    loadTokens taken (nodes.filter (·.isLabelled "lexer_decl")) =
      compileTokens taken (tokens ds) := by
  induction h generalizing taken with
  | nil => rfl
  | @cons t d nodes ds head tail ih =>
      cases head with
      | @token first quoted body label head find value =>
          have hkept : t.isLabelled "lexer_decl" = true := by
            simp [ParseTree.isLabelled, label]
          have htokens : tokens (.token first.value body :: ds) =
              (first.value, body) :: tokens ds := rfl
          rw [List.filter_cons_of_pos hkept, loadTokens, declaredName_eq head, find, htokens,
            compileTokens]
          simp only [value, unquote_quotation, Pattern.load_eq_compile]
          cases declare taken first.value with
          | error f => rfl
          | ok _ =>
              change (Pattern.compile body).bind _ = (Pattern.compile body).bind _
              rw [ih]
      | rule label head one collects =>
          have hdropped : ¬ t.isLabelled "lexer_decl" = true := by
            simp [ParseTree.isLabelled, label]
          rw [List.filter_cons_of_neg hdropped]
          exact ih taken

theorem loadRules_eq {nodes : List (ParseTree Token)} {ds : List Declaration}
    (h : List.Forall₂ Declares nodes ds) (isKind : String → Bool) (taken : List String)
    (found : List (String × Rule Char Char)) :
    loadRules isKind taken (nodes.filter (·.isLabelled "parser_decl")) found =
      (compileMentioned taken found (rules ds)).map fun found =>
        ((rules ds).map fun entry => (entry.1, entry.2.meaning isKind), found) := by
  -- each rule leaves more names taken and more quoted patterns found to the next
  induction h generalizing taken found with
  | nil => rfl
  | @cons t d nodes ds head tail ih =>
      cases head with
      | token label head find value =>
          have hdropped : ¬ t.isLabelled "parser_decl" = true := by
            simp [ParseTree.isLabelled, label]
          rw [List.filter_cons_of_neg hdropped]
          exact ih taken found
      | @rule s first alternatives label head one collects =>
          have hkept : t.isLabelled "parser_decl" = true := by
            simp [ParseTree.isLabelled, label]
          have hrules : rules (.rule first.value alternatives :: ds) =
              (first.value, alternatives) :: rules ds := rfl
          rw [List.filter_cons_of_pos hkept, loadRules, declaredName_eq head, one, hrules,
            compileMentioned]
          cases declare taken first.value with
          | error f => rfl
          | ok _ =>
              change ((loadAlternation isKind s found).bind fun r =>
                  (loadRules isKind (first.value :: taken) _ r.2).bind fun r' =>
                    .done ((first.value, r.1) :: r'.1, r'.2)) =
                ((compileQuoted found alternatives.quotedBodies).bind fun found =>
                  compileMentioned (first.value :: taken) found (rules ds)).map _
              rw [collects isKind found]
              cases compileQuoted found alternatives.quotedBodies with
              | done found' =>
                  change (loadRules isKind (first.value :: taken) _ found').bind _ = _
                  rw [ih]
                  change _ = (compileMentioned (first.value :: taken) found' (rules ds)).map _
                  cases compileMentioned (first.value :: taken) found' (rules ds) <;> rfl
              | failed f => rfl
              | endless => rfl

theorem exists_tree_of_parse {src : String} {ds : List Declaration} (h : parse src = .done ds) :
    ∃ tree, parser.parse src = .done tree := by
  simp only [parse, Outcome.bind_eq, Outcome.bind_eq_done_iff,
    Outcome.mapFailure_eq_done_iff] at h
  obtain ⟨tree, htree, -⟩ := h
  exact ⟨tree, htree⟩

/-- The outlines below the root are read as the declarations of the source. -/
theorem mapM_of_parse {src : String} {tree : ParseTree Token}
    (h : parser.parse src = .done tree) {os : List (Outline Token)}
    (houtline : tree.outline = [.node "root" os]) {ds : List Declaration}
    (hds : parse src = .done ds) : os.mapM ofOutline? = some ds := by
  simp only [parse, h, Outcome.mapFailure, Outcome.bind_eq, Outcome.bind, houtline] at hds
  split at hds
  · rename_i ds' hmap
    cases hds
    exact hmap
  · cases hds

/-- What holds of all trees with the outlines of declarations holds of the nodes that the
query for declarations finds. -/
theorem forall₂_declarations {R : ParseTree Token → Declaration → Prop} {src : String}
    {tree : ParseTree Token} (h : parser.parse src = .done tree) {os : List (Outline Token)}
    (houtline : tree.outline = [.node "root" os]) {ds : List Declaration}
    (hos : List.Forall₂ (fun o d => ∀ t : ParseTree Token, t.Shows o → R t d)
      (os.flatMap (Outline.outermost declarationNames)) ds) :
    List.Forall₂ R (tree.selected.selectLabelled declarationNames).nodes ds := by
  have hshows : tree.Shows (.node "root" os) := .node (Parser.keeps_of_parse h).label houtline
  have hnodes := hshows.selectLabelled declarationNames
  rw [Outline.outermost_of_not_mem (by decide)] at hnodes
  exact ParseTree.forall₂_of_shows hnodes hos

/-- What the queries load from a parse tree is what the tree is read as. -/
theorem loadTree_of_parse {src : String} {tree : ParseTree Token}
    (h : parser.parse src = .done tree) {ds : List Declaration} (hds : parse src = .done ds) :
    loadTree tree = Parser.ofDeclarations ds := by
  obtain ⟨ts, os, -, houtline, hroot⟩ := Parser.parse_tells closed_loads h
  have hdeclares :=
    forall₂_declarations h houtline (hroot ds (mapM_of_parse h houtline hds))
  rw [loadTree, Parser.ofDeclarations, loadTokens_eq hdeclares]
  refine congrArg _ (funext fun kinds => ?_)
  have hrules := loadRules_eq hdeclares (kinds.map Prod.fst).contains (kinds.map Prod.fst) []
  change (loadRules _ _ _ []).bind _ = (compileMentioned _ [] (rules ds)).bind _
  rw [hrules]
  cases compileMentioned (kinds.map Prod.fst) [] (rules ds) with
  | done found =>
      cases hentries : rules ds with
      | nil => rfl
      | cons entry entries => rfl
  | failed f => rfl
  | endless => rfl

theorem loadKind_eq (name : String) {src : String} {r : Rule Char Char}
    (h : Pattern.compile src = .done r) : loadKind (name, src) = .done (name, r) := by
  rw [loadKind, Pattern.load_eq_compile, h]
  rfl

/-- An operator behind a backslash is the operator itself. -/
theorem compile_operator {c : Char} (hc : c ∈ operators) :
    Pattern.compile (String.ofList ['\\', c]) = .done (.literal c) := by
  have hprint : Pattern.printAll [.atom (.escaped c) none] =
      (String.ofList ['\\', c]).toList := by
    rw [String.toList_ofList]
    rfl
  have hplain : c ≠ 'n' ∧ c ≠ 't' ∧ c ≠ 'w' := by
    refine ⟨?_, ?_, ?_⟩ <;> rintro rfl <;> exact absurd hc (by decide)
  have hmeaning : (Pattern.Atom.escaped c).meaning = .literal c := by
    simp [Pattern.Atom.meaning, hplain]
  rw [Pattern.compile_of_printAll hprint, ← hmeaning]
  rfl

theorem mapM_operators {cs : List Char} (hcs : ∀ c ∈ cs, c ∈ operators) :
    (cs.map fun c => (String.singleton c, String.ofList ['\\', c])).mapM loadKind =
      .done (cs.map operatorKind) := by
  induction cs with
  | nil => rfl
  | cons c cs ih =>
      obtain ⟨hc, hcs⟩ := List.forall_mem_cons.mp hcs
      rw [List.map_cons, List.mapM_cons, loadKind_eq _ (compile_operator hc), ih hcs]
      rfl

theorem compile_blanks : Pattern.compile "\\w+" =
    .done (.plus (.alt ([' ', '\n', '\t'].map .literal))) := by
  have hprint : Pattern.printAll [.atom (.escaped 'w') (some .plus)] = "\\w+".toList := rfl
  exact Pattern.compile_of_printAll hprint

theorem compile_identifiers :
    Pattern.compile "(_|[a-z]|[A-Z])(_|[a-z]|[A-Z]|[0-9])*" =
      .done (.seq [.alt letters, .star (.alt (letters ++ [.range '0' '9']))]) := by
  let underscore : Pattern := .atom (.plain ⟨'_', by decide⟩) none
  let lower : Pattern := .atom (.range ⟨'a', by decide⟩ ⟨'z', by decide⟩) none
  let upper : Pattern := .atom (.range ⟨'A', by decide⟩ ⟨'Z', by decide⟩) none
  let digit : Pattern := .atom (.range ⟨'0', by decide⟩ ⟨'9', by decide⟩) none
  have hprint : Pattern.printAll [.choice underscore lower [upper] none,
      .choice underscore lower [upper, digit] (some .star)] =
        "(_|[a-z]|[A-Z])(_|[a-z]|[A-Z]|[0-9])*".toList := rfl
  exact Pattern.compile_of_printAll hprint

theorem loadParser_eq : loadParser = .done parser := by
  have hkinds : tokenSources.mapM loadKind = .done (tokenKinds.take 3) := by
    simp only [tokenSources, List.mapM_cons, loadKind_eq "_ws" compile_blanks,
      loadKind_eq "id" compile_identifiers, loadKind_eq "str" compile_quotedRule]
    rfl
  have hoperators : operatorSources.mapM loadKind = .done (operators.map operatorKind) :=
    mapM_operators fun c hc => hc
  have hlexer : Lexer.ofKinds
      (tokenKinds.take 3 ++ ("->", Rule.word "->") :: operators.map operatorKind) .unambiguous =
        .ok lexer := Lexer.ofKinds_eq_ok lexer.distinct _ _
  have hgrammar : Grammar.ofRules "root" grammarRules = .ok grammar :=
    Grammar.ofRules_eq_ok grammar.distinct grammar.start_declared
  rw [loadParser, hkinds, hoperators]
  simp only [Outcome.bind_eq, Outcome.bind, hlexer, hgrammar]
  rfl

/-- What is loaded from a source is what its declarations are compiled to. -/
theorem load_of_parse {src : String} {tree : ParseTree Token}
    (h : parser.parse src = .done tree) {ds : List Declaration} (hds : parse src = .done ds) :
    load src = Parser.ofDeclarations ds := by
  rw [load, loadParser_eq]
  simp only [Outcome.bind_eq, Outcome.bind, h, Outcome.mapFailure, loadTree_of_parse h hds]

theorem load_of_failed {src : String} {e : Failure} (h : parser.parse src = .failed e) :
    load src = .failed (malformed [e]) := by
  rw [load, loadParser_eq]
  simp only [Outcome.bind_eq, Outcome.bind, h, Outcome.mapFailure]

/-- Parsing a source comes to an end. -/
theorem parsed_or_failed (src : String) :
    (∃ tree, parser.parse src = .done tree) ∨ ∃ e, parser.parse src = .failed e := by
  have hends : parser.parse src ≠ .endless :=
    Parser.parse_ne_endless lexer_withoutLeftRecursion grammar_withoutLeftRecursion src
  cases h : parser.parse src with
  | done tree => exact .inl ⟨tree, rfl⟩
  | failed e => exact .inr ⟨e, rfl⟩
  | endless => exact absurd h hends

theorem load_eq_ofSource (src : String) : load src = Parser.ofSource src := by
  rcases parsed_or_failed src with ⟨tree, htree⟩ | ⟨e, he⟩
  · obtain ⟨ds, ts, hds, -⟩ := exists_parse htree
    rw [load_of_parse htree hds, Parser.ofSource, hds]
    rfl
  · rw [load_of_failed he, Parser.ofSource, parse, he]
    rfl

/-- From a source of well-formed declarations the parser is loaded that they describe. -/
theorem load_implements {ds : List Declaration} (h : AllWellFormed ds) {src : String}
    (hds : parse src = .done ds) : ∃ p, load src = .done p ∧ p.Implements ds := by
  rw [load_eq_ofSource]
  exact Parser.ofSource_implements h hds

end Peg.Declaration
