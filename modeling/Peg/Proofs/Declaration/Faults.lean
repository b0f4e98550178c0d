import Peg.Proofs.Declaration.Queries

/-!
The only ways in which loading declarations fails. A source that is not made of declarations
is malformed. Of one that is, all declarations are gone through once, kinds of token before
rules, and the first fault counts: a name that is taken, or else the first quoted text that
is no pattern. If there is no fault, there only has to be a rule.
-/

namespace Peg.Declaration

/-- What can be wrong with a declaration by itself: its name, and its quoted bodies from left
to right. -/
abbrev Entry := String × List String

/-- The declarations in the order in which they are gone through. -/
def entries (ds : List Declaration) : List Entry :=
  (tokens ds).map (fun source => (source.1, [source.2])) ++
    (rules ds).map fun entry => (entry.1, entry.2.quotedBodies)

/-- What is wrong with a declaration where some names are taken already. -/
inductive Fault (taken : List String) : Entry → Failure → Prop
  | duplicate {name : String} {bodies : List String} (mem : name ∈ taken) :
      Fault taken (name, bodies) { cause := .duplicateRule name }
  | rejected {name body : String} {before after : List String} {e : Failure}
      (fresh : name ∉ taken) (compile : AllCompile before)
      (fails : Pattern.load body = .failed (Pattern.malformed body [e])) :
      Fault taken (name, before ++ body :: after) (Pattern.malformed body [e])

/-- The first fault on the way through some declarations. -/
inductive FirstFault : List String → List Entry → Failure → Prop
  | here {taken : List String} {entry : Entry} {rest : List Entry} {f : Failure}
      (fault : Fault taken entry f) : FirstFault taken (entry :: rest) f
  | later {taken : List String} {entry : Entry} {rest : List Entry} {f : Failure}
      (fresh : entry.1 ∉ taken) (compile : AllCompile entry.2)
      (tail : FirstFault (entry.1 :: taken) rest f) : FirstFault taken (entry :: rest) f

/-- Declarations without a fault. -/
structure Faultless (taken : List String) (es : List Entry) : Prop where
  fresh : ∀ entry ∈ es, entry.1 ∉ taken
  distinct : (es.map Prod.fst).Nodup
  compile : ∀ entry ∈ es, AllCompile entry.2

variable {taken : List String} {es es' : List Entry} {entry : Entry} {f : Failure}

/-- Whether a declaration has a fault depends on no more than which names are taken. -/
theorem Fault.congr {taken' : List String} (htaken : ∀ name, name ∈ taken ↔ name ∈ taken')
    (h : Fault taken entry f) : Fault taken' entry f := by
  cases h with
  | duplicate mem => exact .duplicate ((htaken _).mp mem)
  | rejected fresh compile fails => exact .rejected (mt (htaken _).mpr fresh) compile fails

theorem FirstFault.congr {taken' : List String} (htaken : ∀ name, name ∈ taken ↔ name ∈ taken')
    (h : FirstFault taken es f) : FirstFault taken' es f := by
  induction h generalizing taken' with
  | here fault => exact .here (fault.congr htaken)
  | later fresh compile tail ih =>
      refine .later (mt (htaken _).mpr fresh) compile (ih ?_)
      intro name
      rw [List.mem_cons, List.mem_cons, htaken]

theorem Faultless.cons (fresh : entry.1 ∉ taken) (compile : AllCompile entry.2)
    (h : Faultless (entry.1 :: taken) es) : Faultless taken (entry :: es) where
  fresh := by
    refine List.forall_mem_cons.mpr ⟨fresh, ?_⟩
    exact fun e he hmem => h.fresh e he (List.mem_cons_of_mem _ hmem)
  distinct := by
    refine List.nodup_cons.mpr ⟨?_, h.distinct⟩
    rintro hmem
    obtain ⟨e, he, heq⟩ := List.mem_map.mp hmem
    exact h.fresh e he (heq ▸ List.mem_cons_self)
  compile := List.forall_mem_cons.mpr ⟨compile, h.compile⟩

/-- A fault in the latter of two lists of declarations comes up where the former has none. -/
theorem FirstFault.of_append (h : FirstFault taken (es ++ es') f) :
    FirstFault taken es f ∨
      Faultless taken es ∧ FirstFault (es.map Prod.fst ++ taken) es' f := by
  induction es generalizing taken with
  | nil => exact .inr ⟨⟨by simp, .nil, by simp⟩, h⟩
  | cons entry es ih =>
      cases h with
      | here fault => exact .inl (.here fault)
      | later fresh compile tail =>
          rcases ih tail with hfault | ⟨hfaultless, hfault⟩
          · exact .inl (.later fresh compile hfault)
          · refine .inr ⟨hfaultless.cons fresh compile, hfault.congr fun name => ?_⟩
            simp only [List.map_cons, List.cons_append, List.mem_append, List.mem_cons]
            exact or_left_comm

/-- Bodies are patterns, or one of them is the first that is not. -/
theorem allCompile_or_rejected (bodies : List String) :
    AllCompile bodies ∨ ∃ before body after e, bodies = before ++ body :: after ∧
      AllCompile before ∧ Pattern.load body = .failed (Pattern.malformed body [e]) := by
  induction bodies with
  | nil => exact .inl (by simp [AllCompile])
  | cons body bodies ih =>
      cases hcompile : Pattern.compile body with
      | done r =>
          have hbody : ∃ r, Pattern.compile body = .done r := ⟨r, hcompile⟩
          rcases ih with hall | ⟨before, other, after, e, rfl, hbefore, hfails⟩
          · exact .inl (List.forall_mem_cons.mpr ⟨hbody, hall⟩)
          · exact .inr ⟨body :: before, other, after, e, rfl,
              List.forall_mem_cons.mpr ⟨hbody, hbefore⟩, hfails⟩
      | failed f =>
          obtain ⟨e, -, rfl⟩ := Pattern.compile_eq_failed_iff.mp hcompile
          refine .inr ⟨[], body, bodies, e, rfl, by simp [AllCompile], ?_⟩
          rw [Pattern.load_eq_compile, hcompile]
      | endless => exact absurd hcompile (Pattern.compile_ne_endless body)

theorem faultless_or_firstFault (taken : List String) (es : List Entry) :
    Faultless taken es ∨ ∃ f, FirstFault taken es f := by
  induction es generalizing taken with
  | nil => exact .inl ⟨by simp, .nil, by simp⟩
  | cons entry es ih =>
      obtain ⟨name, bodies⟩ := entry
      by_cases hname : name ∈ taken
      · exact .inr ⟨_, .here (.duplicate hname)⟩
      rcases allCompile_or_rejected bodies with hall | ⟨before, body, after, e, rfl, hbefore, he⟩
      · rcases ih (name :: taken) with hfaultless | ⟨f, hf⟩
        · exact .inl (hfaultless.cons hname hall)
        · exact .inr ⟨f, .later hname hall hf⟩
      · exact .inr ⟨_, .here (.rejected hname hbefore he)⟩

theorem declare_eq_failed {name : String} (h : name ∈ taken) :
    (liftM (declare taken name) : Outcome Unit) = .failed { cause := .duplicateRule name } := by
  rw [declare, if_pos h]
  rfl

theorem compileTokens_of_firstFault {sources : List (String × String)}
    (h : FirstFault taken (sources.map fun source => (source.1, [source.2])) f) :
    compileTokens taken sources = .failed f := by
  induction sources generalizing taken with
  | nil => cases h
  | cons source sources ih =>
      obtain ⟨name, body⟩ := source
      rw [List.map_cons] at h
      cases h with
      | here fault =>
          generalize hbodies : [body] = bodies at fault
          cases fault with
          | duplicate mem =>
              rw [compileTokens, declare_eq_failed mem]
              rfl
          | rejected fresh compile fails =>
              -- there is one body only, so nothing stands in front of it or behind it
              rcases List.append_eq_singleton_iff.mp hbodies.symm with ⟨rfl, hrest⟩ | ⟨-, hrest⟩
              · cases hrest
                rw [Pattern.load_eq_compile] at fails
                rw [compileTokens, declare_eq_done fresh]
                simp only [Outcome.bind_eq, Outcome.bind, fails]
              · cases hrest
      | later fresh compile tail =>
          obtain ⟨r, hr⟩ := compile body (List.mem_singleton_self body)
          rw [compileTokens, declare_eq_done fresh]
          simp only [Outcome.bind_eq, Outcome.bind, hr, ih tail]

theorem compile_of_describes {sources : List (String × String)}
    {kinds : List (String × Rule Char Char)} (h : List.Forall₂ Describes sources kinds) :
    ∀ source ∈ sources, ∃ r, Pattern.compile source.2 = .done r := by
  have hboth : List.Forall₂ (fun source kind =>
      (∃ r, Pattern.compile source.2 = .done r) ∧ Describes source kind) sources kinds :=
    h.imp fun source kind hdescribes => ⟨⟨kind.2, hdescribes.2⟩, hdescribes⟩
  exact ((List.forall₂_and_left _ _).mp hboth).1

/-- A text that is no pattern is not known, and so is compiled where it is mentioned. -/
theorem compileQuoted_of_rejected {found : List (String × Rule Char Char)} {known : List String}
    (hfound : List.Forall₂ Describes (known.map quotedSource) found)
    {before after : List String} {body : String} {e : Failure} (hbefore : AllCompile before)
    (hfails : Pattern.load body = .failed (Pattern.malformed body [e])) :
    compileQuoted found (before ++ body :: after) = .failed (Pattern.malformed body [e]) := by
  obtain ⟨found', hcompile, hfound'⟩ := compileQuoted_eq_done hfound hbefore
  rw [Pattern.load_eq_compile] at hfails
  -- all bodies that are known by then are patterns
  have hunknown : body ∉ mention known before := by
    intro hbody
    obtain ⟨r, hr⟩ := compile_of_describes hfound' _ (List.mem_map_of_mem hbody)
    have hdone : Pattern.compile body = .done r := hr
    rw [hfails] at hdone
    cases hdone
  rw [compileQuoted_append, hcompile, Outcome.bind, compileQuoted,
    if_neg (mt (mem_names_iff hfound').mp hunknown), hfails]
  rfl

theorem compileMentioned_of_firstFault {found : List (String × Rule Char Char)}
    {known : List String} (hfound : List.Forall₂ Describes (known.map quotedSource) found)
    {rules : List (String × Alternation)}
    (h : FirstFault taken (rules.map fun entry => (entry.1, entry.2.quotedBodies)) f) :
    compileMentioned taken found rules = .failed f := by
  induction rules generalizing taken found known with
  | nil => cases h
  | cons entry rules ih =>
      obtain ⟨name, alternatives⟩ := entry
      rw [List.map_cons] at h
      cases h with
      | here fault =>
          generalize hbodies : alternatives.quotedBodies = bodies at fault
          cases fault with
          | duplicate mem =>
              rw [compileMentioned, declare_eq_failed mem]
              rfl
          | rejected fresh compile fails =>
              rw [compileMentioned, declare_eq_done fresh, hbodies]
              simp only [Outcome.bind_eq, Outcome.bind,
                compileQuoted_of_rejected hfound compile fails]
      | later fresh compile tail =>
          obtain ⟨found', hcompile, hfound'⟩ := compileQuoted_eq_done hfound compile
          rw [compileMentioned, declare_eq_done fresh]
          simp only [Outcome.bind_eq, Outcome.bind, hcompile, ih hfound' tail]

variable {ds : List Declaration}

theorem map_fst_entries (ds : List Declaration) :
    (entries ds).map Prod.fst = (tokens ds).map Prod.fst ++ (rules ds).map Prod.fst := by
  rw [entries, List.map_append, List.map_map, List.map_map]
  rfl

theorem mem_entries {d : Declaration} (h : d ∈ ds) : (d.name, d.quotedBodies) ∈ entries ds := by
  rw [entries, List.mem_append, List.mem_map, List.mem_map]
  cases d with
  | token name body => exact .inl ⟨(name, body), mem_tokens_iff.mpr h, rfl⟩
  | rule name alternatives => exact .inr ⟨(name, alternatives), mem_rules_iff.mpr h, rfl⟩

/-- What has no fault and nothing wrong outside of quotes is well-formed. -/
theorem Faultless.allWellFormed (h : Faultless [] (entries ds)) (hsound : ∀ d ∈ ds, d.Sound)
    (hrules : rules ds ≠ []) : AllWellFormed ds where
  each d hd := (hsound d hd).wellFormed (h.compile _ (mem_entries hd))
  distinct := by
    have hnames := h.distinct
    rw [map_fst_entries] at hnames
    exact (names_perm ds).nodup_iff.mp hnames
  has_rule := hrules

theorem Faultless.compileTokens_eq_done {sources : List (String × String)}
    (h : Faultless taken (sources.map fun source => (source.1, [source.2]))) :
    ∃ kinds, compileTokens taken sources = .done kinds ∧
      List.Forall₂ Describes sources kinds := by
  refine Declaration.compileTokens_eq_done ?_ ?_ ?_
  · exact fun source hsource => h.fresh _ (List.mem_map_of_mem hsource)
  · have hnames := h.distinct
    rwa [List.map_map] at hnames
  · intro source hsource
    exact List.forall_mem_map.mp h.compile source hsource _ (List.mem_singleton_self _)

theorem ofDeclarations_of_firstFault (h : FirstFault [] (entries ds) f) :
    Parser.ofDeclarations ds = .failed f := by
  rcases h.of_append with htokens | ⟨hfaultless, hrules⟩
  · rw [Parser.ofDeclarations, compileTokens_of_firstFault htokens]
    rfl
  · obtain ⟨kinds, hkinds, hdescribes⟩ := hfaultless.compileTokens_eq_done
    have hnames : FirstFault (kinds.map Prod.fst) _ f := hrules.congr fun name => by
      rw [map_fst_of_describes hdescribes, List.append_nil, List.map_map]
      rfl
    have hnone : List.Forall₂ Describes (([] : List String).map quotedSource) [] := .nil
    rw [Parser.ofDeclarations, hkinds]
    simp only [Outcome.bind_eq, Outcome.bind, compileMentioned_of_firstFault hnone hnames]

/-- The failure of declarations among which there is no rule. -/
def noRules : Failure :=
  { cause := .malformed "grammar without parser rules" }

theorem ofDeclarations_of_nil (h : Faultless [] (entries ds)) (hrules : rules ds = []) :
    Parser.ofDeclarations ds = .failed noRules := by
  have htokens : Faultless [] ((tokens ds).map fun source => (source.1, [source.2])) := by
    simpa [entries, hrules] using h
  obtain ⟨kinds, hkinds, -⟩ := htokens.compileTokens_eq_done
  rw [Parser.ofDeclarations, hkinds, hrules]
  rfl

theorem ofDeclarations_eq_failed_iff (hsound : ∀ d ∈ ds, d.Sound) :
    Parser.ofDeclarations ds = .failed f ↔
      FirstFault [] (entries ds) f ∨ Faultless [] (entries ds) ∧ rules ds = [] ∧ f = noRules := by
  constructor
  · intro hfailed
    rcases faultless_or_firstFault [] (entries ds) with hfaultless | ⟨f', hfault⟩
    · by_cases hrules : rules ds = []
      · rw [ofDeclarations_of_nil hfaultless hrules] at hfailed
        cases hfailed
        exact .inr ⟨hfaultless, hrules, rfl⟩
      · obtain ⟨p, hp, -⟩ :=
          Parser.ofDeclarations_implements (hfaultless.allWellFormed hsound hrules)
        rw [hp] at hfailed
        cases hfailed
    · rw [ofDeclarations_of_firstFault hfault] at hfailed
      cases hfailed
      exact .inl hfault
  · rintro (hfault | ⟨hfaultless, hrules, rfl⟩)
    · exact ofDeclarations_of_firstFault hfault
    · exact ofDeclarations_of_nil hfaultless hrules

theorem ofDeclarations_eq_done_iff (hsound : ∀ d ∈ ds, d.Sound) :
    (∃ p, Parser.ofDeclarations ds = .done p ∧ p.Implements ds) ↔
      Faultless [] (entries ds) ∧ rules ds ≠ [] := by
  constructor
  · rintro ⟨p, hp, -⟩
    rcases faultless_or_firstFault [] (entries ds) with hfaultless | ⟨f, hfault⟩
    · refine ⟨hfaultless, fun hrules => ?_⟩
      rw [ofDeclarations_of_nil hfaultless hrules] at hp
      cases hp
    · rw [ofDeclarations_of_firstFault hfault] at hp
      cases hp
  · rintro ⟨hfaultless, hrules⟩
    exact Parser.ofDeclarations_implements (hfaultless.allWellFormed hsound hrules)

/-- A source that is not made of declarations is malformed, because of the one failure to
parse it. Any other source has declarations, which are written with its words, and loading it
fails with their first fault, or else because there is no rule among them. Where neither is
so, there is a parser, and it does what the declarations say. -/
theorem load_first_fault (src : String) :
    load src ≠ .endless ∧
    (∀ e, parser.parse src = .failed e → load src = .failed (malformed [e])) ∧
    ∀ tree, parser.parse src = .done tree → ∃ ds ts, parse src = .done ds ∧
      lexer.tokens src = .done ts ∧ ds.flatMap lexemes = words ts ∧
      (∀ f, load src = .failed f ↔ FirstFault [] (entries ds) f ∨
        Faultless [] (entries ds) ∧ rules ds = [] ∧ f = noRules) ∧
      ((∃ p, load src = .done p ∧ p.Implements ds) ↔
        Faultless [] (entries ds) ∧ rules ds ≠ []) := by
  refine ⟨?_, fun e he => load_of_failed he, ?_⟩
  · rw [load_eq_ofSource]
    exact Parser.ofSource_ne_endless src
  · intro tree htree
    obtain ⟨ds, ts, hds, hts, hwritten, hsound⟩ := exists_parse htree
    refine ⟨ds, ts, hds, hts, hwritten, ?_⟩
    rw [load_of_parse htree hds]
    exact ⟨fun f => ofDeclarations_eq_failed_iff hsound, ofDeclarations_eq_done_iff hsound⟩

/-- A rule and a kind of token that are called the same. -/
private def sameNames : List Declaration :=
  [.rule "a" [[.quoted "x" none]], .token "a" "y"]

private theorem wellQuoted_x : WellQuoted "x" :=
  .of_printAll [.atom (.plain ⟨'x', by decide⟩) none] rfl rfl

private theorem wellQuoted_y : WellQuoted "y" :=
  .of_printAll [.atom (.plain ⟨'y', by decide⟩) none] rfl rfl

private theorem sameNames_wellFormed : ∀ d ∈ sameNames, d.WellFormed := by
  have hrule : Alternation.WellFormed [[.quoted "x" none]] := by
    refine ⟨by simp, by simp, ?_⟩
    simp only [List.forall_mem_singleton]
    exact .quoted wellQuoted_x none
  rw [sameNames, List.forall_mem_cons, List.forall_mem_singleton]
  exact ⟨.rule rfl hrule, .token rfl wellQuoted_y⟩

/-- The rule comes first, but it is the one at fault. -/
theorem load_first_fault_duplicate :
    (∃ e, parser.parse "\"" = .failed e ∧ load "\"" = .failed (malformed [e])) ∧
      (∃ tree, parser.parse (print sameNames) = .done tree) ∧
      FirstFault [] (entries sameNames) { cause := .duplicateRule "a" } ∧
      load (print sameNames) = .failed { cause := .duplicateRule "a" } := by
  have hunclosed : ∃ e, parser.parse "\"" = .failed e := ⟨_, rfl⟩
  obtain ⟨e, he⟩ := hunclosed
  have hparse := parse_print sameNames_wellFormed
  have htree : ∃ tree, parser.parse (print sameNames) = .done tree := by
    simp only [parse, Outcome.bind_eq, Outcome.bind_eq_done_iff,
      Outcome.mapFailure_eq_done_iff] at hparse
    obtain ⟨tree, h, -⟩ := hparse
    exact ⟨tree, h⟩
  obtain ⟨tree, h⟩ := htree
  obtain ⟨ds, ts, hds, -, -, hfailed, -⟩ := (load_first_fault (print sameNames)).2.2 tree h
  obtain rfl : sameNames = ds := Outcome.done.inj (hparse.symm.trans hds)
  have hcompile : AllCompile ["y"] := List.forall_mem_singleton.mpr wellQuoted_y.compiles
  have hfault : FirstFault [] (entries sameNames) { cause := .duplicateRule "a" } :=
    .later List.not_mem_nil hcompile (.here (.duplicate List.mem_cons_self))
  exact ⟨⟨e, he, (load_first_fault "\"").2.1 e he⟩, ⟨tree, h⟩, hfault,
    (hfailed _).mpr (.inl hfault)⟩

end Peg.Declaration
