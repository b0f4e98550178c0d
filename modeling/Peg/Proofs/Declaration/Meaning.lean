import Peg.Proofs.Declaration.Completeness

/-!
What well-formed declarations compile to. Names are declared once, bodies compile, and a
quotation is known just if its body was mentioned before. So nothing that compiling checks
fails, and the kinds and rules of the parser are those that the declarations list.
-/

namespace Peg

namespace Declaration

theorem map_fst_of_describes {sources : List (String × String)}
    {kinds : List (String × Rule Char Char)} (h : List.Forall₂ Describes sources kinds) :
    kinds.map Prod.fst = sources.map Prod.fst := by
  induction h with
  | nil => rfl
  | cons head tail ih => rw [List.map_cons, List.map_cons, head.1, ih]

theorem declare_eq_done {taken : List String} {name : String} (h : name ∉ taken) :
    (liftM (declare taken name) : Outcome Unit) = .done () := by
  rw [declare, if_neg h]
  rfl

/-- To declare a name leaves free all names that it differs from. -/
theorem not_taken {β : Type} {taken : List String} {name : String}
    {entries : List (String × β)} (hname : name ∉ entries.map Prod.fst)
    (h : ∀ entry ∈ entries, entry.1 ∉ taken) : ∀ entry ∈ entries, entry.1 ∉ name :: taken := by
  intro entry hentry hmem
  rcases List.mem_cons.mp hmem with heq | hmem
  · have hmap : entry.1 ∈ entries.map Prod.fst := List.mem_map_of_mem hentry
    exact hname (heq ▸ hmap)
  · exact h entry hentry hmem

/-- Distinct names with bodies that compile are kinds of token. -/
theorem compileTokens_eq_done {taken : List String} {sources : List (String × String)}
    (htaken : ∀ source ∈ sources, source.1 ∉ taken)
    (hdistinct : (sources.map Prod.fst).Nodup)
    (hbodies : ∀ source ∈ sources, ∃ r, Pattern.compile source.2 = .done r) :
    ∃ kinds, compileTokens taken sources = .done kinds ∧
      List.Forall₂ Describes sources kinds := by
  induction sources generalizing taken with
  | nil => exact ⟨[], rfl, .nil⟩
  | cons source sources ih =>
      obtain ⟨name, body⟩ := source
      obtain ⟨hname, hnames⟩ := List.forall_mem_cons.mp htaken
      obtain ⟨⟨r, hr⟩, hrest⟩ := List.forall_mem_cons.mp hbodies
      obtain ⟨hnotin, hdistinct⟩ := List.nodup_cons.mp hdistinct
      obtain ⟨kinds, hkinds, hdescribes⟩ := ih (not_taken hnotin hnames) hdistinct hrest
      refine ⟨(name, r) :: kinds, ?_, .cons ⟨rfl, hr⟩ hdescribes⟩
      have hcompile : Pattern.compile body = .done r := hr
      simp [compileTokens, declare_eq_done hname, hcompile, hkinds, Outcome.bind]

/-- Nothing but what the sources describe is a declared kind of token. -/
theorem describes_of_compileTokens {taken : List String} {sources : List (String × String)}
    {kinds : List (String × Rule Char Char)} (h : compileTokens taken sources = .done kinds) :
    List.Forall₂ Describes sources kinds := by
  induction sources generalizing taken kinds with
  | nil =>
      cases h
      exact .nil
  | cons source sources ih =>
      simp only [compileTokens, Outcome.bind_eq, Outcome.bind_eq_done_iff] at h
      obtain ⟨_, -, r, hr, rest, hrest, heq⟩ := h
      cases heq
      exact .cons ⟨rfl, hr⟩ (ih hrest)

/-- A quoted pattern is a kind of token that is called what it is written as. -/
def quotedSource (body : String) : String × String :=
  (quotation body, body)

theorem quotation_injective {body body' : String} (h : quotation body = quotation body') :
    body = body' := by
  have hlist := congrArg String.toList h
  rw [toList_quotation, toList_quotation] at hlist
  have htail := (List.cons.inj hlist).2
  exact String.toList_inj.mp (List.append_cancel_right htail)

theorem isIdentifier_quotation (body : String) : isIdentifier (quotation body) = false := by
  rw [isIdentifier, toList_quotation]
  rfl

theorem mem_names_iff {found : List (String × Rule Char Char)} {known : List String}
    (h : List.Forall₂ Describes (known.map quotedSource) found) {body : String} :
    quotation body ∈ found.map Prod.fst ↔ body ∈ known := by
  rw [map_fst_of_describes h, List.map_map, List.mem_map]
  constructor
  · rintro ⟨body', hbody', heq⟩
    exact quotation_injective heq ▸ hbody'
  · intro hbody
    exact ⟨body, hbody, rfl⟩

/-- The bodies known after some more are mentioned. -/
def mention (known bodies : List String) : List String :=
  known ++ (bodies.filter (· ∉ known)).eraseDups

theorem mention_of_mem {known : List String} {body : String} (h : body ∈ known)
    (bodies : List String) : mention known (body :: bodies) = mention known bodies := by
  simp [mention, h]

theorem mention_of_not_mem {known : List String} {body : String} (h : body ∉ known)
    (bodies : List String) :
    mention known (body :: bodies) = mention (known ++ [body]) bodies := by
  have hfilter : (bodies.filter (· ∉ known)).filter (fun b => !b == body) =
      bodies.filter (· ∉ known ++ [body]) := by
    rw [List.filter_filter]
    refine List.filter_congr ?_
    intro b _
    by_cases hb : b = body
    · simp [hb]
    · simp [hb]
  rw [mention, List.filter_cons_of_pos (by simpa using h), List.eraseDups_cons, hfilter, mention,
    List.append_assoc, List.singleton_append]

theorem mention_nodup {known : List String} (h : known.Nodup) (bodies : List String) :
    (mention known bodies).Nodup := by
  induction bodies generalizing known with
  | nil => simpa [mention] using h
  | cons body bodies ih =>
      by_cases hbody : body ∈ known
      · rw [mention_of_mem hbody]
        exact ih h
      · rw [mention_of_not_mem hbody]
        apply ih
        rw [List.nodup_append]
        refine ⟨h, by simp, ?_⟩
        rintro b hb c hc rfl
        exact hbody (List.mem_singleton.mp hc ▸ hb)

/-- Each body is compiled where it is mentioned first. -/
theorem compileQuoted_eq_done {found : List (String × Rule Char Char)} {known : List String}
    (hfound : List.Forall₂ Describes (known.map quotedSource) found) {bodies : List String}
    (hbodies : ∀ body ∈ bodies, ∃ r, Pattern.compile body = .done r) :
    ∃ found', compileQuoted found bodies = .done found' ∧
      List.Forall₂ Describes ((mention known bodies).map quotedSource) found' := by
  induction bodies generalizing found known with
  | nil => exact ⟨found, rfl, by simpa [mention] using hfound⟩
  | cons body bodies ih =>
      obtain ⟨⟨r, hr⟩, hbodies⟩ := List.forall_mem_cons.mp hbodies
      rw [compileQuoted]
      by_cases hbody : body ∈ known
      · rw [if_pos ((mem_names_iff hfound).mpr hbody), mention_of_mem hbody]
        exact ih hfound hbodies
      · rw [if_neg (mt (mem_names_iff hfound).mp hbody), mention_of_not_mem hbody, hr]
        have hnew : List.Forall₂ Describes ((known ++ [body]).map quotedSource)
            (found ++ [(quotation body, r)]) := by
          rw [List.map_append]
          exact List.rel_append hfound (.cons ⟨rfl, hr⟩ .nil)
        exact ih hnew hbodies

theorem describes_of_compileQuoted {found found' : List (String × Rule Char Char)}
    {known bodies : List String}
    (hfound : List.Forall₂ Describes (known.map quotedSource) found)
    (h : compileQuoted found bodies = .done found') :
    List.Forall₂ Describes ((mention known bodies).map quotedSource) found' := by
  induction bodies generalizing found known with
  | nil =>
      cases h
      simpa [mention] using hfound
  | cons body bodies ih =>
      rw [compileQuoted] at h
      by_cases hbody : body ∈ known
      · rw [if_pos ((mem_names_iff hfound).mpr hbody)] at h
        rw [mention_of_mem hbody]
        exact ih hfound h
      · rw [if_neg (mt (mem_names_iff hfound).mp hbody)] at h
        obtain ⟨r, hr, hrest⟩ := Outcome.bind_eq_done_iff.mp h
        rw [mention_of_not_mem hbody]
        refine ih ?_ hrest
        rw [List.map_append]
        exact List.rel_append hfound (.cons ⟨rfl, hr⟩ .nil)

theorem compileQuoted_append (found : List (String × Rule Char Char)) (bs cs : List String) :
    compileQuoted found (bs ++ cs) =
      (compileQuoted found bs).bind fun found => compileQuoted found cs := by
  induction bs generalizing found with
  | nil => rfl
  | cons b bs ih =>
      rw [List.cons_append, compileQuoted, compileQuoted]
      by_cases hb : quotation b ∈ found.map Prod.fst
      · rw [if_pos hb, if_pos hb, ih]
      · rw [if_neg hb, if_neg hb]
        cases hr : Pattern.compile b with
        | done r => exact ih _
        | failed f => rfl
        | endless => rfl

/-- Where no rule takes a name that is declared already, what rules mention is compiled as
if one rule mentioned it all. -/
theorem compileMentioned_eq {taken : List String} {entries : List (String × Alternation)}
    (htaken : ∀ entry ∈ entries, entry.1 ∉ taken)
    (hdistinct : (entries.map Prod.fst).Nodup) (found : List (String × Rule Char Char)) :
    compileMentioned taken found entries =
      compileQuoted found (entries.flatMap fun entry => entry.2.quotedBodies) := by
  induction entries generalizing taken found with
  | nil => rfl
  | cons entry entries ih =>
      obtain ⟨name, alternatives⟩ := entry
      obtain ⟨hname, hnames⟩ := List.forall_mem_cons.mp htaken
      obtain ⟨hnotin, hdistinct⟩ := List.nodup_cons.mp hdistinct
      have hrest := ih (not_taken hnotin hnames) hdistinct
      rw [List.flatMap_cons, compileQuoted_append]
      simp [compileMentioned, declare_eq_done hname, hrest, Outcome.bind]

/-- What rules mention is compiled in their order. -/
theorem compileQuoted_of_compileMentioned {taken : List String}
    {entries : List (String × Alternation)} {found found' : List (String × Rule Char Char)}
    (h : compileMentioned taken found entries = .done found') :
    compileQuoted found (entries.flatMap fun entry => entry.2.quotedBodies) = .done found' := by
  induction entries generalizing taken found with
  | nil => exact h
  | cons entry entries ih =>
      simp only [compileMentioned, Outcome.bind_eq, Outcome.bind_eq_done_iff] at h
      obtain ⟨_, -, found₁, hfound, hrest⟩ := h
      rw [List.flatMap_cons, compileQuoted_append, Outcome.bind_eq_done_iff]
      exact ⟨found₁, hfound, ih hrest⟩

theorem mem_quotedBodies_iff {alternatives : Alternation} {body : String} :
    body ∈ alternatives.quotedBodies ↔
      ∃ ts ∈ alternatives, ∃ t ∈ ts, body ∈ t.quotedBodies := by
  simp only [Alternation.quotedBodies_eq_flatMap, Term.allQuotedBodies_eq_flatMap,
    List.mem_flatMap]

theorem quotedBodies_compile {t : Term} (h : t.WellFormed) :
    ∀ body ∈ t.quotedBodies, ∃ r, Pattern.compile body = .done r := by
  induction h with
  | name hid repetition => simp [Term.quotedBodies]
  | quoted hbody repetition => simpa [Term.quotedBodies] using hbody.compiles
  | group nonempty sequences terms repetition ih =>
      intro body hbody
      obtain ⟨ts, hts, t, ht, hbody⟩ := mem_quotedBodies_iff.mp hbody
      exact ih ts hts t ht body hbody

theorem bodies_compile {alternatives : Alternation} (h : alternatives.WellFormed) :
    ∀ body ∈ alternatives.quotedBodies, ∃ r, Pattern.compile body = .done r := by
  intro body hbody
  obtain ⟨ts, hts, t, ht, hbody⟩ := mem_quotedBodies_iff.mp hbody
  exact quotedBodies_compile (h.terms ts hts t ht) body hbody

variable {ds : List Declaration}

theorem mentioned_eq_mention (ds : List Declaration) :
    mentioned ds = mention [] ((rules ds).flatMap fun entry => entry.2.quotedBodies) := by
  simp [mentioned, mention]

theorem mentioned_nodup (ds : List Declaration) : (mentioned ds).Nodup := by
  rw [mentioned_eq_mention]
  exact mention_nodup .nil _

theorem map_fst_kindSources (ds : List Declaration) :
    (kindSources ds).map Prod.fst = (mentioned ds).map quotation ++ (tokens ds).map Prod.fst := by
  rw [kindSources, List.map_append, List.map_map]
  rfl

theorem mem_tokens_iff {source : String × String} :
    source ∈ tokens ds ↔ .token source.1 source.2 ∈ ds := by
  rw [tokens, List.mem_filterMap]
  constructor
  · rintro ⟨d, hd, hsource⟩
    cases d with
    | token name body =>
        cases hsource
        exact hd
    | rule name alternatives => cases hsource
  · intro h
    exact ⟨_, h, rfl⟩

theorem mem_rules_iff {entry : String × Alternation} :
    entry ∈ rules ds ↔ .rule entry.1 entry.2 ∈ ds := by
  rw [rules, List.mem_filterMap]
  constructor
  · rintro ⟨d, hd, hentry⟩
    cases d with
    | token name body => cases hentry
    | rule name alternatives =>
        cases hentry
        exact hd
  · intro h
    exact ⟨_, h, rfl⟩

/-- The names of kinds and of rules are all names that are declared. -/
theorem names_perm (ds : List Declaration) :
    ((tokens ds).map Prod.fst ++ (rules ds).map Prod.fst).Perm (ds.map name) := by
  induction ds with
  | nil => exact .nil
  | cons d ds ih =>
      cases d with
      | token name body => exact ih.cons name
      | rule name alternatives => exact List.perm_middle.trans (ih.cons name)

namespace AllWellFormed

theorem names_nodup (h : AllWellFormed ds) :
    ((tokens ds).map Prod.fst ++ (rules ds).map Prod.fst).Nodup :=
  (names_perm ds).nodup_iff.mpr h.distinct

theorem tokens_compile (h : AllWellFormed ds) :
    ∀ source ∈ tokens ds, ∃ r, Pattern.compile source.2 = .done r := by
  intro source hsource
  cases h.each _ (mem_tokens_iff.mp hsource) with
  | token hname hbody => exact hbody.compiles

theorem isIdentifier_token (h : AllWellFormed ds) :
    ∀ source ∈ tokens ds, isIdentifier source.1 = true := by
  intro source hsource
  cases h.each _ (mem_tokens_iff.mp hsource) with
  | token hname hbody => exact hname

theorem rules_compile (h : AllWellFormed ds) :
    ∀ body ∈ (rules ds).flatMap (fun entry => entry.2.quotedBodies),
      ∃ r, Pattern.compile body = .done r := by
  intro body hbody
  obtain ⟨entry, hentry, hbody⟩ := List.mem_flatMap.mp hbody
  cases h.each _ (mem_rules_iff.mp hentry) with
  | rule hname halternatives => exact bodies_compile halternatives body hbody

/-- No identifier is a quotation. -/
theorem kindSources_nodup (h : AllWellFormed ds) : ((kindSources ds).map Prod.fst).Nodup := by
  have hquoted : ((mentioned ds).map quotation).Nodup :=
    (mentioned_nodup ds).map fun _ _ => quotation_injective
  have hdeclared : ((tokens ds).map Prod.fst).Nodup := h.names_nodup.of_append_left
  rw [map_fst_kindSources, List.nodup_append]
  refine ⟨hquoted, hdeclared, ?_⟩
  rintro _ hquotation name hname rfl
  obtain ⟨body, -, rfl⟩ := List.mem_map.mp hquotation
  obtain ⟨source, hsource, heq⟩ := List.mem_map.mp hname
  have hid := h.isIdentifier_token source hsource
  rw [heq, isIdentifier_quotation] at hid
  cases hid

/-- The names that lexers add begin neither as identifiers nor as quotations do. -/
theorem not_mem_kindSources (h : AllWellFormed ds) {name : String}
    (hname : name.toList.head? = some '<') : name ∉ (kindSources ds).map Prod.fst := by
  rw [map_fst_kindSources]
  intro hmem
  rcases List.mem_append.mp hmem with hmem | hmem
  · obtain ⟨body, -, rfl⟩ := List.mem_map.mp hmem
    rw [toList_quotation] at hname
    simp at hname
  · obtain ⟨source, hsource, rfl⟩ := List.mem_map.mp hmem
    have hid := h.isIdentifier_token source hsource
    rw [isIdentifier] at hid
    cases hcs : source.1.toList with
    | nil => simp [hcs] at hname
    | cons c cs =>
        rw [hcs] at hname hid
        obtain rfl : c = '<' := by simpa using hname
        simp [isLetter] at hid

theorem kindNames_nodup (h : AllWellFormed ds) :
    (Lexer.rootName :: Lexer.tokenName :: (kindSources ds).map Prod.fst).Nodup := by
  refine List.nodup_cons.mpr ⟨?_, List.nodup_cons.mpr ⟨?_, h.kindSources_nodup⟩⟩
  · intro hmem
    rcases List.mem_cons.mp hmem with heq | hmem
    · exact absurd heq (by decide)
    · exact h.not_mem_kindSources rfl hmem
  · exact h.not_mem_kindSources rfl

/-- Every mentioned body is compiled once. -/
theorem compileMentioned_eq_done (h : AllWellFormed ds) :
    ∃ found, compileMentioned ((tokens ds).map Prod.fst) [] (rules ds) = .done found ∧
      List.Forall₂ Describes ((mentioned ds).map quotedSource) found := by
  rw [compileMentioned_eq ?_ h.names_nodup.of_append_right, mentioned_eq_mention]
  · exact compileQuoted_eq_done .nil h.rules_compile
  · intro entry hentry hmem
    exact List.disjoint_of_nodup_append h.names_nodup hmem (List.mem_map_of_mem hentry)

end AllWellFormed

end Declaration

namespace Parser

open Declaration

variable {ds : List Declaration}

/-- Declarations are compiled if all that this takes is. -/
theorem ofDeclarations_eq_done {kinds found : List (String × Rule Char Char)} {start : String}
    {alternatives : Alternation} {rest : List (String × Alternation)} {l : Lexer}
    {g : Grammar Token String} (hkinds : compileTokens [] (tokens ds) = .done kinds)
    (hfound : compileMentioned (kinds.map Prod.fst) [] (rules ds) = .done found)
    (hrules : rules ds = (start, alternatives) :: rest)
    (hlexer : Lexer.ofKinds (found ++ kinds) = .ok l)
    (hgrammar : Grammar.ofRules start ((rules ds).map fun entry =>
      (entry.1, entry.2.meaning (kinds.map Prod.fst).contains)) = .ok g) :
    ofDeclarations ds = .done ⟨l, g⟩ := by
  rw [ofDeclarations, hkinds]
  simp only [Outcome.bind_eq, Outcome.bind, hfound]
  split
  · rename_i hnil
    rw [hrules] at hnil
    cases hnil
  · rename_i heq
    rw [hrules] at heq
    cases heq
    rw [hlexer, hgrammar]
    rfl

/-- Whatever declarations a parser is compiled from, it is the one that they describe. -/
theorem implements_of_ofDeclarations {p : Parser} (h : ofDeclarations ds = .done p) :
    p.Implements ds := by
  simp only [ofDeclarations, Outcome.bind_eq, Outcome.bind_eq_done_iff] at h
  obtain ⟨kinds, hkinds, found, hfound, h⟩ := h
  have hdeclared := describes_of_compileTokens hkinds
  have hmentioned : List.Forall₂ Describes ((mentioned ds).map quotedSource) found := by
    rw [mentioned_eq_mention]
    exact describes_of_compileQuoted .nil (compileQuoted_of_compileMentioned hfound)
  split at h
  · cases h
  · rename_i start alternatives rest hrules
    simp only [Outcome.bind_eq_done_iff] at h
    obtain ⟨l, hl, g, hg, heq⟩ := h
    cases heq
    obtain ⟨hlexerKinds, hdispatch, hhidden⟩ :=
      Lexer.of_ofKinds (Outcome.ofExcept_eq_done_iff.mp hl)
    obtain ⟨hstart, hrulesOf⟩ := Grammar.of_ofRules (Outcome.ofExcept_eq_done_iff.mp hg)
    refine ⟨?_, ?_, ?_, hdispatch, hhidden⟩
    · rw [hrules, hstart]
      rfl
    · rw [hrulesOf, map_fst_of_describes hdeclared]
      rfl
    · rw [hlexerKinds]
      exact List.rel_append hmentioned hdeclared

/-- Well-formed declarations are compiled to the parser that they describe. -/
theorem ofDeclarations_implements (h : AllWellFormed ds) :
    ∃ p, ofDeclarations ds = .done p ∧ p.Implements ds := by
  obtain ⟨kinds, hkinds, hdescribes⟩ :=
    compileTokens_eq_done (fun _ _ => List.not_mem_nil) h.names_nodup.of_append_left
      h.tokens_compile
  have hnames : kinds.map Prod.fst = (tokens ds).map Prod.fst := map_fst_of_describes hdescribes
  obtain ⟨found, hfound, hall⟩ := h.compileMentioned_eq_done
  rw [← hnames] at hfound
  have hlexer : List.Forall₂ Describes (kindSources ds) (found ++ kinds) :=
    List.rel_append hall hdescribes
  have hkindNames := h.kindNames_nodup
  rw [← map_fst_of_describes hlexer] at hkindNames
  obtain ⟨⟨start, alternatives⟩, rest, hrules⟩ := List.exists_cons_of_ne_nil h.has_rule
  let meanings := (rules ds).map fun entry => (entry.1, entry.2.meaning (isTokenName ds))
  have hfst : meanings.map Prod.fst = (rules ds).map Prod.fst := by
    rw [List.map_map]
    rfl
  have hdistinct : (meanings.map Prod.fst).Nodup := hfst ▸ h.names_nodup.of_append_right
  have hstart : start ∈ meanings.map Prod.fst := by
    rw [hfst, hrules]
    exact List.mem_cons_self
  have hgrammar := Grammar.ofRules_eq_ok hdistinct hstart
  have hp := ofDeclarations_eq_done hkinds hfound hrules
    (Lexer.ofKinds_eq_ok hkindNames .firstMatch Lexer.hiddenByName)
    (by rw [hnames]; exact hgrammar)
  exact ⟨_, hp, implements_of_ofDeclarations hp⟩

/-- A source of well-formed declarations describes the parser that they do. -/
theorem ofSource_implements (h : AllWellFormed ds) {src : String}
    (hds : Declaration.parse src = .done ds) :
    ∃ p, ofSource src = .done p ∧ p.Implements ds := by
  obtain ⟨p, hp, himplements⟩ := ofDeclarations_implements h
  refine ⟨p, ?_, himplements⟩
  rw [ofSource, hds]
  exact hp

end Parser

end Peg
