import Peg.Grammar.Indexed

/-!
Indices that fit their rules. Filling a table one rule at a time keeps the index in step
with the rules: a name has the position at which its rule stands, and no other name has
one. So a table that is filled without a repeated name finds each rule under its name and
never looks beyond its end, and an indexed grammar does what a grammar without an index
does.
-/

namespace Peg

theorem getElem?_append_singleton_eq_some_iff {β : Type} {xs : List β} {x y : β} {i : Nat} :
    (xs ++ [x])[i]? = some y ↔ xs[i]? = some y ∨ i = xs.length ∧ x = y := by
  rcases Nat.lt_trichotomy i xs.length with hlt | rfl | hgt
  · simp [List.getElem?_append_left hlt, hlt.ne]
  · simp
  · have hbehind : (xs ++ [x]).length ≤ i := by rwa [List.length_append, List.length_singleton]
    rw [List.getElem?_eq_none hbehind, List.getElem?_eq_none hgt.le]
    simp [hgt.ne']

/-- Pairs that compare as equal have equal first parts if these are compared lawfully. -/
theorem map_fst_eq_of_beq {β γ : Type} [BEq β] [LawfulBEq β] [BEq γ] {xs ys : List (β × γ)}
    (h : (xs == ys) = true) : xs.map Prod.fst = ys.map Prod.fst := by
  induction xs generalizing ys with
  | nil =>
      cases ys with
      | nil => rfl
      | cons y ys => cases h
  | cons x xs ih =>
      cases ys with
      | nil => cases h
      | cons y ys =>
          obtain ⟨hhead, htail⟩ := Bool.and_eq_true_iff.mp h
          obtain ⟨hfst, -⟩ := Bool.and_eq_true_iff.mp hhead
          rw [List.map_cons, List.map_cons, eq_of_beq hfst, ih htail]

namespace RuleTable

variable {α κ : Type} {t u : RuleTable α κ} {rules more : List (String × Rule α κ)}
  {entry : String × Rule α κ} {name : String} {r : Rule α κ} {pos : Nat}

/-- A table of some rules: these are its entries, and the index has each name at the
position of its rule. -/
structure Holds (t : RuleTable α κ) (rules : List (String × Rule α κ)) : Prop where
  entries : t.entries.toList = rules
  positions (name : String) (pos : Nat) :
    t.positions[name]? = some pos ↔ (rules.map Prod.fst)[pos]? = some name

theorem holds_empty : Holds ({} : RuleTable α κ) [] where
  entries := rfl
  positions := by simp

namespace Holds

theorem size_eq (h : t.Holds rules) : t.entries.size = rules.length := by
  rw [← h.entries, Array.length_toList]

theorem mem_positions_iff (h : t.Holds rules) :
    name ∈ t.positions ↔ name ∈ rules.map Prod.fst := by
  rw [Std.HashMap.mem_iff_isSome_getElem?, Option.isSome_iff_exists, List.mem_iff_getElem?]
  exact exists_congr fun pos => h.positions name pos

theorem positions_eq_none (h : t.Holds rules) (hname : name ∉ rules.map Prod.fst) :
    t.positions[name]? = none :=
  Std.HashMap.getElem?_eq_none (mt h.mem_positions_iff.mp hname)

theorem exists_rule (h : t.Holds rules) (hpos : t.positions[name]? = some pos) :
    ∃ r, rules[pos]? = some (name, r) := by
  have hname := (h.positions name pos).mp hpos
  rw [List.getElem?_map, Option.map_eq_some_iff] at hname
  obtain ⟨⟨name, r⟩, hrule, rfl⟩ := hname
  exact ⟨r, hrule⟩

theorem lt_size (h : t.Holds rules) (hpos : t.positions[name]? = some pos) :
    pos < t.entries.size := by
  obtain ⟨r, hr⟩ := h.exists_rule hpos
  exact h.size_eq ▸ (List.getElem?_eq_some_iff.mp hr).1

theorem ruleAt_eq (h : t.Holds rules) (hr : rules[pos]? = some (name, r)) :
    t.ruleAt pos = .ok r := by
  rw [← h.entries, Array.getElem?_toList] at hr
  rw [ruleAt, hr]

theorem rule?_eq (h : t.Holds rules) (hr : rules[pos]? = some (name, r)) :
    t.rule? name = .ok (some r) := by
  have hpos : t.positions[name]? = some pos := by
    rw [h.positions, List.getElem?_map, hr, Option.map_some]
  rw [rule?, hpos]
  exact congrArg (some <$> ·) (h.ruleAt_eq hr)

theorem rule?_of_mem (h : t.Holds rules) (hmem : (name, r) ∈ rules) :
    t.rule? name = .ok (some r) := by
  obtain ⟨pos, hpos⟩ := List.getElem?_of_mem hmem
  exact h.rule?_eq hpos

theorem rule?_of_not_mem (h : t.Holds rules) (hname : name ∉ rules.map Prod.fst) :
    t.rule? name = .ok none := by
  rw [rule?, h.positions_eq_none hname]

/-- The names and their order settle what an index has. -/
theorem positions_beq (ht : t.Holds rules) (hu : u.Holds more)
    (hnames : rules.map Prod.fst = more.map Prod.fst) :
    (t.positions == u.positions) = true := by
  refine Std.HashMap.Equiv.beq (.of_forall_getElem?_eq fun name => Option.ext fun pos => ?_)
  rw [ht.positions, hu.positions, hnames]

/-- A rule under a new name takes the next position, and no other rule moves. -/
theorem push (h : t.Holds rules) (hnew : entry.1 ∉ rules.map Prod.fst) :
    Holds
      { entries := t.entries.push entry
        positions := t.positions.insert entry.1 t.entries.size }
      (rules ++ [entry]) where
  entries := by rw [Array.toList_push, h.entries]
  positions name pos := by
    rw [Std.HashMap.getElem?_insert, List.map_append, List.map_singleton,
      getElem?_append_singleton_eq_some_iff, List.length_map, ← h.size_eq]
    by_cases hname : entry.1 = name
    · have hnone : (rules.map Prod.fst)[pos]? ≠ some name := by
        intro hpos
        exact hnew (hname ▸ List.mem_of_getElem? hpos)
      simp only [hname, hnone, beq_self_eq_true, if_true, Option.some.injEq, false_or, and_true]
      exact eq_comm
    · simp [hname, h.positions]

theorem add_new (h : t.Holds rules) (hnew : entry.1 ∉ rules.map Prod.fst) :
    ∃ u, t.add entry = .ok u ∧ u.Holds (rules ++ [entry]) :=
  ⟨_, add_of_not_mem (mt h.mem_positions_iff.mp hnew), h.push hnew⟩

theorem add_repeated (h : t.Holds rules) (hmem : entry.1 ∈ rules.map Prod.fst) :
    t.add entry = .error { cause := .duplicateRule entry.1 } :=
  add_of_mem (h.mem_positions_iff.mpr hmem)

/-- Rules are all added as long as no name comes a second time. -/
theorem foldlM_add (h : t.Holds rules) (hdistinct : ((rules ++ more).map Prod.fst).Nodup) :
    ∃ u, more.foldlM add t = .ok u ∧ u.Holds (rules ++ more) := by
  -- The induction is on the rules to come; those in the table grow by one at each.
  induction more generalizing t rules with
  | nil => exact ⟨t, rfl, by rwa [List.append_nil]⟩
  | cons entry more ih =>
      rw [List.append_cons] at hdistinct ⊢
      have hnew : entry.1 ∉ rules.map Prod.fst := by
        intro hmem
        rw [List.map_append, List.map_append] at hdistinct
        have hprefix := (List.nodup_append.mp (List.nodup_append.mp hdistinct).1).2.2
        exact hprefix _ hmem _ (List.mem_singleton_self _) rfl
      obtain ⟨u, hadd, hu⟩ := h.add_new hnew
      obtain ⟨v, hfold, hv⟩ := ih hu hdistinct
      refine ⟨v, ?_, hv⟩
      rw [List.foldlM_cons, hadd]
      exact hfold

end Holds

theorem ofRules_of_distinct (hdistinct : (rules.map Prod.fst).Nodup) :
    ∃ t, ofRules rules = .ok t ∧ t.Holds rules :=
  holds_empty.foldlM_add hdistinct

/-- What stands behind the first repeated name is not looked at. -/
theorem ofRules_of_repeated (hdistinct : (rules.map Prod.fst).Nodup)
    (hmem : entry.1 ∈ rules.map Prod.fst) :
    ofRules (rules ++ entry :: more) = .error { cause := .duplicateRule entry.1 } := by
  obtain ⟨t, hfold, ht⟩ := ofRules_of_distinct hdistinct
  rw [ofRules] at hfold ⊢
  rw [List.foldlM_append, hfold]
  exact congrArg (· >>= fun u => more.foldlM add u) (ht.add_repeated hmem)

end RuleTable

namespace Grammar

variable {α κ : Type} {start : String} {names : List String} {f : Failure}

/-- What is wrong with the names of some rules that make no grammar. The start rule is looked
for only where no name comes twice. -/
inductive Rejected (start : String) : List String → Failure → Prop
  | duplicate {before after : List String} {name : String} (distinct : before.Nodup)
      (mem : name ∈ before) :
      Rejected start (before ++ name :: after) { cause := .duplicateRule name }
  | undeclared {names : List String} (distinct : names.Nodup) (absent : start ∉ names) :
      Rejected start names { cause := .unknownRule start }

theorem accepted_or_rejected (start : String) (names : List String) :
    names.Nodup ∧ start ∈ names ∨ ∃ f, Rejected start names f := by
  cases hrepeat : firstRepeat names with
  | some name =>
      obtain ⟨before, after, rfl, hdistinct, hmem⟩ := firstRepeat_eq_some_iff.mp hrepeat
      exact .inr ⟨_, .duplicate hdistinct hmem⟩
  | none =>
      have hdistinct := firstRepeat_eq_none_iff.mp hrepeat
      by_cases hstart : start ∈ names
      · exact .inl ⟨hdistinct, hstart⟩
      · exact .inr ⟨_, .undeclared hdistinct hstart⟩

/-- If right names are accepted and wrong ones rejected, nothing else comes of either. -/
theorem result_iff {β : Type} {result : Except Failure β}
    (accepts : names.Nodup → start ∈ names → ∃ b, result = .ok b)
    (rejects : ∀ f, Rejected start names f → result = .error f) :
    ((∃ b, result = .ok b) ↔ names.Nodup ∧ start ∈ names) ∧
      ∀ f, result = .error f ↔ Rejected start names f := by
  rcases accepted_or_rejected start names with ⟨hdistinct, hstart⟩ | ⟨f, hf⟩
  · obtain ⟨b, hb⟩ := accepts hdistinct hstart
    refine ⟨⟨fun _ => ⟨hdistinct, hstart⟩, fun _ => ⟨b, hb⟩⟩, fun f => ⟨fun h => ?_, rejects f⟩⟩
    cases hb.symm.trans h
  · have hresult := rejects f hf
    refine ⟨⟨?_, fun h => accepts h.1 h.2⟩, fun e => ⟨fun h => ?_, rejects e⟩⟩
    · rintro ⟨b, hb⟩
      cases hb.symm.trans hresult
    · cases hresult.symm.trans h
      exact hf

theorem ofRules_of_rejected {rules : List (String × Rule α κ)}
    (h : Rejected start (rules.map Prod.fst) f) : ofRules start rules = .error f := by
  generalize hnames : rules.map Prod.fst = names at h
  cases h with
  | duplicate hdistinct hmem =>
      exact ofRules_of_repeat (firstRepeat_eq_some_iff.mpr ⟨_, _, hnames, hdistinct, hmem⟩)
  | undeclared hdistinct habsent =>
      subst hnames
      exact ofRules_of_undeclared hdistinct habsent

theorem ofRules_iff (start : String) (rules : List (String × Rule α κ)) :
    ((∃ g, ofRules start rules = .ok g) ↔
        (rules.map Prod.fst).Nodup ∧ start ∈ rules.map Prod.fst) ∧
      ∀ f, ofRules start rules = .error f ↔ Rejected start (rules.map Prod.fst) f :=
  result_iff (fun hdistinct hstart => ⟨_, ofRules_eq_ok hdistinct hstart⟩)
    fun _ => ofRules_of_rejected

end Grammar

namespace IndexedGrammar

variable {α κ : Type} {g h : IndexedGrammar α κ} {start start' : String}
  {rules rules' : List (String × Rule α κ)} {name : String} {r : Rule α κ} {f : Failure}

/-- An indexed grammar of some rules: the table has them, and the start rule is taken from
where the index has it. -/
structure Holds (g : IndexedGrammar α κ) (start : String) (rules : List (String × Rule α κ)) :
    Prop where
  table : g.table.Holds rules
  startPos : g.table.positions[start]? = some g.startPos
  named : g.start = start

theorem ofRules_of_accepted (hdistinct : (rules.map Prod.fst).Nodup)
    (hstart : start ∈ rules.map Prod.fst) :
    ∃ g, ofRules start rules = .ok g ∧ g.Holds start rules := by
  obtain ⟨table, hrules, htable⟩ := RuleTable.ofRules_of_distinct hdistinct
  obtain ⟨startPos, hpos⟩ : ∃ pos, table.positions[start]? = some pos :=
    Option.isSome_iff_exists.mp
      (Std.HashMap.mem_iff_isSome_getElem?.mp (htable.mem_positions_iff.mpr hstart))
  refine ⟨⟨start, table, startPos⟩, ?_, htable, hpos, rfl⟩
  rw [ofRules_of_table hrules, ofTable, hpos]

theorem ofRules_of_rejected (h : Grammar.Rejected start (rules.map Prod.fst) f) :
    ofRules start rules = .error f := by
  generalize hnames : rules.map Prod.fst = names at h
  cases h with
  | duplicate hdistinct hmem =>
      obtain ⟨before, rest, rfl, rfl, hrest⟩ := List.map_eq_append_iff.mp hnames
      obtain ⟨entry, after, rfl, rfl, rfl⟩ := List.map_eq_cons_iff.mp hrest
      rw [ofRules, RuleTable.ofRules_of_repeated hdistinct hmem]
      rfl
  | undeclared hdistinct habsent =>
      subst hnames
      obtain ⟨table, hrules, htable⟩ := RuleTable.ofRules_of_distinct hdistinct
      rw [ofRules_of_table hrules, ofTable, htable.positions_eq_none habsent]

theorem ofRules_iff (start : String) (rules : List (String × Rule α κ)) :
    ((∃ g, ofRules start rules = .ok g) ↔
        (rules.map Prod.fst).Nodup ∧ start ∈ rules.map Prod.fst) ∧
      ∀ f, ofRules start rules = .error f ↔ Grammar.Rejected start (rules.map Prod.fst) f := by
  refine Grammar.result_iff (fun hdistinct hstart => ?_) fun f => ofRules_of_rejected
  obtain ⟨g, hg, -⟩ := ofRules_of_accepted hdistinct hstart
  exact ⟨g, hg⟩

theorem holds_of_ofRules (h : ofRules start rules = .ok g) : g.Holds start rules := by
  obtain ⟨hdistinct, hstart⟩ := (ofRules_iff start rules).1.mp ⟨g, h⟩
  obtain ⟨g', hg', hholds⟩ := ofRules_of_accepted hdistinct hstart
  cases h.symm.trans hg'
  exact hholds

namespace Holds

theorem startRule_eq (hg : g.Holds start rules) :
    ∃ r, g.startRule = .ok r ∧ g.rule? start = .ok (some r) := by
  obtain ⟨r, hr⟩ := hg.table.exists_rule hg.startPos
  exact ⟨r, hg.table.ruleAt_eq hr, hg.table.rule?_eq hr⟩

/-- Where the rules are the same, the index and the position of the start rule are. -/
theorem beq_iff [BEq κ] (hg : g.Holds start rules) (hh : h.Holds start' rules') :
    (g == h) = true ↔ start = start' ∧ (rules == rules') = true := by
  have hentries : (g.table.entries == h.table.entries) = (rules == rules') := by
    rw [← hg.table.entries, ← hh.table.entries, Array.beq_toList]
  rw [beq_eq, hentries, hg.named, hh.named]
  simp only [Bool.and_eq_true, beq_iff_eq]
  constructor
  · rintro ⟨⟨hstart, hrules, -⟩, -⟩
    exact ⟨hstart, hrules⟩
  · rintro ⟨rfl, hrules⟩
    have hnames := map_fst_eq_of_beq hrules
    have hpos := (hh.table.positions _ _).mpr (hnames ▸ (hg.table.positions _ _).mp hg.startPos)
    refine ⟨⟨rfl, hrules, hg.table.positions_beq hh.table hnames⟩, ?_⟩
    exact Option.some.inj (hpos.symm.trans hh.startPos)

end Holds

/-- What an indexed grammar of some rules has to give back. Look-ups are done under every
name, so none goes to a position that the table does not have. -/
structure Consistent (g : IndexedGrammar α κ) (start : String)
    (rules : List (String × Rule α κ)) : Prop where
  named : g.start = start
  listed : g.rules = rules
  declared (name : String) (r : Rule α κ) :
    (name, r) ∈ rules → g.rule? name = .ok (some r)
  undeclared (name : String) : name ∉ rules.map Prod.fst → g.rule? name = .ok none
  startRule : ∃ r, g.startRule = .ok r ∧ g.rule? start = .ok (some r)
  start_in_range : g.startPos < g.table.entries.size
  in_range (name : String) (pos : Nat) :
    g.table.positions[name]? = some pos → pos < g.table.entries.size

/-- An indexed grammar and a grammar without an index that cannot be told apart. -/
structure Stores (g : IndexedGrammar α κ) (h : Grammar α κ) : Prop where
  start : g.start = h.start
  rules : g.rules = h.rules
  rule? (name : String) : g.rule? name = .ok (h.rule? name)
  startRule : g.startRule = .ok h.startRule

theorem Holds.consistent (hg : g.Holds start rules) : g.Consistent start rules where
  named := hg.named
  listed := hg.table.entries
  declared _ _ hmem := hg.table.rule?_of_mem hmem
  undeclared _ hname := hg.table.rule?_of_not_mem hname
  startRule := hg.startRule_eq
  start_in_range := hg.table.lt_size hg.startPos
  in_range _ _ hpos := hg.table.lt_size hpos

theorem Holds.stores {h : Grammar α κ} (hg : g.Holds h.start h.rules) : g.Stores h := by
  have hrule (name : String) : g.rule? name = .ok (h.rule? name) := by
    cases hname : h.rule? name with
    | some r => exact hg.table.rule?_of_mem (h.rule?_eq_some_iff.mp hname)
    | none =>
        refine hg.table.rule?_of_not_mem fun hmem => ?_
        have hsome := h.isSome_rule? hmem
        rw [hname] at hsome
        cases hsome
  refine ⟨hg.named, hg.table.entries, hrule, ?_⟩
  obtain ⟨r, hstart, hr⟩ := hg.startRule_eq
  have hsome : h.rule? h.start = some r := Except.ok.inj ((hrule h.start).symm.trans hr)
  rw [hstart, Grammar.startRule, Option.get_of_eq_some _ hsome]

/-- Two indexed grammars are the same just if the grammars that they store are. -/
theorem Holds.beq_eq_beq [BEq κ] {g' : IndexedGrammar α κ} {h h' : Grammar α κ}
    (hg : g.Holds h.start h.rules) (hg' : g'.Holds h'.start h'.rules) :
    (g == g') = (h == h') := by
  change _ = (h.start == h'.start && h.rules == h'.rules)
  rw [Bool.eq_iff_iff, hg.beq_iff hg', Bool.and_eq_true]
  exact and_congr_left' beq_iff_eq.symm

/-- Indexed grammars are made of just those rules that have distinct names, the start rule
among them, and of the others the first fault is reported. Each finds its rules where they
are, without a look-up that goes astray, and comparing the indices adds nothing to comparing
the rules. All this is so in a grammar without an index too. -/
theorem indexing_consistent [BEq κ] (start : String) (rules : List (String × Rule α κ)) :
    ((∃ g, ofRules start rules = .ok g) ↔
        (rules.map Prod.fst).Nodup ∧ start ∈ rules.map Prod.fst) ∧
      (∀ f, ofRules start rules = .error f ↔
        Grammar.Rejected start (rules.map Prod.fst) f) ∧
      (∀ g, ofRules start rules = .ok g →
        g.Consistent start rules ∧
          ∀ start' rules' g', ofRules start' rules' = .ok g' →
            ((g == g') = true ↔ start = start' ∧ (rules == rules') = true)) ∧
      (∀ f, Grammar.ofRules start rules = .error f ↔ ofRules start rules = .error f) ∧
      ∀ h, Grammar.ofRules start rules = .ok h →
        ∃ g, ofRules start rules = .ok g ∧ g.Stores h ∧
          ∀ start' rules' g' h', ofRules start' rules' = .ok g' →
            Grammar.ofRules start' rules' = .ok h' → (g == g') = (h == h') := by
  obtain ⟨hok, herror⟩ := ofRules_iff start rules
  refine ⟨hok, herror, fun g hg => ?_, fun f => ?_, fun h hh => ?_⟩
  · have hholds := holds_of_ofRules hg
    exact ⟨hholds.consistent, fun _ _ _ hg' => hholds.beq_iff (holds_of_ofRules hg')⟩
  · rw [(Grammar.ofRules_iff start rules).2, herror]
  · obtain ⟨rfl, rfl⟩ := Grammar.of_ofRules hh
    obtain ⟨g, hg, hholds⟩ := ofRules_of_accepted h.distinct h.start_declared
    refine ⟨g, hg, hholds.stores, fun start' rules' g' h' hg' hh' => ?_⟩
    obtain ⟨rfl, rfl⟩ := Grammar.of_ofRules hh'
    exact hholds.beq_eq_beq (holds_of_ofRules hg')

private def listRules : List (String × Rule Char Char) :=
  [("item", .range 'a' 'z'), ("list", .star (.ref "item"))]

private def listGrammar : Grammar Char Char where
  start := "list"
  rules := listRules
  distinct := by decide
  start_declared := by decide

private def listIndexed : IndexedGrammar Char Char where
  start := "list"
  table :=
    { entries := listRules.toArray
      positions := ((∅ : Std.HashMap String Nat).insert "item" 0).insert "list" 1 }
  startPos := 1

private def swappedIndexed : IndexedGrammar Char Char where
  start := "list"
  table :=
    { entries := listRules.reverse.toArray
      positions := ((∅ : Std.HashMap String Nat).insert "list" 0).insert "item" 1 }
  startPos := 0

private theorem ofRules_list : ofRules "list" listRules = .ok listIndexed := by
  simp [ofRules, RuleTable.ofRules, RuleTable.add, ofTable, listRules, listIndexed,
    bind, Except.bind, pure, Except.pure]

private theorem ofRules_swapped : ofRules "list" listRules.reverse = .ok swappedIndexed := by
  simp [ofRules, RuleTable.ofRules, RuleTable.add, ofTable, listRules, swappedIndexed,
    bind, Except.bind, pure, Except.pure, Std.HashMap.getElem_insert]

/-- Two orders of the same rules, and rules that are rejected: two of their names come twice,
of which the inner one is reported, and the start rule is missing as well. -/
theorem indexing_consistent_swapped :
    (ofRules "list" listRules = .ok listIndexed ∧ listIndexed.Consistent "list" listRules) ∧
      (ofRules "list" listRules.reverse = .ok swappedIndexed ∧
        (listIndexed == swappedIndexed) = false) ∧
      (Grammar.ofRules "list" listRules = .ok listGrammar ∧ listIndexed.Stores listGrammar ∧
        (listIndexed == listIndexed) = (listGrammar == listGrammar)) ∧
      ofRules "word" (listRules ++ listRules.reverse) =
        .error { cause := .duplicateRule "list" } := by
  obtain ⟨-, -, hok, -, hstores⟩ := indexing_consistent "list" listRules
  obtain ⟨hconsistent, hbeq⟩ := hok listIndexed ofRules_list
  have hgrammar : Grammar.ofRules "list" listRules = .ok listGrammar := rfl
  obtain ⟨g, hg, hg_stores, hsame⟩ := hstores listGrammar hgrammar
  cases ofRules_list.symm.trans hg
  refine ⟨⟨ofRules_list, hconsistent⟩, ⟨ofRules_swapped, ?_⟩, ⟨hgrammar, hg_stores, ?_⟩, ?_⟩
  · rw [Bool.eq_false_iff, ne_eq, hbeq _ _ _ ofRules_swapped]
    exact fun h => absurd h.2 (by decide)
  · exact hsame _ _ _ _ ofRules_list hgrammar
  · have hrejected : Grammar.Rejected "word" (["item", "list"] ++ "list" :: ["item"])
        { cause := .duplicateRule "list" } := .duplicate (by decide) (by decide)
    exact ((indexing_consistent "word" (listRules ++ listRules.reverse)).2.1 _).mpr hrejected

end IndexedGrammar

end Peg
