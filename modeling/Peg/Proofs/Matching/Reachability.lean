import Peg.Lexer
import Peg.Proofs.Matching.Agreement

/-!
The rules of a grammar that have a part in the application of a rule are those that it
reaches: by its own references, and by those of rules that it has reached. Whatever else a
grammar declares, in whichever order, and whichever rule it starts with, the application
comes out the same, as a tree or as a failure.
-/

namespace Peg.Grammar

variable {α κ : Type}

/-- A rule comes to a name in a grammar. The name need not be declared. -/
inductive Reaches (g : Grammar α κ) (r : Rule α κ) : String → Prop
  /-- The rule itself refers to the name. -/
  | direct {name : String} (refers : name ∈ r.refs) : Reaches g r name
  /-- The rule of a name that has been reached refers to it. -/
  | through {name next : String} {s : Rule α κ} (reached : Reaches g r name)
      (declared : g.rule? name = some s) (refers : next ∈ s.refs) : Reaches g r next

/-- What is reached stays among names that hold those of the rule, and those of their own
rules. -/
theorem Reaches.mem_of_closed {g : Grammar α κ} {r : Rule α κ} {names : Set String}
    (hrefs : ∀ m ∈ r.refs, m ∈ names)
    (hclosed : ∀ name ∈ names, ∀ s, g.rule? name = some s → ∀ m ∈ s.refs, m ∈ names)
    {name : String} (h : g.Reaches r name) : name ∈ names := by
  induction h with
  | direct refers => exact hrefs _ refers
  | through _ declared refers ih => exact hclosed _ ih _ declared _ refers

/-- Rules that are added under other names, or put in another order, do not change what a
name stands for. -/
theorem rule?_eq_of_perm_append {g g' : Grammar α κ} {added : List (String × Rule α κ)}
    (hperm : g'.rules.Perm (g.rules ++ added)) {name : String}
    (hadded : ∀ entry ∈ added, entry.1 ≠ name) : g.rule? name = g'.rule? name := by
  ext r
  rw [rule?_eq_some_iff, rule?_eq_some_iff, hperm.mem_iff, List.mem_append]
  constructor
  · exact .inl
  · rintro (h | h)
    · exact h
    · exact absurd rfl (hadded _ h)

/-- The names that a rule reaches are closed under the references of their rules. -/
theorem agreesOn_reached {g g' : Grammar α κ} {r : Rule α κ}
    (h : ∀ name, g.Reaches r name → g.rule? name = g'.rule? name) :
    g.AgreesOn g' {name | g.Reaches r name} where
  same := h
  closed _ hname _ hrule _ hm := .through hname hrule hm

variable [Key κ] [Item α κ]

/-- At a cursor a rule does the same in two grammars, and so does every name that it
reaches. -/
def AlikeFor (g g' : Grammar α κ) (r : Rule α κ) (c : Cursor α) : Prop :=
  g.applyRule r c = g'.applyRule r c ∧
    ∀ name, g.Reaches r name → g.applyNamed name c = g'.applyNamed name c

theorem alikeFor_of_same_reached {g g' : Grammar α κ} {r : Rule α κ} {c : Cursor α}
    (hc : c.pos ≤ c.input.size)
    (h : ∀ name, g.Reaches r name → g.rule? name = g'.rule? name) : g.AlikeFor g' r c := by
  have hagree := agreesOn_reached h
  constructor
  · rw [applyRule, applyRule, hagree.ruleMatcher_eq (fun _ => Reaches.direct) hc]
  · intro name hname
    rw [applyNamed, applyNamed, hagree.namedMatcher_eq hname hc]

/-- Nothing but the name of a kind is reached by way of it, if its rule refers to nothing. -/
theorem alikeFor_own (l : Lexer) {kind : String} {r : Rule Char Char}
    (hkind : (kind, r) ∈ l.kinds) (hrefs : r.refs = []) {own : Grammar Char Char}
    (hown : own.rules = [(kind, r)]) {c : Cursor Char} (hc : c.pos ≤ c.input.size) :
    l.grammar.AlikeFor own (.ref kind) c := by
  have hlexer : l.grammar.rule? kind = some r :=
    l.grammar.rule?_eq_some_iff.mpr (List.mem_cons_of_mem _ (List.mem_cons_of_mem _ hkind))
  have hrule : own.rule? kind = some r :=
    own.rule?_eq_some_iff.mpr (by rw [hown]; exact List.mem_singleton_self _)
  refine alikeFor_of_same_reached hc fun name hname => ?_
  have hmem : name ∈ ({kind} : Set String) := by
    refine hname.mem_of_closed (fun m hm => List.mem_singleton.mp hm) ?_
    rintro m rfl s hs n hn
    obtain rfl := Option.some.inj (hlexer.symm.trans hs)
    simp [hrefs] at hn
  rw [Set.mem_singleton_iff.mp hmem, hlexer, hrule]

/-- What a rule does at a cursor depends on no rules of a grammar but those that it reaches.
Another order of them, another start rule or further rules that are not reached make no
difference, so that a kind of tokens whose rule refers to nothing does in a lexer what it
does in a grammar of its own. -/
theorem application_of_reached (c : Cursor α) (hc : c.pos ≤ c.input.size) :
    (∀ (g g' : Grammar α κ) (r : Rule α κ),
      (∀ name, g.Reaches r name → g.rule? name = g'.rule? name) → g.AlikeFor g' r c) ∧
    (∀ (g g' : Grammar α κ) (r : Rule α κ) (added : List (String × Rule α κ)),
      g'.rules.Perm (g.rules ++ added) → (∀ entry ∈ added, ¬ g.Reaches r entry.1) →
        g.AlikeFor g' r c) ∧
    ∀ (l : Lexer) (kind : String) (r : Rule Char Char) (d : Cursor Char),
      (kind, r) ∈ l.kinds → r.refs = [] → d.pos ≤ d.input.size →
        ∃ own, ofRules kind [(kind, r)] = .ok own ∧ l.grammar.AlikeFor own (.ref kind) d := by
  refine ⟨fun g g' r => alikeFor_of_same_reached hc, ?_, ?_⟩
  · intro g g' r added hperm hadded
    refine alikeFor_of_same_reached hc fun name hname => rule?_eq_of_perm_append hperm ?_
    rintro entry hentry rfl
    exact hadded entry hentry hname
  · intro l kind r d hkind hrefs hd
    have hdistinct : ([(kind, r)].map Prod.fst).Nodup := List.nodup_singleton kind
    exact ⟨_, ofRules_eq_ok hdistinct (List.mem_singleton_self kind),
      alikeFor_own l hkind hrefs rfl hd⟩

/-- Anything in brackets, or one item that neither opens nor closes them. -/
private def itemRule : Rule Char Char :=
  .alt [.seq [.literal '(', .ref "item", .literal ')'], .except (.ref "bracket")]

private def bracketRule : Rule Char Char :=
  .range '(' ')'

private def itemGrammar : Grammar Char Char where
  start := "item"
  rules := [("item", itemRule), ("bracket", bracketRule)]
  distinct := by decide
  start_declared := by decide

private def itemsEntry : String × Rule Char Char :=
  ("items", .untilEnd (.ref "item"))

/-- The same rules in another order, with one that starts and that they do not reach. -/
private def itemsGrammar : Grammar Char Char where
  start := "items"
  rules := [("bracket", bracketRule), itemsEntry, ("item", itemRule)]
  distinct := by decide
  start_declared := by decide

private def bracketLexer : Lexer where
  kinds := [("items", .plus (.ref "bracket")), ("bracket", bracketRule)]
  dispatch := .firstMatch
  hidden := Lexer.hiddenByName
  distinct := by decide

private theorem reaches_item {r : Rule Char Char} (hr : ∀ m ∈ r.refs, m = "item" ∨ m = "bracket")
    {name : String} (h : itemGrammar.Reaches r name) : name = "item" ∨ name = "bracket" := by
  refine (h.mem_of_closed hr ?_ : name ∈ {m | m = "item" ∨ m = "bracket"})
  rintro m (rfl | rfl) s hs n hn
  · cases hs
    change n = "item" ∨ n = "bracket"
    simpa [itemRule, Rule.refs, Rule.allRefs] using hn
  · cases hs
    simp [bracketRule, Rule.refs] at hn

/-- The brackets do not close, so that the failures tell of all that was tried. -/
theorem application_of_reached_brackets :
    (0 ≤ 2 ∧ ∀ name, itemGrammar.Reaches itemRule name →
      itemGrammar.rule? name = itemsGrammar.rule? name) ∧
      itemGrammar.AlikeFor itemsGrammar itemRule ⟨#['(', 'a'], 0⟩ ∧
    (itemsGrammar.rules.Perm (itemGrammar.rules ++ [itemsEntry]) ∧
      ∀ entry ∈ [itemsEntry], ¬ itemGrammar.Reaches (.ref "item") entry.1) ∧
      itemGrammar.AlikeFor itemsGrammar (.ref "item") ⟨#['(', 'a'], 0⟩ ∧
    (("bracket", bracketRule) ∈ bracketLexer.kinds ∧ bracketRule.refs = []) ∧
      ∃ own, ofRules "bracket" [("bracket", bracketRule)] = .ok own ∧
        bracketLexer.grammar.AlikeFor own (.ref "bracket") ⟨#['(', 'a'], 0⟩ := by
  obtain ⟨halike, hadded, hown⟩ := application_of_reached (κ := Char)
    (⟨#['(', 'a'], 0⟩ : Cursor Char) (Nat.zero_le _)
  have hsame (name : String) (h : itemGrammar.Reaches itemRule name) :
      itemGrammar.rule? name = itemsGrammar.rule? name := by
    rcases reaches_item (by decide) h with rfl | rfl <;> rfl
  have hperm : itemsGrammar.rules.Perm (itemGrammar.rules ++ [itemsEntry]) :=
    show ([_, _] ++ [_]).Perm ([_] ++ [_, _]) from List.perm_append_comm
  have hnot : ∀ entry ∈ [itemsEntry], ¬ itemGrammar.Reaches (.ref "item") entry.1 := by
    intro entry hentry h
    obtain rfl := List.mem_singleton.mp hentry
    exact absurd (reaches_item (by decide) h) (by decide)
  have hkind : ("bracket", bracketRule) ∈ bracketLexer.kinds :=
    List.mem_cons_of_mem _ List.mem_cons_self
  exact ⟨⟨by decide, hsame⟩, halike _ _ _ hsame, ⟨hperm, hnot⟩, hadded _ _ _ _ hperm hnot,
    ⟨hkind, rfl⟩, hown _ _ _ _ hkind rfl (Nat.zero_le _)⟩

end Peg.Grammar
