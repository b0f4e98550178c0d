import Peg.Failure.Basic
import Peg.Names
import Peg.Rule.Basic

/-!
Grammars: named rules in the order of their declaration, one of which is the start
rule. No name is declared twice and the start rule is declared, so that a grammar
has its start rule and looking a name up finds the one rule of that name.
-/

namespace Peg

structure Grammar (α κ : Type) where
  start : String
  rules : List (String × Rule α κ)
  distinct : (rules.map Prod.fst).Nodup
  start_declared : start ∈ rules.map Prod.fst

namespace Grammar

variable {α κ : Type}

/-- The grammar of the given rules. A name that is declared twice is reported before
a start rule that is missing. -/
def ofRules (start : String) (rules : List (String × Rule α κ)) :
    Except Failure (Grammar α κ) :=
  match h : firstRepeat (rules.map Prod.fst) with
  | some name => .error { cause := .duplicateRule name }
  | none =>
      if hstart : start ∈ rules.map Prod.fst then
        .ok ⟨start, rules, firstRepeat_eq_none_iff.mp h, hstart⟩
      else
        .error { cause := .unknownRule start }

theorem ofRules_eq_ok {start : String} {rules : List (String × Rule α κ)}
    (hdistinct : (rules.map Prod.fst).Nodup) (hstart : start ∈ rules.map Prod.fst) :
    ofRules start rules = .ok ⟨start, rules, hdistinct, hstart⟩ := by
  unfold ofRules
  split
  · rename_i name hname
    rw [firstRepeat_eq_none_iff.mpr hdistinct] at hname
    cases hname
  · rw [dif_pos hstart]

theorem ofRules_of_repeat {start name : String} {rules : List (String × Rule α κ)}
    (h : firstRepeat (rules.map Prod.fst) = some name) :
    ofRules start rules = .error { cause := .duplicateRule name } := by
  unfold ofRules
  split <;> rename_i hrepeat <;> cases h.symm.trans hrepeat
  rfl

theorem ofRules_of_undeclared {start : String} {rules : List (String × Rule α κ)}
    (hdistinct : (rules.map Prod.fst).Nodup) (hstart : start ∉ rules.map Prod.fst) :
    ofRules start rules = .error { cause := .unknownRule start } := by
  unfold ofRules
  split
  · rename_i name hname
    rw [firstRepeat_eq_none_iff.mpr hdistinct] at hname
    cases hname
  · rw [dif_neg hstart]

theorem of_ofRules {start : String} {rules : List (String × Rule α κ)}
    {g : Grammar α κ} (h : ofRules start rules = .ok g) : g.start = start ∧ g.rules = rules := by
  unfold ofRules at h
  split at h
  · cases h
  · split at h
    · cases h
      exact ⟨rfl, rfl⟩
    · cases h

/-- The rule declared under a name. -/
def rule? (g : Grammar α κ) (name : String) : Option (Rule α κ) :=
  g.rules.lookup name

theorem rule?_eq_some_iff (g : Grammar α κ) {name : String} {r : Rule α κ} :
    g.rule? name = some r ↔ (name, r) ∈ g.rules := by
  rw [rule?, List.lookup_eq_some_iff]
  constructor
  · rintro ⟨before, after, hrules, -⟩
    simp [hrules]
  · intro h
    obtain ⟨before, after, hrules⟩ := List.append_of_mem h
    have hdistinct := g.distinct
    rw [hrules, List.map_append, List.map_cons] at hdistinct
    have hbefore := (List.nodup_append.mp hdistinct).2.2
    refine ⟨before, after, hrules, ?_⟩
    intro entry hentry
    have hne := hbefore entry.1 (List.mem_map_of_mem hentry) name List.mem_cons_self
    simpa using hne.symm

theorem isSome_rule? (g : Grammar α κ) {name : String}
    (h : name ∈ g.rules.map Prod.fst) : (g.rule? name).isSome := by
  simpa [rule?, List.lookup_isSome_iff] using h

def startRule (g : Grammar α κ) : Rule α κ :=
  (g.rule? g.start).get (g.isSome_rule? g.start_declared)

/-- Grammars are the same if they declare the same rules in the same order and
start with the same one. -/
instance [BEq κ] : BEq (Grammar α κ) where
  beq g h := g.start == h.start && g.rules == h.rules

end Grammar

end Peg
