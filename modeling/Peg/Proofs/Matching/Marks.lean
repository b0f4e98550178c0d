import Peg.Proofs.Lexing.Lexemes
import Peg.Proofs.Matching.Yields
import Peg.Repetition

/-!
Repetition marks in grammars over tokens. A grammar has a rule for an operand with each
of the marks, and tries these one after the other. As every one of them takes the operand
and then looks for its own mark, the token behind the operand decides between them.
-/

namespace Peg

namespace Repetition

def all : List Repetition :=
  [.star, .plus, .opt, .untilEnd]

theorem mem_all (repetition : Repetition) : repetition ∈ all := by
  cases repetition <;> decide

/-- The kind of the token of a mark. -/
def markKind (repetition : Repetition) : String :=
  String.singleton repetition.mark

theorem markKind_injective {r s : Repetition} (h : r.markKind = s.markKind) : r = s := by
  revert h
  cases r <;> cases s <;> decide

/-- The rule for an operand with a mark. -/
def ruleName : Repetition → String
  | .star => "zero_or_more"
  | .plus => "one_or_more"
  | .opt => "zero_or_one"
  | .untilEnd => "until_empty"

end Repetition

/-- Whether tokens do not begin with a mark. -/
def Unmarked (ts : List Token) : Prop :=
  ∀ t ∈ ts.head?, ∀ repetition : Repetition, t.kind ≠ repetition.markKind

theorem unmarked_of_lexemes {xs rest : List Token} {w : Lexeme} {ws : List Lexeme}
    (hxs : xs.map Token.lexeme = w :: ws)
    (hw : ∀ repetition ∈ Repetition.all, w.1 ≠ repetition.markKind) :
    Unmarked (xs ++ rest) := by
  intro t ht repetition
  have hkind : t.kind = w.1 := congrArg Prod.fst (Token.head_lexeme hxs ht)
  rw [hkind]
  exact hw repetition repetition.mem_all

namespace Grammar

/-- A grammar has a rule for an operand with each of the marks. -/
def HasMarks (g : Grammar Token String) (operand : String) : Prop :=
  ∀ repetition : Repetition, g.rule? repetition.ruleName =
    some (.seq [.ref operand, .literal repetition.markKind])

/-- The marked operands in the order in which they are tried. -/
def markedRules : List (Rule Token String) :=
  Repetition.all.map fun repetition => .ref repetition.ruleName

namespace HasMarks

variable {g : Grammar Token String} {operand : String} {input : Array Token}
  {xs rest : List Token} {o : Outline Token}

theorem refuses_of_refuses (hmarks : g.HasMarks operand)
    (h : g.Refuses input (.ref operand) xs) (r : Rule Token String) (hr : r ∈ markedRules) :
    g.Refuses input r xs := by
  obtain ⟨repetition, -, rfl⟩ := List.mem_map.mp hr
  exact refuses_ref (hmarks repetition) (refuses_seq_head h)

theorem refuses_of_ne (hmarks : g.HasMarks operand) {repetition : Repetition}
    (h : g.Yields input (.ref operand) xs rest [o])
    (hrest : ∀ t ∈ rest.head?, t.kind ≠ repetition.markKind) :
    g.Refuses input (.ref repetition.ruleName) (xs ++ rest) := by
  have hmark : g.Refuses input (.literal repetition.markKind) rest := refuses_literal hrest
  exact refuses_ref (hmarks repetition) (refuses_seq_tail h (refuses_seq_head hmark))

theorem refuses_of_unmarked (hmarks : g.HasMarks operand)
    (h : g.Yields input (.ref operand) xs rest [o]) (hrest : Unmarked rest)
    (r : Rule Token String) (hr : r ∈ markedRules) : g.Refuses input r (xs ++ rest) := by
  obtain ⟨repetition, -, rfl⟩ := List.mem_map.mp hr
  exact hmarks.refuses_of_ne h fun t ht => hrest t ht repetition

/-- Of the rules for marked operands, the one whose mark comes behind the operand
matches; those tried before it fail there. -/
theorem yields (hmarks : g.HasMarks operand) {repetition : Repetition} {t : Token}
    (ht : t.kind = repetition.markKind)
    (h : g.Yields input (.ref operand) xs (t :: rest) [o]) (others : List (Rule Token String)) :
    g.Yields input (.alt (markedRules ++ others)) (xs ++ [t]) rest
      [.node repetition.ruleName [o, .item t]] := by
  obtain ⟨before, after, hall⟩ := List.append_of_mem repetition.mem_all
  have hdistinct : Repetition.all.Nodup := by decide
  rw [hall] at hdistinct
  have hbefore := (List.nodup_append.mp hdistinct).2.2
  have hsplit : markedRules ++ others =
      (before.map fun s => Rule.ref s.ruleName) ++
        .ref repetition.ruleName :: ((after.map fun s => Rule.ref s.ruleName) ++ others) := by
    rw [markedRules, hall, List.map_append, List.map_cons, List.append_assoc, List.cons_append]
  rw [hsplit]
  apply yields_alt
  · refine List.forall_mem_map.mpr ?_
    intro s hs
    have hne : s ≠ repetition := hbefore s hs repetition List.mem_cons_self
    rw [List.append_assoc]
    refine hmarks.refuses_of_ne h ?_
    intro t' ht' hkind
    obtain rfl : t = t' := by simpa using ht'
    exact hne (Repetition.markKind_injective (hkind.symm.trans ht))
  · have hmark : g.Yields input (.seq [.literal repetition.markKind]) [t] rest [.item t] :=
      yields_seq_cons (yields_literal ht _) (yields_seq_nil rest)
    exact yields_ref (hmarks repetition) (yields_seq_cons h hmark)

end HasMarks

end Grammar

end Peg
