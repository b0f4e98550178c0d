import Peg.Repetition

/-!
Patterns: a short notation for rules over characters, such as `[a-z]+` or `(a|\n)`.
This module holds the syntax trees of the notation, how they are written, and which
rules they denote. A source is any number of patterns one after the other.
-/

namespace Peg

namespace Pattern

/-- The characters that have a meaning of their own, besides the backslash. -/
def operators : List Char :=
  ['(', ')', '[', '-', ']', '+', '?', '*', '!', '^', '|']

/-- The characters that stand for themselves only behind a backslash. -/
def reserved : List Char :=
  operators ++ ['\\']

/-- A character that stands for itself. -/
abbrev PlainChar := { c : Char // c ∉ reserved }

/-- The patterns without parts: a character as it is, a character behind a
backslash, and all characters between two. -/
inductive Atom where
  | plain (c : PlainChar)
  | escaped (c : Char)
  | range (lo hi : PlainChar)
  deriving DecidableEq

end Pattern

open Pattern in
inductive Pattern where
  | atom (a : Atom) (repetition : Option Repetition)
  /-- `(pq…)`: one pattern or more, all in order. -/
  | sequence (first : Pattern) (rest : List Pattern) (repetition : Option Repetition)
  /-- `(p|q|…)`: two patterns or more, of which the first that matches is taken. -/
  | choice (first second : Pattern) (rest : List Pattern) (repetition : Option Repetition)
  /-- `^a`: any one character that does not match. -/
  | except (a : Atom)

namespace Pattern

/-- A property of all patterns has to be passed on from the parts of a pattern to the
pattern. -/
@[elab_as_elim, induction_eliminator]
theorem inductionOn {motive : Pattern → Prop} (p : Pattern)
    (atom : ∀ a repetition, motive (.atom a repetition))
    (sequence : ∀ p ps repetition, motive p → (∀ q ∈ ps, motive q) →
      motive (.sequence p ps repetition))
    (choice : ∀ p q qs repetition, motive p → motive q → (∀ q' ∈ qs, motive q') →
      motive (.choice p q qs repetition))
    (except : ∀ a, motive (.except a)) : motive p := by
  refine Pattern.rec (motive_1 := motive) (motive_2 := fun ps => ∀ p ∈ ps, motive p)
    atom sequence choice except ?_ ?_ p
  · intro q hq
    cases hq
  · intro q qs hq hqs q' hq'
    rcases List.mem_cons.mp hq' with rfl | hq'
    · exact hq
    · exact hqs q' hq'

def Atom.print : Atom → List Char
  | .plain c => [c]
  | .escaped c => ['\\', c]
  | .range lo hi => ['[', lo, '-', hi, ']']

def printMark (repetition : Option Repetition) : List Char :=
  (repetition.map Repetition.mark).toList

mutual

def print : Pattern → List Char
  | .atom a repetition => a.print ++ printMark repetition
  | .sequence p ps repetition => '(' :: print p ++ printAll ps ++ ')' :: printMark repetition
  | .choice p q qs repetition =>
      '(' :: print p ++ '|' :: print q ++ printAlternatives qs ++ ')' :: printMark repetition
  | .except a => '^' :: a.print

def printAll : List Pattern → List Char
  | [] => []
  | p :: ps => print p ++ printAll ps

/-- Further alternatives, each behind a bar. -/
def printAlternatives : List Pattern → List Char
  | [] => []
  | p :: ps => '|' :: print p ++ printAlternatives ps

end

theorem printAll_eq_flatMap (ps : List Pattern) : printAll ps = ps.flatMap print := by
  induction ps with
  | nil => rfl
  | cons p ps ih => simp [printAll, ih]

theorem printAlternatives_eq_flatMap (ps : List Pattern) :
    printAlternatives ps = ps.flatMap fun p => '|' :: print p := by
  induction ps with
  | nil => rfl
  | cons p ps ih => simp [printAlternatives, ih]

/-- Behind a backslash `n` is a newline, `t` a tab and `w` a blank of any kind; every
other character is taken literally. -/
def Atom.meaning : Atom → Rule Char Char
  | .plain c => .literal c
  | .escaped c =>
      if c = 'n' then .literal '\n'
      else if c = 't' then .literal '\t'
      else if c = 'w' then .alt [.literal ' ', .literal '\n', .literal '\t']
      else .literal c
  | .range lo hi => .range lo hi

mutual

def meaning : Pattern → Rule Char Char
  | .atom a repetition => a.meaning.repeated repetition
  | .sequence p ps repetition => (Rule.seq (meaning p :: meanings ps)).repeated repetition
  | .choice p q qs repetition =>
      (Rule.alt (meaning p :: meaning q :: meanings qs)).repeated repetition
  | .except a => .except a.meaning

def meanings : List Pattern → List (Rule Char Char)
  | [] => []
  | p :: ps => meaning p :: meanings ps

end

theorem meanings_eq_map (ps : List Pattern) : meanings ps = ps.map meaning := by
  induction ps with
  | nil => rfl
  | cons p ps ih => simp [meanings, ih]

/-- What a source denotes: its patterns in order. -/
def sourceMeaning (ps : List Pattern) : Rule Char Char :=
  Rule.ofParts .seq (meanings ps)

end Pattern

end Peg
