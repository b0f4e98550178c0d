import Peg.Rule.Basic

/-!
The four marks that may follow an operand in a notation for rules.
-/

namespace Peg

inductive Repetition where
  | star
  | plus
  | opt
  | untilEnd
  deriving DecidableEq

namespace Repetition

variable {α κ : Type}

def mark : Repetition → Char
  | .star => '*'
  | .plus => '+'
  | .opt => '?'
  | .untilEnd => '!'

def meaning : Repetition → Rule α κ → Rule α κ
  | .star => .star
  | .plus => .plus
  | .opt => .opt
  | .untilEnd => .untilEnd

end Repetition

/-- A rule repeated as a mark says, or once where there is no mark. -/
def Rule.repeated {α κ : Type} (r : Rule α κ) : Option Repetition → Rule α κ
  | some repetition => repetition.meaning r
  | none => r

end Peg
