import Peg.Matcher
import Peg.Rule.Basic

/-!
What a rule matches. The matcher of a rule is built from those of its parts; the
matchers of named rules are given from outside, so that this definition follows
the rule alone.
-/

namespace Peg.Rule

variable {α κ : Type} [Key κ] [Item α κ]

/-- A single-item rule refuses an item by naming itself and the key it met. -/
def refusal (r : Rule α κ) (x : α) : Cause :=
  .mismatch r.render (Key.quote (Item.key x))

mutual

/-- The matcher of a rule over an input; `call` is the matcher of each named rule. -/
def matcher (input : Array α) (call : String → Matcher α) : Rule α κ → Matcher α
  | .literal key => Matcher.one input (Item.key · == key) (refusal (.literal key : Rule α κ))
  | .range lo hi =>
      Matcher.one input (fun x => Key.le lo (Item.key x) && Key.le (Item.key x) hi)
        (refusal (.range lo hi : Rule α κ))
  | .predicate p => Matcher.one input p.test (refusal (.predicate p : Rule α κ))
  | .seq rules => Matcher.sequence (matchers input call rules)
  | .alt rules => Matcher.firstOf (matchers input call rules)
  | .oneOf rules => Matcher.exactlyOne render (rules.zip (matchers input call rules))
  | .star r => Matcher.zeroOrMore input (matcher input call r)
  | .plus r => Matcher.oneOrMore input (matcher input call r)
  | .opt r => Matcher.optional (matcher input call r)
  | .untilEnd r => Matcher.untilEnd input (matcher input call r)
  | .except r => Matcher.except input (matcher input call r) fun _ => .unexpectedMatch r.render
  | .ref name => Matcher.within (call name)

def matchers (input : Array α) (call : String → Matcher α) :
    List (Rule α κ) → List (Matcher α)
  | [] => []
  | r :: rs => matcher input call r :: matchers input call rs

end

theorem matchers_eq_map (input : Array α) (call : String → Matcher α)
    (rules : List (Rule α κ)) :
    matchers input call rules = rules.map (matcher input call) := by
  induction rules with
  | nil => rfl
  | cons r rs ih => simp [matchers, ih]

section Parts

variable (input : Array α) (call : String → Matcher α)

theorem matcher_seq (rules : List (Rule α κ)) :
    matcher input call (.seq rules) = Matcher.sequence (rules.map (matcher input call)) := by
  rw [matcher, matchers_eq_map]

theorem matcher_alt (rules : List (Rule α κ)) :
    matcher input call (.alt rules) = Matcher.firstOf (rules.map (matcher input call)) := by
  rw [matcher, matchers_eq_map]

theorem matcher_oneOf (rules : List (Rule α κ)) :
    matcher input call (.oneOf rules) =
      Matcher.exactlyOne render (rules.map fun r => (r, matcher input call r)) := by
  rw [matcher, matchers_eq_map, List.map_prod_left_eq_zip]

end Parts

end Peg.Rule
