import Peg.Item

/-!
Rules. A rule describes how much of an input to match and what tree to make of
it; what it does is said in the module on its matcher. A rule never contains
another named rule, it refers to it by name, so recursive grammars are finite.
-/

namespace Peg

/-- A test on single items. A test cannot be inspected, so a predicate is known by
its tag, which whoever makes it chooses, and by its label. -/
structure Predicate (α : Type) where
  tag : Nat
  label : String
  test : α → Bool

instance {α : Type} : BEq (Predicate α) where
  beq p q := p.tag == q.tag && p.label == q.label

/-- A predicate is shown by its label. -/
def Predicate.render {α : Type} (p : Predicate α) : String :=
  "Predicate(" ++ Text.quoteText p.label ++ ")"

/-- Rules over items of type `α` that have keys of type `κ`. -/
inductive Rule (α κ : Type) where
  /-- One item with the given key. -/
  | literal (key : κ)
  /-- One item whose key lies between the two, both included. -/
  | range (lo hi : κ)
  /-- One item that passes a test. -/
  | predicate (p : Predicate α)
  /-- All rules, one after the other. -/
  | seq (rules : List (Rule α κ))
  /-- The first rule that matches. -/
  | alt (rules : List (Rule α κ))
  /-- The one rule that matches; it is a failure if several do. -/
  | oneOf (rules : List (Rule α κ))
  /-- As many repetitions as match, perhaps none. -/
  | star (rule : Rule α κ)
  /-- As many repetitions as match, at least one. -/
  | plus (rule : Rule α κ)
  /-- The rule, or nothing where it fails. -/
  | opt (rule : Rule α κ)
  /-- Repetitions up to the end of the input. -/
  | untilEnd (rule : Rule α κ)
  /-- One item, at a place where the rule does not match. -/
  | except (rule : Rule α κ)
  /-- The rule of that name in the grammar. -/
  | ref (name : String)

namespace Rule

variable {α κ : Type}

/-- A property of all rules has to be passed on from the parts of a rule to the rule. -/
@[elab_as_elim, induction_eliminator]
theorem inductionOn {motive : Rule α κ → Prop} (r : Rule α κ)
    (literal : ∀ key, motive (.literal key)) (range : ∀ lo hi, motive (.range lo hi))
    (predicate : ∀ p, motive (.predicate p))
    (seq : ∀ rules, (∀ r ∈ rules, motive r) → motive (.seq rules))
    (alt : ∀ rules, (∀ r ∈ rules, motive r) → motive (.alt rules))
    (oneOf : ∀ rules, (∀ r ∈ rules, motive r) → motive (.oneOf rules))
    (star : ∀ r, motive r → motive (.star r)) (plus : ∀ r, motive r → motive (.plus r))
    (opt : ∀ r, motive r → motive (.opt r))
    (untilEnd : ∀ r, motive r → motive (.untilEnd r))
    (except : ∀ r, motive r → motive (.except r)) (ref : ∀ name, motive (.ref name)) :
    motive r := by
  refine Rule.rec (motive_1 := motive) (motive_2 := fun rules => ∀ r ∈ rules, motive r)
    literal range predicate seq alt oneOf star plus opt untilEnd except ref ?_ ?_ r
  · intro s hs
    cases hs
  · intro s rules hs hrules t ht
    rcases List.mem_cons.mp ht with rfl | ht
    · exact hs
    · exact hrules t ht

/-- A rule that any item passes. -/
def any (tag : Nat) : Rule α κ :=
  .predicate { tag, label := "any", test := fun _ => true }

/-- One rule and then another. A sequence on the left takes the second rule in
as its last part. -/
def andThen : Rule α κ → Rule α κ → Rule α κ
  | .seq rules, r => .seq (rules ++ [r])
  | l, r => .seq [l, r]

/-- One rule or else another. A choice on the left takes the second rule in as
its last alternative. -/
def orElse : Rule α κ → Rule α κ → Rule α κ
  | .alt rules, r => .alt (rules ++ [r])
  | l, r => .alt [l, r]

instance : Add (Rule α κ) := ⟨andThen⟩

instance : OrOp (Rule α κ) := ⟨orElse⟩

/-- The rule made of some parts. A single part stands for itself. -/
def ofParts (make : List (Rule α κ) → Rule α κ) : List (Rule α κ) → Rule α κ
  | [r] => r
  | rules => make rules

/-- What is collected from the parts, one after the other, is collected from the rule made of
them. -/
theorem collect_ofParts {β : Type} {collect : Rule α κ → List β}
    {make : List (Rule α κ) → Rule α κ}
    (hmake : ∀ rules, collect (make rules) = rules.flatMap collect) (rules : List (Rule α κ)) :
    collect (ofParts make rules) = rules.flatMap collect := by
  match rules with
  | [] => exact hmake []
  | [r] => simp [ofParts]
  | r :: s :: rules => exact hmake (r :: s :: rules)

/-- The characters of a text in order. -/
def word (s : String) : Rule Char Char :=
  ofParts .seq (s.toList.map .literal)

mutual

/-- Rules are the same if they are built alike from the same keys, names and
predicates. -/
def beq [BEq κ] : Rule α κ → Rule α κ → Bool
  | .literal a, .literal b => a == b
  | .range a b, .range a' b' => a == a' && b == b'
  | .predicate p, .predicate q => p == q
  | .seq rs, .seq ss => beqAll rs ss
  | .alt rs, .alt ss => beqAll rs ss
  | .oneOf rs, .oneOf ss => beqAll rs ss
  | .star r, .star s => beq r s
  | .plus r, .plus s => beq r s
  | .opt r, .opt s => beq r s
  | .untilEnd r, .untilEnd s => beq r s
  | .except r, .except s => beq r s
  | .ref m, .ref n => m == n
  | _, _ => false

def beqAll [BEq κ] : List (Rule α κ) → List (Rule α κ) → Bool
  | [], [] => true
  | r :: rs, s :: ss => beq r s && beqAll rs ss
  | _, _ => false

end

instance [BEq κ] : BEq (Rule α κ) := ⟨beq⟩

mutual

/-- A rule as messages show it. -/
def render [Key κ] : Rule α κ → String
  | .literal key => Key.quote key
  | .range lo hi => "[" ++ Key.quote lo ++ "-" ++ Key.quote hi ++ "]"
  | .predicate p => "<" ++ p.label ++ ">"
  | .seq rules => "(" ++ " ".intercalate (renderAll rules) ++ ")"
  | .alt rules => "(" ++ " | ".intercalate (renderAll rules) ++ ")"
  | .oneOf rules => "(" ++ " || ".intercalate (renderAll rules) ++ ")"
  | .star r => render r ++ "*"
  | .plus r => render r ++ "+"
  | .opt r => render r ++ "?"
  | .untilEnd r => render r ++ "!"
  | .except r => "^" ++ render r
  | .ref name => name

def renderAll [Key κ] : List (Rule α κ) → List String
  | [] => []
  | r :: rs => render r :: renderAll rs

end

end Rule

end Peg
