import Peg.Repetition
import Peg.Token

/-!
Declarations: a notation for whole parsers. `name = "pattern";` declares a kind of
token, and `name -> alternatives;` a rule over tokens. This module holds the syntax
trees of the notation, how they are written, and which rules they denote.
-/

namespace Peg

/-- What stands in the sequences of a rule, with the repetition mark behind it. -/
inductive Term where
  /-- The name of a kind of token or of a rule. -/
  | name (id : String) (repetition : Option Repetition)
  /-- A quoted pattern, which declares a kind of token by being mentioned. -/
  | quoted (body : String) (repetition : Option Repetition)
  /-- Alternative sequences between brackets. -/
  | group (alternatives : List (List Term)) (repetition : Option Repetition)

/-- A property of all terms has to be passed on from the terms inside brackets to the
brackets. -/
@[elab_as_elim, induction_eliminator]
theorem Term.inductionOn {motive : Term → Prop} (t : Term)
    (name : ∀ id repetition, motive (.name id repetition))
    (quoted : ∀ body repetition, motive (.quoted body repetition))
    (group : ∀ alternatives repetition, (∀ ts ∈ alternatives, ∀ t ∈ ts, motive t) →
      motive (.group alternatives repetition)) : motive t := by
  refine Term.rec (motive_1 := motive)
    (motive_2 := fun alternatives => ∀ ts ∈ alternatives, ∀ t ∈ ts, motive t)
    (motive_3 := fun ts => ∀ t ∈ ts, motive t) name quoted group ?_ ?_ ?_ ?_ t
  · intro ts hts
    cases hts
  · intro ts tss hts htss us hus
    rcases List.mem_cons.mp hus with rfl | hus
    · exact hts
    · exact htss us hus
  · intro t ht
    cases ht
  · intro t ts ht hts u hu
    rcases List.mem_cons.mp hu with rfl | hu
    · exact ht
    · exact hts u hu

/-- Sequences of terms, of which the first that matches is taken. -/
abbrev Alternation := List (List Term)

inductive Declaration where
  | token (name body : String)
  | rule (name : String) (alternatives : Alternation)

/-- A quoted pattern as it is written, which is also what its kind is called. -/
def quotation (body : String) : String :=
  "\"" ++ body ++ "\""

def markLexeme (repetition : Option Repetition) : List String :=
  (repetition.map (String.singleton ·.mark)).toList

mutual

/-- The words that a term is written with. -/
def Term.lexemes : Term → List String
  | .name id repetition => id :: markLexeme repetition
  | .quoted body repetition => quotation body :: markLexeme repetition
  | .group alternatives repetition =>
      "(" :: Alternation.lexemes alternatives ++ ")" :: markLexeme repetition

def Term.allLexemes : List Term → List String
  | [] => []
  | t :: ts => t.lexemes ++ Term.allLexemes ts

def Alternation.lexemes : Alternation → List String
  | [] => []
  | [ts] => Term.allLexemes ts
  | ts :: tss => Term.allLexemes ts ++ "|" :: Alternation.lexemes tss

end

theorem Term.allLexemes_eq_flatMap (ts : List Term) :
    Term.allLexemes ts = ts.flatMap Term.lexemes := by
  induction ts with
  | nil => rfl
  | cons t ts ih => simp [Term.allLexemes, ih]

/-- All sequences but the first stand behind a bar. -/
theorem Alternation.lexemes_cons (ts : List Term) (tss : Alternation) :
    Alternation.lexemes (ts :: tss) =
      Term.allLexemes ts ++ tss.flatMap fun ts => "|" :: Term.allLexemes ts := by
  induction tss generalizing ts with
  | nil => simp [Alternation.lexemes]
  | cons us tss ih => simp [Alternation.lexemes, ih]

def Declaration.lexemes : Declaration → List String
  | .token name body => [name, "=", quotation body, ";"]
  | .rule name alternatives => name :: "->" :: alternatives.lexemes ++ [";"]

/-- Declarations written with a blank between any two words. -/
def Declaration.print (ds : List Declaration) : String :=
  " ".intercalate (ds.flatMap Declaration.lexemes)

mutual

/-- A name denotes the tokens of that kind if there is such a kind, and else the
rule of that name. -/
def Term.meaning (isKind : String → Bool) : Term → Rule Token String
  | .name id repetition =>
      (if isKind id then Rule.literal id else Rule.ref id).repeated repetition
  | .quoted body repetition => (Rule.literal (quotation body)).repeated repetition
  | .group alternatives repetition =>
      (Rule.ofParts .alt (Alternation.meanings isKind alternatives)).repeated repetition

def Term.meanings (isKind : String → Bool) : List Term → List (Rule Token String)
  | [] => []
  | t :: ts => t.meaning isKind :: Term.meanings isKind ts

def Alternation.meanings (isKind : String → Bool) : Alternation → List (Rule Token String)
  | [] => []
  | ts :: tss => Rule.ofParts .seq (Term.meanings isKind ts) :: Alternation.meanings isKind tss

end

def Alternation.meaning (isKind : String → Bool) (alternatives : Alternation) :
    Rule Token String :=
  Rule.ofParts .alt (alternatives.meanings isKind)

theorem Term.meanings_eq_map (isKind : String → Bool) (ts : List Term) :
    Term.meanings isKind ts = ts.map (Term.meaning isKind) := by
  induction ts with
  | nil => rfl
  | cons t ts ih => simp [Term.meanings, ih]

theorem Alternation.meanings_eq_map (isKind : String → Bool) (alternatives : Alternation) :
    alternatives.meanings isKind =
      alternatives.map fun ts => Rule.ofParts .seq (Term.meanings isKind ts) := by
  induction alternatives with
  | nil => rfl
  | cons ts tss ih => simp [Alternation.meanings, ih]

mutual

/-- The bodies of the quoted patterns in a term, from left to right. -/
def Term.quotedBodies : Term → List String
  | .name _ _ => []
  | .quoted body _ => [body]
  | .group alternatives _ => Alternation.quotedBodies alternatives

def Term.allQuotedBodies : List Term → List String
  | [] => []
  | t :: ts => t.quotedBodies ++ Term.allQuotedBodies ts

def Alternation.quotedBodies : Alternation → List String
  | [] => []
  | ts :: tss => Term.allQuotedBodies ts ++ Alternation.quotedBodies tss

end

theorem Term.allQuotedBodies_eq_flatMap (ts : List Term) :
    Term.allQuotedBodies ts = ts.flatMap Term.quotedBodies := by
  induction ts with
  | nil => rfl
  | cons t ts ih => simp [Term.allQuotedBodies, ih]

theorem Alternation.quotedBodies_eq_flatMap (alternatives : Alternation) :
    alternatives.quotedBodies = alternatives.flatMap Term.allQuotedBodies := by
  induction alternatives with
  | nil => rfl
  | cons ts tss ih => simp [Alternation.quotedBodies, ih]

end Peg
