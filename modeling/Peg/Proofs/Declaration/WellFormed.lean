import Mathlib.Data.List.Forall2
import Peg.Declaration.Compile

/-!
Well-formed declarations, the texts that they may be written as, and the parser that they
are to describe. Nothing here refers to how declarations are lexed, parsed or compiled.
-/

namespace Peg

namespace Declaration

/-- The underscore counts as a letter. -/
def isLetter (c : Char) : Bool :=
  c = '_' || ('a' ≤ c && c ≤ 'z') || ('A' ≤ c && c ≤ 'Z')

def isDigit (c : Char) : Bool :=
  '0' ≤ c && c ≤ '9'

def isIdentifierChar (c : Char) : Bool :=
  isLetter c || isDigit c

/-- A letter, and then letters and digits. -/
def isIdentifier (s : String) : Bool :=
  match s.toList with
  | [] => false
  | c :: cs => isLetter c && cs.all isIdentifierChar

/-- Whether every double quote stands behind an odd number of consecutive backslashes,
where `run` of them stand before the first character. -/
def quotesEscaped (run : Nat) : List Char → Bool
  | [] => true
  | '\\' :: cs => quotesEscaped (run + 1) cs
  | '"' :: cs => run % 2 = 1 && quotesEscaped 0 cs
  | _ :: cs => quotesEscaped 0 cs

/-- A body that may stand between quotes. -/
structure WellQuoted (body : String) : Prop where
  compiles : ∃ r, Pattern.compile body = .done r
  escaped : quotesEscaped 0 body.toList = true

end Declaration

open Declaration

inductive Term.WellFormed : Term → Prop
  | name {id : String} (hid : isIdentifier id = true) (repetition : Option Repetition) :
      WellFormed (.name id repetition)
  | quoted {body : String} (hbody : WellQuoted body) (repetition : Option Repetition) :
      WellFormed (.quoted body repetition)
  | group {alternatives : List (List Term)} (nonempty : alternatives ≠ [])
      (sequences : ∀ ts ∈ alternatives, ts ≠ [])
      (terms : ∀ ts ∈ alternatives, ∀ t ∈ ts, WellFormed t)
      (repetition : Option Repetition) : WellFormed (.group alternatives repetition)

/-- One sequence of terms or more, none of them empty. -/
structure Alternation.WellFormed (alternatives : Alternation) : Prop where
  nonempty : alternatives ≠ []
  sequences : ∀ ts ∈ alternatives, ts ≠ []
  terms : ∀ ts ∈ alternatives, ∀ t ∈ ts, t.WellFormed

namespace Declaration

/-- The name that is declared. -/
def name : Declaration → String
  | .token name _ => name
  | .rule name _ => name

inductive WellFormed : Declaration → Prop
  | token {name body : String} (hname : isIdentifier name = true) (hbody : WellQuoted body) :
      WellFormed (.token name body)
  | rule {name : String} {alternatives : Alternation} (hname : isIdentifier name = true)
      (halternatives : alternatives.WellFormed) : WellFormed (.rule name alternatives)

structure AllWellFormed (ds : List Declaration) : Prop where
  each : ∀ d ∈ ds, d.WellFormed
  distinct : (ds.map name).Nodup
  has_rule : rules ds ≠ []

def isBlank (c : Char) : Bool :=
  c = ' ' || c = '\n' || c = '\t'

/-- Words with blanks before, between and behind them, where `previous` is the word before
the first. Only two identifiers have to be kept apart. -/
inductive Layout : Option String → List String → List Char → Prop
  | nil (previous : Option String) {gap : List Char} (hgap : gap.all isBlank = true) :
      Layout previous [] gap
  | cons {previous : Option String} {gap : List Char} {w : String} {ws : List String}
      {text : List Char} (hgap : gap.all isBlank = true)
      (apart : ∀ v ∈ previous, isIdentifier v = true → isIdentifier w = true → gap ≠ [])
      (tail : Layout (some w) ws text) : Layout previous (w :: ws) (gap ++ w.toList ++ text)

/-- The quoted bodies that rules mention, each where it is mentioned first. -/
def mentioned (ds : List Declaration) : List String :=
  ((rules ds).flatMap fun entry => entry.2.quotedBodies).eraseDups

/-- The names of all kinds of token with the patterns that describe them: mentioned ones,
which are called what they are written as, and then declared ones. -/
def kindSources (ds : List Declaration) : List (String × String) :=
  (mentioned ds).map (fun body => (quotation body, body)) ++ tokens ds

/-- A kind of token has its name and the rule that its pattern compiles to. -/
def Describes (source : String × String) (kind : String × Rule Char Char) : Prop :=
  kind.1 = source.1 ∧ Pattern.compile source.2 = .done kind.2

/-- Whether a name is that of a declared kind of token. -/
def isTokenName (ds : List Declaration) (id : String) : Bool :=
  ((tokens ds).map Prod.fst).contains id

end Declaration

/-- A parser that does what declarations say. -/
structure Parser.Implements (p : Parser) (ds : List Declaration) : Prop where
  start : (rules ds).head?.map Prod.fst = some p.grammar.start
  rules : p.grammar.rules =
    (rules ds).map fun entry => (entry.1, entry.2.meaning (isTokenName ds))
  kinds : List.Forall₂ Describes (kindSources ds) p.lexer.kinds
  dispatch : p.lexer.dispatch = .firstMatch
  hidden : p.lexer.hidden = Lexer.hiddenByName

end Peg
