import Peg.Proofs.Declaration.Queries
import Peg.Proofs.Matching.Transport

/-!
Rules without predicates look at nothing but the kinds of tokens. So they come to the same on
any two inputs of the same kinds: the trees have one shape, whose leaves hold the tokens at the
same places of either input. This is shown by way of an input of placeholders, of which nothing
is known but their kinds and where they stand. Declared grammars have no predicates.
-/

namespace Peg

/-- Trees that are told apart by the inputs only that their items come from: where one has the
item at some place of its input, the other has the item at that place of its own. -/
def ParseTree.Corresponds {α : Type} (input input' : Array α) (tree tree' : ParseTree α) :
    Prop :=
  ∃ places : ParseTree Nat,
    tree.map some = places.map (input[·]?) ∧ tree'.map some = places.map (input'[·]?)

/-- Results with corresponding trees, and cursors at the same position behind them. -/
def Cursor.Corresponds {α : Type} (input input' : Array α) :
    ParseTree α × Cursor α → ParseTree α × Cursor α → Prop
  | (tree, next), (tree', next') =>
      ParseTree.Corresponds input input' tree tree' ∧ next.pos = next'.pos

namespace Outcome

variable {β β' γ γ' : Type}

/-- Two attempts that come to related values, or to the same failure, or to no end. -/
inductive Alike (R : β → β' → Prop) : Outcome β → Outcome β' → Prop
  | done {b : β} {b' : β'} (h : R b b') : Alike R (.done b) (.done b')
  | failed (f : Failure) : Alike R (.failed f) (.failed f)
  | endless : Alike R .endless .endless

variable {R : β → β' → Prop} {S : γ → γ' → Prop} {o : Outcome β} {o' : Outcome β'}

theorem Alike.bind {next : β → Outcome γ} {next' : β' → Outcome γ'} (h : Alike R o o')
    (hnext : ∀ b b', R b b' → Alike S (next b) (next' b')) :
    Alike S (o.bind next) (o'.bind next') := by
  cases h with
  | done h => exact hnext _ _ h
  | failed f => exact .failed f
  | endless => exact .endless

theorem Alike.map {g : β → γ} {g' : β' → γ'} (h : Alike R o o')
    (hg : ∀ b b', R b b' → S (g b) (g' b')) : Alike S (o.map g) (o'.map g') := by
  cases h with
  | done h => exact .done (hg _ _ h)
  | failed f => exact .failed f
  | endless => exact .endless

end Outcome

namespace Token

variable {ts ts' : Array Token}

/-- Tokens of which only the kinds are given. The position of each is its place among them. -/
def placeholders (kinds : Array String) : Array Token :=
  kinds.mapIdx fun i kind => ⟨kind, "", i⟩

/-- The token at the place of a placeholder. -/
def fill (ts : Array Token) (t : Token) : Token :=
  ts[t.pos]?.getD t

theorem getElem?_placeholders (ts : Array Token) (i : Nat) :
    (placeholders (ts.map kind))[i]? = ts[i]?.map fun t => ⟨t.kind, "", i⟩ := by
  simp [placeholders, Function.comp_def]

theorem getElem?_of_mem_placeholders {t : Token} (h : t ∈ placeholders (ts.map kind)) :
    ts[t.pos]? = some (fill ts t) ∧ (fill ts t).kind = t.kind := by
  obtain ⟨i, hi⟩ := Array.mem_iff_getElem?.mp h
  rw [getElem?_placeholders, Option.map_eq_some_iff] at hi
  obtain ⟨u, hu, rfl⟩ := hi
  simp [fill, hu]

theorem embeds_placeholders {kinds : Array String} (hkinds : ts.map kind = kinds) :
    Embeds (fill ts) 0 (placeholders kinds) ts := by
  subst hkinds
  refine ⟨by simp [placeholders], ?_, fun t ht => (getElem?_of_mem_placeholders ht).2⟩
  intro i
  rw [Nat.zero_add, getElem?_placeholders]
  cases hi : ts[i]? with
  | none => rfl
  | some t => simp [fill, hi]

theorem corresponds_fill (hkinds : ts'.map kind = ts.map kind) {tree : ParseTree Token}
    (h : ∀ t ∈ tree.values, t ∈ placeholders (ts.map kind)) :
    ParseTree.Corresponds ts ts' (tree.map (fill ts)) (tree.map (fill ts')) := by
  have hfill (us : Array Token) (hus : us.map kind = ts.map kind) :
      (tree.map (fill us)).map some = (tree.map pos).map (us[·]?) := by
    rw [ParseTree.map_map, ParseTree.map_map]
    refine ParseTree.map_congr ?_
    intro t ht
    have hmem : t ∈ placeholders (us.map kind) := hus ▸ h t ht
    exact (getElem?_of_mem_placeholders hmem).1.symm
  exact ⟨tree.map pos, hfill ts rfl, hfill ts' hkinds⟩

end Token

namespace Match

/-- Matches that stop at the same place with corresponding trees. -/
def Corresponds {α : Type} (input input' : Array α) (r r' : Match α) : Prop :=
  ParseTree.Corresponds input input' r.tree r'.tree ∧ r.stop = r'.stop

end Match

namespace Grammar

open Token

/-- No rule of the grammar tests items by anything but their keys. -/
def WithoutPredicates {α κ : Type} (g : Grammar α κ) : Prop :=
  ∀ entry ∈ g.rules, entry.2.predicates = []

variable {ts ts' : Array Token} {g : Grammar Token String} {p : Nat}

/-- What comes to the same on placeholders as on either input comes to the same on both. -/
theorem alike_of_carries {m₀ m m' : Matcher Token} (hkinds : ts'.map kind = ts.map kind)
    (hm₀ : Matcher.Lossless (placeholders (ts.map kind)) m₀)
    (hp : p ≤ (placeholders (ts.map kind)).size)
    (h : m (0 + p) = (m₀ p).bimap (.shift 0) (.carry (fill ts) 0))
    (h' : m' (0 + p) = (m₀ p).bimap (.shift 0) (.carry (fill ts') 0)) :
    Outcome.Alike (Match.Corresponds ts ts') (m p) (m' p) := by
  rw [Nat.zero_add] at h h'
  rw [h, h']
  cases hrun : m₀ p with
  | done r =>
      have hcovers := hm₀ p r hp hrun
      exact .done ⟨corresponds_fill hkinds fun t ht => hcovers.mem_of_mem_values ht, rfl⟩
  | failed f => exact .failed _
  | endless => exact .endless

namespace WithoutPredicates

theorem respects (hg : g.WithoutPredicates) {f : Token → Token} :
    ∀ entry ∈ g.rules, entry.2.Respects f ts :=
  fun entry hentry => Rule.respects_of_predicates_eq_nil (hg entry hentry)

theorem ruleMatcher_alike (hg : g.WithoutPredicates) (hkinds : ts'.map kind = ts.map kind)
    {r : Rule Token String} (hr : r.predicates = []) (hp : p ≤ ts.size) :
    Outcome.Alike (Match.Corresponds ts ts') (g.ruleMatcher ts r p) (g.ruleMatcher ts' r p) := by
  have hp₀ : p ≤ (placeholders (ts.map kind)).size := by simpa [placeholders] using hp
  have hr₀ {f : Token → Token} : r.Respects f (placeholders (ts.map kind)) :=
    Rule.respects_of_predicates_eq_nil hr
  exact alike_of_carries hkinds (g.ruleMatcher_lossless _ r) hp₀
    (ruleMatcher_carries (embeds_placeholders rfl) hg.respects hr₀ hp₀)
    (ruleMatcher_carries (embeds_placeholders hkinds) hg.respects hr₀ hp₀)

theorem namedMatcher_alike (hg : g.WithoutPredicates) (hkinds : ts'.map kind = ts.map kind)
    (name : String) (hp : p ≤ ts.size) :
    Outcome.Alike (Match.Corresponds ts ts') (g.namedMatcher ts name p)
      (g.namedMatcher ts' name p) := by
  have hp₀ : p ≤ (placeholders (ts.map kind)).size := by simpa [placeholders] using hp
  exact alike_of_carries hkinds (g.namedMatcher_lossless _ name) hp₀
    (namedMatcher_carries (embeds_placeholders rfl) hg.respects name hp₀)
    (namedMatcher_carries (embeds_placeholders hkinds) hg.respects name hp₀)

end WithoutPredicates

end Grammar

namespace Rule

variable {α κ : Type}

@[simp] theorem predicates_repeated (r : Rule α κ) (repetition : Option Repetition) :
    (r.repeated repetition).predicates = r.predicates := by
  cases repetition with
  | none => rfl
  | some repetition => cases repetition <;> rfl

end Rule

theorem Alternation.predicates_meanings {isKind : String → Bool} {alternatives : Alternation}
    (h : ∀ terms ∈ alternatives, ∀ t ∈ terms, (t.meaning isKind).predicates = []) :
    (Rule.ofParts .alt (Alternation.meanings isKind alternatives)).predicates = [] := by
  rw [Rule.collect_ofParts Rule.predicates_alt, meanings_eq_map, List.flatMap_eq_nil_iff,
    List.forall_mem_map]
  intro terms hterms
  rw [Rule.collect_ofParts Rule.predicates_seq, Term.meanings_eq_map,
    List.flatMap_eq_nil_iff, List.forall_mem_map]
  exact h terms hterms

theorem Term.predicates_meaning (isKind : String → Bool) (t : Term) :
    (t.meaning isKind).predicates = [] := by
  induction t with
  | name id repetition =>
      rw [meaning, Rule.predicates_repeated]
      split
      · rfl
      · rfl
  | quoted body repetition =>
      rw [meaning, Rule.predicates_repeated]
      rfl
  | group alternatives repetition ih =>
      rw [meaning, Rule.predicates_repeated]
      exact Alternation.predicates_meanings ih

namespace Parser

variable {p : Parser}

theorem Implements.withoutPredicates {ds : List Declaration} (h : p.Implements ds) :
    p.grammar.WithoutPredicates := by
  rw [Grammar.WithoutPredicates, h.rules, List.forall_mem_map]
  exact fun entry _ =>
    Alternation.predicates_meanings fun _ _ t _ => t.predicates_meaning _

/-- Also whether tokens are left over depends on their number only. -/
theorem parseTokens_alike (hg : p.grammar.WithoutPredicates) {ts ts' : List Token}
    (hkinds : ts'.map Token.kind = ts.map Token.kind) :
    Outcome.Alike (ParseTree.Corresponds ts.toArray ts'.toArray) (p.parseTokens ts)
      (p.parseTokens ts') := by
  have hlength : ts'.length = ts.length := by simpa using congrArg List.length hkinds
  have harrays : ts'.toArray.map Token.kind = ts.toArray.map Token.kind := by
    rw [List.map_toArray, List.map_toArray, hkinds]
  refine (hg.namedMatcher_alike harrays p.grammar.start (Nat.zero_le _)).bind ?_
  rintro r r' ⟨htree, hstop⟩
  rw [← hstop, hlength]
  split
  · exact .failed _
  · exact .done htree

/-- An application of a rule without predicates, by a grammar without predicates, depends on
the kinds of the tokens only: on tokens of the same kinds it stops at the same place with a
corresponding tree, or fails with the same failure, or comes to no end on either. Every parser
that a source describes has such a grammar, so texts whose visible tokens have the same kinds
are parsed alike. -/
theorem parsing_depends_on_kinds :
    (∀ g : Grammar Token String, g.WithoutPredicates → ∀ c c' : Cursor Token,
      c.pos ≤ c.input.size → c'.pos = c.pos →
      c'.input.map Token.kind = c.input.map Token.kind →
      (∀ r : Rule Token String, r.predicates = [] →
        Outcome.Alike (Cursor.Corresponds c.input c'.input) (g.applyRule r c)
          (g.applyRule r c')) ∧
      ∀ name, Outcome.Alike (Cursor.Corresponds c.input c'.input) (g.applyNamed name c)
        (g.applyNamed name c')) ∧
    ∀ src p, Declaration.load src = .done p → ∀ text text' ts ts',
      p.lexer.tokens text = .done ts → p.lexer.tokens text' = .done ts' →
      ts'.map Token.kind = ts.map Token.kind →
      Outcome.Alike (ParseTree.Corresponds ts.toArray ts'.toArray) (p.parse text)
        (p.parse text') := by
  constructor
  · intro g hg c c' hc hpos hkinds
    constructor
    · intro r hr
      rw [Grammar.applyRule, Grammar.applyRule, hpos]
      exact (hg.ruleMatcher_alike hkinds hr hc).map fun _ _ h => h
    · intro name
      rw [Grammar.applyNamed, Grammar.applyNamed, hpos]
      exact (hg.namedMatcher_alike hkinds name hc).map fun _ _ h => h
  · intro src p hp text text' ts ts' hts hts' hkinds
    rw [Declaration.load_eq_ofSource] at hp
    obtain ⟨ds, -, hds⟩ := Outcome.bind_eq_done_iff.mp hp
    have hg := (implements_of_ofDeclarations hds).withoutPredicates
    rw [parse, parse, hts, hts']
    exact parseTokens_alike hg hkinds

open Declaration

private def pairDeclarations : List Declaration :=
  [.rule "pair" [[.name "word" none, .quoted "," none, .name "word" none]],
   .token "word" "[a-z]+"]

private theorem compile_comma : Pattern.compile "," = .done (.literal ',') := by
  let comma : Pattern := .atom (.plain ⟨',', by decide⟩) none
  have hprint : Pattern.printAll [comma] = ",".toList := rfl
  exact Pattern.compile_of_printAll hprint

private theorem compile_letters :
    Pattern.compile "[a-z]+" = .done (.plus (.range 'a' 'z')) := by
  let letters : Pattern := .atom (.range ⟨'a', by decide⟩ ⟨'z', by decide⟩) (some .plus)
  have hprint : Pattern.printAll [letters] = "[a-z]+".toList := rfl
  exact Pattern.compile_of_printAll hprint

private theorem pairDeclarations_wellFormed : AllWellFormed pairDeclarations where
  each := by
    have hcomma : WellQuoted "," := ⟨⟨_, compile_comma⟩, rfl⟩
    have hletters : WellQuoted "[a-z]+" := ⟨⟨_, compile_letters⟩, rfl⟩
    have hrule : Alternation.WellFormed
        [[.name "word" none, .quoted "," none, .name "word" none]] := by
      refine ⟨by simp, by simp, ?_⟩
      simp only [List.forall_mem_singleton, List.forall_mem_cons]
      exact ⟨.name rfl none, .quoted hcomma none, .name rfl none⟩
    rw [pairDeclarations, List.forall_mem_cons, List.forall_mem_singleton]
    exact ⟨.rule rfl hrule, .token rfl hletters⟩
  distinct := by decide
  has_rule := List.cons_ne_nil _ _

private def pairLexer : Lexer where
  kinds := [("\",\"", .literal ','), ("word", .plus (.range 'a' 'z'))]
  dispatch := .firstMatch
  hidden := Lexer.hiddenByName
  distinct := by decide

private theorem lexer_of_implements {p : Parser} (h : p.Implements pairDeclarations) :
    p.lexer = pairLexer := by
  obtain ⟨⟨kinds, dispatch, hidden, distinct⟩, g⟩ := p
  obtain ⟨-, -, hkinds, rfl, rfl⟩ := h
  have hunique : Relator.RightUnique Describes := fun source kind kind' hkind hkind' =>
    Prod.ext (hkind.1.trans hkind'.1.symm) (Outcome.done.inj (hkind.2.symm.trans hkind'.2))
  have hpair : List.Forall₂ Describes (kindSources pairDeclarations) pairLexer.kinds :=
    .cons ⟨rfl, compile_comma⟩ (.cons ⟨rfl, compile_letters⟩ .nil)
  obtain rfl : kinds = pairLexer.kinds := List.right_unique_forall₂' hunique hkinds hpair
  rfl

/-- Texts whose words are different, and of different lengths. -/
theorem parsing_depends_on_kinds_words :
    let ts : List Token := [⟨"word", "ab", 0⟩, ⟨"\",\"", ",", 2⟩, ⟨"word", "c", 3⟩]
    let ts' : List Token := [⟨"word", "x", 0⟩, ⟨"\",\"", ",", 1⟩, ⟨"word", "yz", 2⟩]
    let c : Cursor Token := ⟨ts.toArray, 1⟩
    let c' : Cursor Token := ⟨ts'.toArray, 1⟩
    let r : Rule Token String := .plus (.alt [.ref "pair", .literal "\",\""])
    ∃ p, Declaration.load (Declaration.print pairDeclarations) = .done p ∧
      (p.grammar.WithoutPredicates ∧ c.pos ≤ c.input.size ∧ c'.pos = c.pos ∧
        c'.input.map Token.kind = c.input.map Token.kind ∧ r.predicates = [] ∧
        Outcome.Alike (Cursor.Corresponds c.input c'.input) (p.grammar.applyRule r c)
          (p.grammar.applyRule r c')) ∧
      (p.lexer.tokens "ab,c" = .done ts ∧ p.lexer.tokens "x,yz" = .done ts' ∧
        ts'.map Token.kind = ts.map Token.kind ∧
        Outcome.Alike (ParseTree.Corresponds ts.toArray ts'.toArray) (p.parse "ab,c")
          (p.parse "x,yz")) := by
  intro ts ts' c c' r
  obtain ⟨p, hp, himplements⟩ :=
    load_implements pairDeclarations_wellFormed (parse_print pairDeclarations_wellFormed.each)
  have hlexer := lexer_of_implements himplements
  have hts : pairLexer.tokens "ab,c" = .done ts := rfl
  have hts' : pairLexer.tokens "x,yz" = .done ts' := rfl
  rw [← hlexer] at hts hts'
  have hg := himplements.withoutPredicates
  have hc : c.pos ≤ c.input.size := by decide
  have hkinds : c'.input.map Token.kind = c.input.map Token.kind := by
    simp only [c, c', ts, ts', List.map_toArray, List.map_cons, List.map_nil]
  obtain ⟨hrules, -⟩ := parsing_depends_on_kinds.1 p.grammar hg c c' hc rfl hkinds
  exact ⟨p, hp, ⟨hg, hc, rfl, hkinds, rfl, hrules r rfl⟩, hts, hts', rfl,
    parsing_depends_on_kinds.2 _ p hp _ _ ts ts' hts hts' rfl⟩

end Parser

end Peg
