import Peg.Proofs.Declaration.Lexemes
import Peg.Proofs.Pattern.Soundness

/-!
The tokens of laid out words. The words of sound declarations are lexemes, and what
a layout puts behind a word is what may follow it: a blank, another word that does not
prolong it, or nothing. So in every layout of some words the lexer finds just these words.
-/

namespace Peg.Declaration

/-- The kind of the token that a word is. -/
def wordKind (w : String) : String :=
  match w.toList with
  | [] => ""
  | c :: _ => kindOf c

def wordLexeme (w : String) : Lexeme :=
  (wordKind w, w.toList)

/-- Texts that are tokens by themselves. -/
structure IsWord (w : String) : Prop where
  spelled : Spelled (wordLexeme w)
  visible : wordKind w ≠ "_ws"

theorem wordKind_cons {w : String} {c : Char} {cs : List Char} (h : w.toList = c :: cs) :
    wordKind w = kindOf c := by
  rw [wordKind, h]

theorem wordKind_of_isIdentifier {w : String} (h : isIdentifier w = true) :
    wordKind w = "id" := by
  unfold isIdentifier at h
  cases hw : w.toList with
  | nil => simp [hw] at h
  | cons c cs =>
      simp only [hw, Bool.and_eq_true] at h
      rw [wordKind_cons hw, kindOf_letter h.1]

theorem isWord_of_isIdentifier {w : String} (h : isIdentifier w = true) : IsWord w := by
  have hkind := wordKind_of_isIdentifier h
  unfold isIdentifier at h
  cases hw : w.toList with
  | nil => simp [hw] at h
  | cons c cs =>
      simp only [hw, Bool.and_eq_true] at h
      refine ⟨?_, by simp [hkind]⟩
      rw [wordLexeme, hkind, hw]
      exact .identifier h.1 h.2

theorem isWord_operator {c : Char} (hc : c ∈ operators) : IsWord (String.singleton c) := by
  have hkind : wordKind (String.singleton c) = String.singleton c := by
    rw [wordKind_cons (String.toList_singleton c), kindOf_operator c hc]
  refine ⟨?_, by rw [hkind]; exact singleton_ne (by decide) c⟩
  rw [wordLexeme, hkind, String.toList_singleton]
  exact .operator hc

theorem isWord_arrow : IsWord "->" := by
  refine ⟨?_, by decide⟩
  exact .arrow

theorem toList_quotation (body : String) :
    (quotation body).toList = '"' :: (body.toList ++ ['"']) := by
  simp [quotation]

theorem wordKind_quotation (body : String) : wordKind (quotation body) = "str" := by
  rw [wordKind_cons (toList_quotation body)]
  decide

theorem isWord_quotation {body : String} (h : Quotable body.toList) :
    IsWord (quotation body) := by
  have hkind := wordKind_quotation body
  refine ⟨?_, by simp [hkind]⟩
  rw [wordLexeme, hkind, toList_quotation]
  exact .quoted h

/-- A word begins with neither a blank nor, unless it is an identifier, a letter or digit. -/
theorem IsWord.head {w : String} (h : IsWord w) :
    ∃ c cs, w.toList = c :: cs ∧ isBlank c = false ∧
      (isIdentifier w = false → isIdentifierChar c = false) := by
  obtain ⟨hspelled, hvisible⟩ := h
  have hoperators : ∀ c ∈ operators, isBlank c = false ∧ isIdentifierChar c = false := by
    simp [operators, isBlank, isIdentifierChar, isLetter, isDigit]
  generalize hlexeme : wordLexeme w = lexeme at hspelled
  cases hspelled with
  | blanks nonempty hcs => exact absurd (congrArg Prod.fst hlexeme) hvisible
  | @identifier c cs hc hcs =>
      have hw : w.toList = c :: cs := congrArg Prod.snd hlexeme
      refine ⟨c, cs, hw, isBlank_eq_false_of_isLetter hc, ?_⟩
      intro hidentifier
      simp [isIdentifier, hw, hc, hcs] at hidentifier
  | quoted hcs =>
      have hw := congrArg Prod.snd hlexeme
      exact ⟨'"', _, hw, by decide, fun _ => by decide⟩
  | arrow =>
      have hw := congrArg Prod.snd hlexeme
      exact ⟨'-', _, hw, by decide, fun _ => by decide⟩
  | @operator c hc =>
      have hw := congrArg Prod.snd hlexeme
      exact ⟨c, [], hw, (hoperators c hc).1, fun _ => (hoperators c hc).2⟩

variable {input : Array Char}

theorem hidden_iff : ∀ kind ∈ lexer.kindNames, lexer.hidden kind = true ↔ kind = "_ws" := by
  decide

theorem IsWord.visible_kind {w : String} (h : IsWord w) : lexer.hidden (wordKind w) = false := by
  have hfollows : Follows (wordKind w) [] := by simp [Follows]
  have htakes : lexer.Takes #[] (wordKind w) w.toList [] := h.spelled.takes hfollows
  rw [← Bool.not_eq_true, hidden_iff _ htakes.declared]
  exact h.visible

/-- Lexemes with the words that are left of them, and the text that they make up. -/
structure Lexes (input : Array Char) (ws : List String) (text : List Char)
    (lexemes : List Lexeme) : Prop where
  cuts : lexer.Cuts input lexemes
  chars : lexemes.flatMap Prod.snd = text
  visible : lexemes.filter (fun lexeme => !lexer.hidden lexeme.1) = ws.map wordLexeme

theorem Lexes.word {ws : List String} {text : List Char} {lexemes : List Lexeme}
    (h : Lexes input ws text lexemes) {w : String} (hw : IsWord w)
    (hfollows : Follows (wordKind w) text) :
    Lexes input (w :: ws) (w.toList ++ text) (wordLexeme w :: lexemes) := by
  have hhidden : lexer.hidden (wordLexeme w).1 = false := hw.visible_kind
  refine ⟨.cons (hw.spelled.takes ?_) h.cuts, ?_, ?_⟩
  · rw [h.chars]
    exact hfollows
  · rw [List.flatMap_cons, h.chars]
    rfl
  · rw [List.filter_cons, hhidden, h.visible]
    rfl

theorem Lexes.gap {ws : List String} {text : List Char} {lexemes : List Lexeme}
    (h : Lexes input ws text lexemes) {gap : List Char} (hgap : gap.all isBlank = true)
    (hhead : ∀ c ∈ text.head?, isBlank c = false) :
    ∃ lexemes', Lexes input ws (gap ++ text) lexemes' := by
  by_cases hne : gap = []
  · subst hne
    exact ⟨lexemes, h⟩
  · have hspelled : Spelled ("_ws", gap) := .blanks hne hgap
    have hfollows : Follows "_ws" (lexemes.flatMap Prod.snd) := by
      rw [h.chars]
      exact ⟨fun _ => hhead, fun hid => absurd hid (by decide)⟩
    have hhidden : lexer.hidden "_ws" = true := by decide
    refine ⟨("_ws", gap) :: lexemes, .cons (hspelled.takes hfollows) h.cuts, ?_, ?_⟩
    · rw [List.flatMap_cons, h.chars]
    · rw [List.filter_cons, hhidden, h.visible]
      rfl

theorem IsWord.isIdentifier {w : String} (h : IsWord w) (hkind : wordKind w = "id") :
    isIdentifier w = true := by
  have hspelled := h.spelled
  generalize hlexeme : wordLexeme w = lexeme at hspelled
  have hid : lexeme.1 = "id" := by rw [← hlexeme, ← hkind, wordLexeme]
  cases hspelled with
  | blanks nonempty hcs => exact absurd hid (by simp)
  | @identifier c cs hc hcs =>
      have hw : w.toList = c :: cs := congrArg Prod.snd hlexeme
      simp [Declaration.isIdentifier, hw, hc, hcs]
  | quoted hcs => exact absurd hid (by simp)
  | arrow => exact absurd hid (by simp)
  | @operator c hc => exact absurd hid (singleton_ne (by decide) c)

theorem isIdentifierChar_eq_false_of_isBlank {c : Char} (hc : isBlank c = true) :
    isIdentifierChar c = false := by
  rw [isBlank, Bool.or_eq_true, Bool.or_eq_true] at hc
  simp only [decide_eq_true_eq] at hc
  rcases hc with (rfl | rfl) | rfl <;> decide

/-- What a layout puts behind a word may follow it. -/
theorem follows_layout {v : String} (hv : IsWord v) {ws : List String} {text : List Char}
    (h : Layout (some v) ws text) (hws : ∀ w ∈ ws, IsWord w) : Follows (wordKind v) text := by
  refine ⟨fun hkind => absurd hkind hv.visible, ?_⟩
  intro hkind c hc
  cases h with
  | nil previous hgap =>
      apply isIdentifierChar_eq_false_of_isBlank
      exact List.all_eq_true.mp hgap c (List.mem_of_mem_head? hc)
  | @cons _ gap w ws text hgap apart tail =>
      cases gap with
      | nil =>
          obtain ⟨d, ds, hd, -, hchar⟩ := (hws w List.mem_cons_self).head
          obtain rfl : d = c := by simpa [hd] using hc
          apply hchar
          rw [← Bool.not_eq_true]
          intro hw
          exact apart v rfl (hv.isIdentifier hkind) hw rfl
      | cons b gap =>
          obtain rfl : b = c := by simpa using hc
          apply isIdentifierChar_eq_false_of_isBlank
          exact List.all_eq_true.mp hgap b List.mem_cons_self

theorem Layout.lexes {previous : Option String} {ws : List String} {text : List Char}
    (h : Layout previous ws text) (hws : ∀ w ∈ ws, IsWord w) :
    ∃ lexemes, Lexes input ws text lexemes := by
  induction h with
  | @nil previous gap hgap =>
      have hnil : Lexes input [] [] [] := ⟨.nil, rfl, rfl⟩
      simpa using hnil.gap hgap (by simp)
  | @cons previous gap w ws text hgap apart tail ih =>
      obtain ⟨hw, hws⟩ := List.forall_mem_cons.mp hws
      obtain ⟨lexemes, hlexes⟩ := ih hws
      obtain ⟨c, cs, hc, hblank, -⟩ := hw.head
      have hword := hlexes.word hw (follows_layout hw tail hws)
      rw [List.append_assoc]
      refine hword.gap hgap ?_
      simp [hc, hblank]

/-- The lexer finds the words of a layout, and nothing else. -/
theorem tokens_of_layout {ws : List String} {text : String}
    (h : Layout none ws text.toList) (hws : ∀ w ∈ ws, IsWord w) :
    ∃ ts, lexer.tokens text = .done ts ∧ ts.map Token.lexeme = ws.map wordLexeme := by
  obtain ⟨lexemes, hlexes⟩ := h.lexes hws
  rw [← hlexes.visible]
  exact Lexer.tokens_of_cuts hlexes.cuts hlexes.chars

theorem quotesEscaped_plain {c : Char} (hbackslash : c ≠ '\\') (hquote : c ≠ '"') (run : Nat)
    (cs : List Char) : quotesEscaped run (c :: cs) = quotesEscaped 0 cs := by
  rw [quotesEscaped]
  · exact hbackslash
  · exact hquote

/-- Where patterns keep their quotes behind backslashes, no quote ends them early. A
backslash takes the next character along, so that an even number of them stands in front
of every character that is not taken along. -/
theorem quotable_of_spelled {lexemes : List Lexeme} (h : ∀ w ∈ lexemes, Pattern.Spelled w)
    {run : Nat} (hrun : run % 2 = 0)
    (hescaped : quotesEscaped run (lexemes.flatMap Prod.snd) = true) :
    Quotable (lexemes.flatMap Prod.snd) := by
  induction lexemes generalizing run with
  | nil => exact .nil
  | cons w lexemes ih =>
      obtain ⟨hw, hlexemes⟩ := List.forall_mem_cons.mp h
      rw [List.flatMap_cons] at hescaped ⊢
      have hplain {c : Char} (hbackslash : c ≠ '\\') (hquote : c ≠ '"')
          (h : quotesEscaped run (c :: lexemes.flatMap Prod.snd) = true) :
          Quotable (c :: lexemes.flatMap Prod.snd) := by
        rw [quotesEscaped_plain hbackslash hquote] at h
        exact .plain hbackslash hquote (ih hlexemes rfl h)
      cases hw with
      | @operator c hc =>
          have hoperators : ∀ c ∈ Pattern.operators, c ≠ '\\' ∧ c ≠ '"' := by
            simp [Pattern.operators]
          exact hplain (hoperators c hc).1 (hoperators c hc).2 hescaped
      | plain c =>
          have hbackslash : c.val ≠ '\\' := by
            intro hc
            exact c.property (Pattern.mem_reserved_iff.mpr (.inr hc))
          have hquote : c.val ≠ '"' := by
            intro hc
            simp [hc, quotesEscaped, hrun] at hescaped
          exact hplain hbackslash hquote hescaped
      | escaped c =>
          have hrest : quotesEscaped (run + 1) (c :: lexemes.flatMap Prod.snd) = true := hescaped
          by_cases hbackslash : c = '\\'
          · subst hbackslash
            have htail : quotesEscaped (run + 1 + 1) (lexemes.flatMap Prod.snd) = true := hrest
            exact .escaped _ (ih hlexemes (by omega) htail)
          by_cases hquote : c = '"'
          · subst hquote
            simp only [quotesEscaped, Bool.and_eq_true] at hrest
            exact .escaped _ (ih hlexemes rfl hrest.2)
          rw [quotesEscaped_plain hbackslash hquote] at hrest
          exact .escaped c (ih hlexemes rfl hrest)

/-- What some patterns are printed as may stand between quotes if its quotes are escaped. -/
theorem WellQuoted.of_printAll {body : String} (ps : List Pattern)
    (hprint : Pattern.printAll ps = body.toList)
    (hescaped : quotesEscaped 0 body.toList = true) : WellQuoted body :=
  ⟨⟨_, Pattern.compile_of_printAll hprint⟩, hescaped⟩

theorem WellQuoted.quotable {body : String} (h : WellQuoted body) : Quotable body.toList := by
  obtain ⟨r, hr⟩ := h.compiles
  obtain ⟨ps, hps, -⟩ := Outcome.map_eq_done_iff.mp hr
  have hbody := Pattern.parse_eq_done_iff.mp hps
  rw [← Pattern.chars_allLexemes] at hbody
  have hescaped := h.escaped
  rw [← hbody] at hescaped ⊢
  exact quotable_of_spelled (Pattern.spelled_allLexemes ps) rfl hescaped

end Peg.Declaration

namespace Peg

open Declaration

/-- A term in which nothing can be wrong but what stands between quotes. -/
inductive Term.Sound : Term → Prop
  | name {id : String} (hid : isIdentifier id = true) (repetition : Option Repetition) :
      Sound (.name id repetition)
  | quoted {body : String} (hbody : Quotable body.toList) (repetition : Option Repetition) :
      Sound (.quoted body repetition)
  | group {alternatives : List (List Term)} (nonempty : alternatives ≠ [])
      (sequences : ∀ ts ∈ alternatives, ts ≠ [])
      (terms : ∀ ts ∈ alternatives, ∀ t ∈ ts, Sound t)
      (repetition : Option Repetition) : Sound (.group alternatives repetition)

structure Alternation.Sound (alternatives : Alternation) : Prop where
  nonempty : alternatives ≠ []
  sequences : ∀ ts ∈ alternatives, ts ≠ []
  terms : ∀ ts ∈ alternatives, ∀ t ∈ ts, t.Sound

/-- A declaration in which nothing can be wrong but what stands between quotes. -/
inductive Declaration.Sound : Declaration → Prop
  | token {name body : String} (hname : isIdentifier name = true)
      (hbody : Quotable body.toList) : Sound (.token name body)
  | rule {name : String} {alternatives : Alternation} (hname : isIdentifier name = true)
      (halternatives : alternatives.Sound) : Sound (.rule name alternatives)

theorem Term.WellFormed.sound {t : Term} (h : t.WellFormed) : t.Sound := by
  induction h with
  | name hid repetition => exact .name hid repetition
  | quoted hbody repetition => exact .quoted hbody.quotable repetition
  | group nonempty sequences terms repetition ih =>
      exact .group nonempty sequences ih repetition

theorem Declaration.WellFormed.sound {d : Declaration} (h : d.WellFormed) : d.Sound := by
  cases h with
  | token hname hbody => exact .token hname hbody.quotable
  | rule hname halternatives =>
      exact .rule hname ⟨halternatives.nonempty, halternatives.sequences,
        fun ts hts t ht => (halternatives.terms ts hts t ht).sound⟩

end Peg

namespace Peg.Declaration

theorem isWord_markLexeme (repetition : Option Repetition) :
    ∀ w ∈ markLexeme repetition, IsWord w := by
  cases repetition with
  | none => simp [markLexeme]
  | some repetition =>
      have hmark : repetition.mark ∈ operators := by
        cases repetition <;> decide
      simpa [markLexeme] using isWord_operator hmark

theorem isWord_sequence {ts : List Term} (hts : ∀ t ∈ ts, ∀ w ∈ t.lexemes, IsWord w) :
    ∀ w ∈ Term.allLexemes ts, IsWord w := by
  rw [Term.allLexemes_eq_flatMap]
  intro w hw
  obtain ⟨t, ht, hw⟩ := List.mem_flatMap.mp hw
  exact hts t ht w hw

theorem isWord_alternation {tss : Alternation}
    (htss : ∀ ts ∈ tss, ∀ t ∈ ts, ∀ w ∈ t.lexemes, IsWord w) :
    ∀ w ∈ tss.lexemes, IsWord w := by
  cases tss with
  | nil => simp [Alternation.lexemes]
  | cons ts tss =>
      obtain ⟨hts, htss⟩ := List.forall_mem_cons.mp htss
      rw [Alternation.lexemes_cons, List.forall_mem_append]
      refine ⟨isWord_sequence hts, ?_⟩
      intro w hw
      obtain ⟨us, hus, hw⟩ := List.mem_flatMap.mp hw
      rcases List.mem_cons.mp hw with rfl | hw
      · exact isWord_operator (c := '|') (by decide)
      · exact isWord_sequence (htss us hus) w hw

theorem isWord_term {t : Term} (h : t.Sound) : ∀ w ∈ t.lexemes, IsWord w := by
  induction h with
  | name hid repetition =>
      rw [Term.lexemes, List.forall_mem_cons]
      exact ⟨isWord_of_isIdentifier hid, isWord_markLexeme repetition⟩
  | quoted hbody repetition =>
      rw [Term.lexemes, List.forall_mem_cons]
      exact ⟨isWord_quotation hbody, isWord_markLexeme repetition⟩
  | group nonempty sequences terms repetition ih =>
      rw [Term.lexemes, List.forall_mem_append, List.forall_mem_cons, List.forall_mem_cons]
      exact ⟨⟨isWord_operator (c := '(') (by decide), isWord_alternation ih⟩,
        isWord_operator (c := ')') (by decide), isWord_markLexeme repetition⟩

theorem isWord_declaration {d : Declaration} (h : d.Sound) :
    ∀ w ∈ d.lexemes, IsWord w := by
  have hsemicolon : IsWord ";" := isWord_operator (c := ';') (by decide)
  cases h with
  | token hname hbody =>
      simp only [lexemes, List.forall_mem_cons]
      exact ⟨isWord_of_isIdentifier hname, isWord_operator (c := '=') (by decide),
        isWord_quotation hbody, hsemicolon, by simp⟩
  | rule hname halternatives =>
      have hwords := isWord_alternation fun ts hts t ht =>
        isWord_term (halternatives.terms ts hts t ht)
      simp only [lexemes, List.forall_mem_append, List.forall_mem_cons]
      exact ⟨⟨isWord_of_isIdentifier hname, isWord_arrow, hwords⟩, hsemicolon, by simp⟩

end Peg.Declaration
