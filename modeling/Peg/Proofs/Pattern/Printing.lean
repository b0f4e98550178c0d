import Peg.Proofs.Pattern.Lexemes

/-!
The lexemes that patterns are written with. The characters of these lexemes are what is
printed, and all of them are spelled as their kinds demand, so that the tokens of a
printed pattern are known.
-/

namespace Peg.Pattern

def Atom.lexemes : Atom → List Lexeme
  | .plain c => [("literal", [c.val])]
  | .escaped c => [("special", ['\\', c])]
  | .range lo hi =>
      [operatorLexeme '[', ("literal", [lo.val]), operatorLexeme '-', ("literal", [hi.val]),
        operatorLexeme ']']

def markLexemes (repetition : Option Repetition) : List Lexeme :=
  (repetition.map fun r => operatorLexeme r.mark).toList

mutual

def lexemes : Pattern → List Lexeme
  | .atom a repetition => a.lexemes ++ markLexemes repetition
  | .sequence p ps repetition =>
      operatorLexeme '(' :: lexemes p ++ allLexemes ps ++
        operatorLexeme ')' :: markLexemes repetition
  | .choice p q qs repetition =>
      operatorLexeme '(' :: lexemes p ++ operatorLexeme '|' :: lexemes q ++
        alternativeLexemes qs ++ operatorLexeme ')' :: markLexemes repetition
  | .except a => operatorLexeme '^' :: a.lexemes

def allLexemes : List Pattern → List Lexeme
  | [] => []
  | p :: ps => lexemes p ++ allLexemes ps

def alternativeLexemes : List Pattern → List Lexeme
  | [] => []
  | p :: ps => operatorLexeme '|' :: lexemes p ++ alternativeLexemes ps

end

theorem allLexemes_eq_flatMap (ps : List Pattern) : allLexemes ps = ps.flatMap lexemes := by
  induction ps with
  | nil => rfl
  | cons p ps ih => simp [allLexemes, ih]

theorem alternativeLexemes_eq_flatMap (ps : List Pattern) :
    alternativeLexemes ps = ps.flatMap fun p => operatorLexeme '|' :: lexemes p := by
  induction ps with
  | nil => rfl
  | cons p ps ih => simp [alternativeLexemes, ih]

theorem Atom.chars_lexemes (a : Atom) : a.lexemes.flatMap Prod.snd = a.print := by
  cases a <;> rfl

theorem chars_markLexemes (repetition : Option Repetition) :
    (markLexemes repetition).flatMap Prod.snd = printMark repetition := by
  cases repetition <;> rfl

theorem chars_lexemes (p : Pattern) : p.lexemes.flatMap Prod.snd = p.print := by
  induction p with
  | atom a repetition =>
      rw [lexemes, print, List.flatMap_append, a.chars_lexemes, chars_markLexemes]
  | sequence p ps repetition ihp ihps =>
      have hps : (ps.flatMap lexemes).flatMap Prod.snd = ps.flatMap print := by
        rw [List.flatMap_assoc]
        exact List.flatMap_congr ihps
      rw [lexemes, print, allLexemes_eq_flatMap, printAll_eq_flatMap]
      simp [operatorLexeme, ihp, hps, chars_markLexemes]
  | choice p q qs repetition ihp ihq ihqs =>
      have hqs : (qs.flatMap fun p => operatorLexeme '|' :: lexemes p).flatMap Prod.snd =
          qs.flatMap fun p => '|' :: print p := by
        rw [List.flatMap_assoc]
        refine List.flatMap_congr ?_
        intro q hq
        rw [List.flatMap_cons, ihqs q hq]
        rfl
      rw [lexemes, print, alternativeLexemes_eq_flatMap, printAlternatives_eq_flatMap]
      simp [operatorLexeme, ihp, ihq, ← hqs, chars_markLexemes]
  | except a =>
      rw [lexemes, print, List.flatMap_cons, a.chars_lexemes]
      rfl

theorem chars_allLexemes (ps : List Pattern) :
    (allLexemes ps).flatMap Prod.snd = printAll ps := by
  rw [allLexemes_eq_flatMap, printAll_eq_flatMap, List.flatMap_assoc]
  exact List.flatMap_congr fun p _ => p.chars_lexemes

theorem Atom.spelled (a : Atom) : ∀ w ∈ a.lexemes, Spelled w := by
  cases a with
  | plain c => simpa [lexemes] using Spelled.plain c
  | escaped c => simpa [lexemes] using Spelled.escaped c
  | range lo hi =>
      have hoperator (c : Char) (hc : c ∈ operators) := Spelled.operator hc
      simp only [lexemes, List.forall_mem_cons]
      exact ⟨hoperator '[' (by decide), .plain lo, hoperator '-' (by decide), .plain hi,
        hoperator ']' (by decide), by simp⟩

theorem spelled_markLexemes (repetition : Option Repetition) :
    ∀ w ∈ markLexemes repetition, Spelled w := by
  cases repetition with
  | none => simp [markLexemes]
  | some repetition =>
      have hmark : repetition.mark ∈ operators := by
        cases repetition <;> decide
      simpa [markLexemes] using Spelled.operator hmark

theorem spelled_lexemes (p : Pattern) : ∀ w ∈ p.lexemes, Spelled w := by
  have hopen : Spelled (operatorLexeme '(') := .operator (by decide)
  have hclose : Spelled (operatorLexeme ')') := .operator (by decide)
  have hbar : Spelled (operatorLexeme '|') := .operator (by decide)
  have hcaret : Spelled (operatorLexeme '^') := .operator (by decide)
  induction p with
  | atom a repetition =>
      rw [lexemes, List.forall_mem_append]
      exact ⟨a.spelled, spelled_markLexemes repetition⟩
  | sequence p ps repetition ihp ihps =>
      rw [lexemes, allLexemes_eq_flatMap]
      have hps : ∀ w ∈ ps.flatMap lexemes, Spelled w := by
        intro w hw
        obtain ⟨q, hq, hw⟩ := List.mem_flatMap.mp hw
        exact ihps q hq w hw
      simp only [List.forall_mem_append, List.forall_mem_cons]
      exact ⟨⟨⟨hopen, ihp⟩, hps⟩, hclose, spelled_markLexemes repetition⟩
  | choice p q qs repetition ihp ihq ihqs =>
      rw [lexemes, alternativeLexemes_eq_flatMap]
      have hqs : ∀ w ∈ qs.flatMap (fun p => operatorLexeme '|' :: lexemes p), Spelled w := by
        intro w hw
        obtain ⟨q, hq, hw⟩ := List.mem_flatMap.mp hw
        rcases List.mem_cons.mp hw with rfl | hw
        · exact hbar
        · exact ihqs q hq w hw
      simp only [List.cons_append, List.append_assoc, List.forall_mem_append,
        List.forall_mem_cons]
      exact ⟨hopen, ihp, hbar, ihq, hqs, hclose, spelled_markLexemes repetition⟩
  | except a =>
      rw [lexemes, List.forall_mem_cons]
      exact ⟨hcaret, a.spelled⟩

theorem spelled_allLexemes (ps : List Pattern) : ∀ w ∈ allLexemes ps, Spelled w := by
  rw [allLexemes_eq_flatMap]
  intro w hw
  obtain ⟨p, -, hw⟩ := List.mem_flatMap.mp hw
  exact p.spelled_lexemes w hw

end Peg.Pattern
