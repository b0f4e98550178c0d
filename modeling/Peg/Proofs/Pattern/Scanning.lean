import Peg.Proofs.Declaration.Termination
import Peg.Proofs.Pattern.Lexemes

/-!
The tokens of patterns by one pass over the characters. All kinds of token compete for each
place in a source, but which of them wins, and how far it goes, can be told from the
character at hand. So the pass from left to right finds the same tokens, and fails where
there are none: on a backslash with nothing behind it.
-/

namespace Peg.Pattern

/-- A backslash is one token together with the character behind it; each operator, and each
other character, is one by itself. -/
def scanFrom (pos : Nat) : List Char → Option (List Token)
  | [] => some []
  | c :: cs =>
      if c = '\\' then
        match cs with
        | [] => none
        | d :: ds => (scanFrom (pos + 2) ds).map (⟨"special", String.ofList [c, d], pos⟩ :: ·)
      else
        let kind := if c ∈ operators then String.singleton c else "literal"
        (scanFrom (pos + 1) cs).map (⟨kind, String.singleton c, pos⟩ :: ·)

def scan (text : String) : Option (List Token) :=
  scanFrom 0 text.toList

variable {cs : List Char} {ts : List Token} {ws : List Lexeme} {pos : Nat}

theorem scanFrom_escaped (pos : Nat) (c : Char) (cs : List Char) :
    scanFrom pos ('\\' :: c :: cs) =
      (scanFrom (pos + 2) cs).map (⟨"special", String.ofList ['\\', c], pos⟩ :: ·) := by
  rw [scanFrom, if_pos rfl]

theorem scanFrom_operator {c : Char} (hc : c ∈ operators) (pos : Nat) (cs : List Char) :
    scanFrom pos (c :: cs) =
      (scanFrom (pos + 1) cs).map (⟨String.singleton c, String.singleton c, pos⟩ :: ·) := by
  have hbackslash : c ≠ '\\' := by
    rintro rfl
    exact absurd hc (by decide)
  rw [scanFrom.eq_def]
  simp only [if_neg hbackslash, if_pos hc]

theorem scanFrom_plain {c : Char} (hc : c ∉ reserved) (pos : Nat) (cs : List Char) :
    scanFrom pos (c :: cs) =
      (scanFrom (pos + 1) cs).map (⟨"literal", String.singleton c, pos⟩ :: ·) := by
  rw [mem_reserved_iff, not_or] at hc
  rw [scanFrom.eq_def]
  simp only [if_neg hc.1, if_neg hc.2]

theorem scanFrom_unescaped {c : Char} (hc : c ≠ '\\') (pos : Nat) (cs : List Char) :
    ∃ kind, scanFrom pos (c :: cs) =
      (scanFrom (pos + 1) cs).map (⟨kind, String.singleton c, pos⟩ :: ·) := by
  by_cases hop : c ∈ operators
  · exact ⟨_, scanFrom_operator hop pos cs⟩
  · have hplain : c ∉ reserved := by
      rw [mem_reserved_iff]
      exact not_or.mpr ⟨hop, hc⟩
    exact ⟨_, scanFrom_plain hplain pos cs⟩

/-- What tokens are spelled with is scanned as these tokens, whatever comes behind. -/
theorem scanFrom_append (h : ∀ w ∈ ws, Spelled w) (pos : Nat) (rest : List Char) :
    scanFrom pos (ws.flatMap Prod.snd ++ rest) =
      (scanFrom (pos + (ws.flatMap Prod.snd).length) rest).map (Token.placed pos ws ++ ·) := by
  induction ws generalizing pos with
  | nil => exact Option.map_id'.symm
  | cons w ws ih =>
      obtain ⟨hw, hws⟩ := List.forall_mem_cons.mp h
      rw [List.flatMap_cons, List.append_assoc, List.length_append]
      cases hw with
      | @operator c hc =>
          rw [operatorLexeme, List.singleton_append, scanFrom_operator hc, ih hws,
            Option.map_map, List.length_singleton, Nat.add_assoc]
          rfl
      | plain c =>
          rw [List.singleton_append, scanFrom_plain c.property, ih hws, Option.map_map,
            List.length_singleton, Nat.add_assoc]
          rfl
      | escaped c =>
          rw [List.cons_append, List.singleton_append, scanFrom_escaped, ih hws,
            Option.map_map, List.length_cons, List.length_singleton, Nat.add_assoc]
          rfl

/-- Characters are what tokens are spelled with, but perhaps for a last backslash. -/
theorem exists_spelled (cs : List Char) :
    ∃ ws : List Lexeme, (∀ w ∈ ws, Spelled w) ∧
      (ws.flatMap Prod.snd = cs ∨ ws.flatMap Prod.snd ++ ['\\'] = cs) := by
  fun_induction scanFrom 0 cs with
  | case1 => exact ⟨[], by simp, .inl rfl⟩
  | case2 => exact ⟨[], by simp, .inr rfl⟩
  | case3 pos c cs ih =>
      obtain ⟨ws, hws, hcs⟩ := ih
      refine ⟨("special", ['\\', c]) :: ws, List.forall_mem_cons.mpr ⟨.escaped c, hws⟩, ?_⟩
      simpa using hcs
  | case4 pos c cs hbackslash kind ih =>
      obtain ⟨ws, hws, hcs⟩ := ih
      have hc : ∃ name, Spelled (name, [c]) := by
        by_cases hop : c ∈ operators
        · exact ⟨_, .operator hop⟩
        · have hplain : c ∉ reserved := by
            rw [mem_reserved_iff]
            exact not_or.mpr ⟨hop, hbackslash⟩
          exact ⟨_, .plain ⟨c, hplain⟩⟩
      obtain ⟨name, hname⟩ := hc
      refine ⟨(name, [c]) :: ws, List.forall_mem_cons.mpr ⟨hname, hws⟩, ?_⟩
      simpa using hcs

theorem scan_spelled (h : ∀ w ∈ ws, Spelled w) {text : String}
    (htext : ws.flatMap Prod.snd = text.toList) : scan text = some (Token.placed 0 ws) := by
  have hscan := scanFrom_append h 0 []
  rw [List.append_nil, htext] at hscan
  exact hscan.trans (congrArg some (List.append_nil _))

/-- There is no token for a backslash with nothing behind it. -/
theorem scan_dangling (h : ∀ w ∈ ws, Spelled w) {text : String}
    (htext : ws.flatMap Prod.snd ++ ['\\'] = text.toList) : scan text = none := by
  rw [scan, ← htext, scanFrom_append h]
  rfl

theorem tokens_eq_of_spelled (h : ∀ w ∈ ws, Spelled w) {text : String}
    (htext : ws.flatMap Prod.snd = text.toList) :
    lexer.tokens text = .done (Token.placed 0 ws) := by
  rw [Lexer.tokens_eq_of_cuts (cuts_of_spelled h) htext, List.filter_eq_self.mpr]
  intro t ht
  have hw : t.lexeme ∈ ws := by
    rw [← Token.map_lexeme_placed 0 ws]
    exact List.mem_map_of_mem ht
  have hvisible : lexer.hidden t.kind = false := hidden_eq_false _ (h _ hw).kind_mem
  rw [hvisible]
  rfl

/-- The tokens that the pass finds are those of the lexer, which fails where it finds none. -/
theorem tokens_scan (text : String) :
    (∀ ts, lexer.tokens text = .done ts ↔ scan text = some ts) ∧
      ((∃ f, lexer.tokens text = .failed f) ↔ scan text = none) := by
  obtain ⟨ws, hws, htext | htext⟩ := exists_spelled text.toList
  · simp [tokens_eq_of_spelled hws htext, scan_spelled hws htext]
  · -- tokens would spell the text, and the pass would find them again
    have hscan := scan_dangling hws htext
    have hends := Lexer.tokens_ne_endless lexer_withoutLeftRecursion text
    have hnone (ts : List Token) : lexer.tokens text ≠ .done ts := by
      intro hts
      obtain ⟨hspelled, hchars⟩ := spelled_of_tokens hts
      have hlexemes : (ts.map Token.lexeme).flatMap Prod.snd = text.toList := by
        rw [List.flatMap_map]
        exact hchars
      have hsome := scan_spelled (List.forall_mem_map.mpr hspelled) hlexemes
      rw [hscan] at hsome
      cases hsome
    cases htokens : lexer.tokens text with
    | done ts => exact absurd htokens (hnone ts)
    | failed f => simp [hscan]
    | endless => exact absurd htokens hends

end Peg.Pattern
