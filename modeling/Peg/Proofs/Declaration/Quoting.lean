import Mathlib.Data.List.DropRight
import Peg.Declaration.Queries
import Peg.Proofs.Declaration.Layout
import Peg.Proofs.Pattern.Scanning

/-!
Where quoted patterns end. In declarations only two backslashes, or a backslash and a quote,
make a pair; in patterns every backslash makes one with what stands behind it. Both come to
the same: a quote closes the text just if an even number of backslashes stands before it. So
what stands between quotes is always cut into the tokens of patterns, in which no quote is
without its backslash.
-/

namespace Peg.Declaration

variable {cs body : List Char} {input : Array Char} {p : Nat}

/-- How many backslashes some characters end with. -/
def trailingBackslashes (cs : List Char) : Nat :=
  (cs.rtakeWhile (· = '\\')).length

/-- A quote with an even number of backslashes right before it. -/
def ClosesAt (cs : List Char) (i : Nat) : Prop :=
  cs[i]? = some '"' ∧ trailingBackslashes (cs.take i) % 2 = 0

/-- The first quote that closes. -/
def FirstClosesAt (cs : List Char) (i : Nat) : Prop :=
  ClosesAt cs i ∧ ∀ j < i, ¬ ClosesAt cs j

theorem trailingBackslashes_backslash (cs : List Char) :
    trailingBackslashes (cs ++ ['\\']) = trailingBackslashes cs + 1 := by
  simp [trailingBackslashes, List.rtakeWhile_concat_pos]

theorem trailingBackslashes_other (cs : List Char) {c : Char} (hc : c ≠ '\\') :
    trailingBackslashes (cs ++ [c]) = 0 := by
  simp [trailingBackslashes, List.rtakeWhile_concat_neg, hc]

/-- Behind an even number of backslashes quotable characters leave an even number, and each
quote among them has an odd number before it. -/
theorem Quotable.parity (h : Quotable body) (before : List Char)
    (hbefore : trailingBackslashes before % 2 = 0) :
    trailingBackslashes (before ++ body) % 2 = 0 ∧
      ∀ i, body[i]? = some '"' → trailingBackslashes (before ++ body.take i) % 2 = 1 := by
  induction h generalizing before with
  | nil =>
      rw [List.append_nil]
      exact ⟨hbefore, by simp⟩
  | @plain c cs hbackslash hquote tail ih =>
      have hstep : trailingBackslashes (before ++ [c]) % 2 = 0 := by
        rw [trailingBackslashes_other before hbackslash]
      obtain ⟨heven, hodd⟩ := ih (before ++ [c]) hstep
      rw [List.append_assoc, List.singleton_append] at heven
      refine ⟨heven, ?_⟩
      intro i hi
      cases i with
      | zero => exact absurd (Option.some.inj hi) hquote
      | succ i =>
          have hbehind := hodd i hi
          rwa [List.append_assoc, List.singleton_append] at hbehind
  | @escaped c cs tail ih =>
      have hfirst := trailingBackslashes_backslash before
      have hstep : trailingBackslashes (before ++ ['\\'] ++ [c]) % 2 = 0 := by
        by_cases hc : c = '\\'
        · subst hc
          rw [trailingBackslashes_backslash, hfirst]
          omega
        · rw [trailingBackslashes_other _ hc]
      obtain ⟨heven, hodd⟩ := ih (before ++ ['\\'] ++ [c]) hstep
      simp only [List.append_assoc, List.singleton_append] at heven hodd
      refine ⟨heven, ?_⟩
      intro i hi
      match i with
      | 0 => exact absurd (Option.some.inj hi) (by decide)
      | 1 =>
          change trailingBackslashes (before ++ ['\\']) % 2 = 1
          omega
      | i + 2 => exact hodd i hi

/-- No quote among quotable characters closes. -/
theorem Quotable.not_closesAt (h : Quotable body) (rest : List Char) {i : Nat}
    (hi : i < body.length) : ¬ ClosesAt (body ++ rest) i := by
  rintro ⟨hquote, heven⟩
  rw [List.getElem?_append_left hi] at hquote
  rw [List.take_append_of_le_length hi.le] at heven
  have hodd := (h.parity [] rfl).2 i hquote
  rw [List.nil_append] at hodd
  omega

theorem Quotable.firstClosesAt (h : Quotable body) (rest : List Char) :
    FirstClosesAt (body ++ '"' :: rest) body.length := by
  have heven := (h.parity [] rfl).1
  refine ⟨⟨by simp, ?_⟩, fun i hi => h.not_closesAt _ hi⟩
  rwa [List.take_left]

/-- What follows a quote: quotable characters and a quote that closes, or quotable characters
up to the end, where a backslash may be left over. -/
theorem exists_quotable (cs : List Char) : ∃ body, Quotable body ∧
    ((∃ rest, cs = body ++ '"' :: rest) ∨ cs = body ∨ cs = body ++ ['\\']) := by
  match cs with
  | [] => exact ⟨[], .nil, .inr (.inl rfl)⟩
  | c :: cs =>
      by_cases hbackslash : c = '\\'
      · subst hbackslash
        match cs with
        | [] => exact ⟨[], .nil, .inr (.inr rfl)⟩
        | d :: ds =>
            obtain ⟨body, hbody, hds⟩ := exists_quotable ds
            exact ⟨'\\' :: d :: body, .escaped d hbody, by simpa using hds⟩
      by_cases hquote : c = '"'
      · subst hquote
        exact ⟨[], .nil, .inl ⟨cs, rfl⟩⟩
      · obtain ⟨body, hbody, hcs⟩ := exists_quotable cs
        exact ⟨c :: body, .plain hbackslash hquote hbody, by simpa using hcs⟩

theorem not_closesAt_of_quotable (h : Quotable body) (hcs : cs = body ∨ cs = body ++ ['\\'])
    (i : Nat) : ¬ ClosesAt cs i := by
  have hquotable : ¬ ClosesAt body i := by
    intro hcloses
    have hlt : i < body.length := (List.getElem?_eq_some_iff.mp hcloses.1).1
    rw [← List.append_nil body] at hcloses
    exact h.not_closesAt [] hlt hcloses
  rcases hcs with rfl | rfl
  · exact hquotable
  · intro hcloses
    by_cases hlt : i < body.length
    · exact h.not_closesAt _ hlt hcloses
    · have hlast := hcloses.1
      rw [List.getElem?_append_right (by omega)] at hlast
      obtain ⟨hindex, hchar⟩ := List.getElem?_eq_some_iff.mp hlast
      simp at hchar

def quotedRule : Rule Char Char :=
  .seq [.literal '"', .star quotableRule, .literal '"']

/-- The rule of quoted patterns is itself a pattern. -/
theorem compile_quotedRule :
    Pattern.compile "\"((\\\\\\\\)|(\\\\\")|^\")*\"" = .done quotedRule := by
  have hprint : Pattern.printAll
      [.atom (.plain ⟨'"', by decide⟩) none,
        .choice
          (.sequence (.atom (.escaped '\\') none) [.atom (.escaped '\\') none] none)
          (.sequence (.atom (.escaped '\\') none) [.atom (.plain ⟨'"', by decide⟩) none] none)
          [.except (.plain ⟨'"', by decide⟩)] (some .star),
        .atom (.plain ⟨'"', by decide⟩) none] =
      "\"((\\\\\\\\)|(\\\\\")|^\")*\"".toList := rfl
  exact Pattern.compile_of_printAll hprint

theorem rule?_str : lexer.grammar.rule? "str" = some quotedRule :=
  Lexer.rule?_of_mem_kinds (mem_kinds_iff.mpr (.inr (.inr (.inl ⟨rfl, rfl⟩))))

/-- Without a quote that closes, the quoted pattern never ends. -/
theorem refuses_unclosed (h : Quotable body) (hcs : cs = body ∨ cs = body ++ ['\\']) :
    lexer.grammar.Refuses input (.ref "str") ('"' :: cs) := by
  have hend : lexer.grammar.Refuses input quotableRule [] := refuses_quotableRule (by simp)
  have hbody : ∃ os, lexer.grammar.Yields input (.star quotableRule) cs [] os := by
    rcases hcs with rfl | rfl
    · have hall := yields_quotable_append h (Grammar.yields_star_nil hend)
      rwa [List.append_nil] at hall
    · have hlast : lexer.grammar.Yields input quotableRule ['\\'] [] [.item '\\'] :=
        yields_unpaired (by decide) (by simp)
      have hone := Grammar.yields_star_cons (List.cons_ne_nil '\\' [])
        (by simpa using hlast) (Grammar.yields_star_nil hend)
      exact yields_quotable_append h hone
  obtain ⟨os, hyields⟩ := hbody
  have hclose : lexer.grammar.Refuses input (.seq [.literal '"']) [] :=
    Grammar.refuses_seq_head (Grammar.refuses_literal (by simp))
  have hrest := Grammar.refuses_seq_tail hyields hclose
  rw [List.append_nil] at hrest
  exact Grammar.refuses_ref rule?_str (Grammar.refuses_seq_tail (yields_char '"' cs) hrest)

theorem yields_closed (h : Quotable body) (rest : List Char) :
    ∃ os, lexer.grammar.Yields input (.ref "str") ('"' :: (body ++ ['"'])) rest os := by
  obtain ⟨os, hyields⟩ := @yields_quoted input body h rest
  exact ⟨_, Grammar.yields_ref rule?_str hyields⟩

theorem remains_quote (hp : input[p]? = some '"') :
    Remains input p ('"' :: input.toList.drop (p + 1)) := by
  obtain ⟨hlt, hquote⟩ := Array.getElem?_eq_some_iff.mp hp
  rw [← hquote]
  exact .of_lt hlt

/-- A quoted pattern ends behind the quote that closes it, or fails for want of one. -/
theorem str_cases (h : Remains input p ('"' :: cs)) :
    (∃ body rest, Quotable body ∧ cs = body ++ '"' :: rest ∧
        ∀ q, lexer.Ends input "str" p q ↔ q = p + (body.length + 2)) ∨
      (∀ i, ¬ ClosesAt cs i) ∧ ∃ f, lexer.grammar.namedMatcher input "str" p = .failed f := by
  obtain ⟨body, hbody, ⟨rest, rfl⟩ | hcs⟩ := exists_quotable cs
  · have hall : Remains input p (('"' :: (body ++ ['"'])) ++ rest) := by simpa using h
    obtain ⟨os, hyields⟩ := @yields_closed body input hbody rest
    refine .inl ⟨body, rest, hbody, rfl, ?_⟩
    intro q
    rw [Lexer.ends_iff_of_yields hyields hall]
    simp
  · exact .inr ⟨not_closesAt_of_quotable hbody hcs,
      Lexer.namedMatcher_of_refuses (refuses_unclosed hbody hcs) h⟩

theorem ends_iff_closes (h : Remains input p ('"' :: cs)) :
    ((∃ q, lexer.Ends input "str" p q) ↔ ∃ i, ClosesAt cs i) ∧
      ((∃ f, lexer.grammar.namedMatcher input "str" p = .failed f) ↔ ¬ ∃ i, ClosesAt cs i) := by
  rcases str_cases h with ⟨body, rest, hbody, rfl, hends⟩ | ⟨hunclosed, f, hf⟩
  · obtain ⟨tree, htree⟩ := (hends _).mpr rfl
    have hcloses : ∃ i, ClosesAt (body ++ '"' :: rest) i := ⟨_, (hbody.firstClosesAt rest).1⟩
    have hfailed : ¬ ∃ f, lexer.grammar.namedMatcher input "str" p = .failed f := by
      simp [htree]
    exact ⟨iff_of_true ⟨_, tree, htree⟩ hcloses, iff_of_false hfailed (not_not_intro hcloses)⟩
  · have hends : ¬ ∃ q, lexer.Ends input "str" p q := by
      simp [Lexer.Ends, hf]
    have hcloses : ¬ ∃ i, ClosesAt cs i := not_exists.mpr hunclosed
    exact ⟨iff_of_false hends hcloses, iff_of_true ⟨f, hf⟩ hcloses⟩

/-- What a quoted pattern ends with is a text of quotable characters between two quotes. -/
theorem exists_body_of_ends (h : Remains input p ('"' :: cs)) {q : Nat}
    (hq : lexer.Ends input "str" p q) :
    ∃ body : String, Quotable body.toList ∧ FirstClosesAt cs body.toList.length ∧
      body.toList = cs.take body.toList.length ∧ q = p + 1 + body.toList.length + 1 ∧
      (Lexer.Segment.token input ⟨"str", p, q⟩).value = quotation body := by
  rcases str_cases h with ⟨body, rest, hbody, rfl, hends⟩ | ⟨-, f, hf⟩
  · obtain rfl := (hends q).mp hq
    have hall : Remains input p (('"' :: (body ++ ['"'])) ++ rest) := by simpa using h
    have hlength : ('"' :: (body ++ ['"'])).length = body.length + 2 := by simp
    refine ⟨String.ofList body, ?_, ?_, ?_, ?_, ?_⟩
    · rwa [String.toList_ofList]
    · rw [String.toList_ofList]
      exact hbody.firstClosesAt rest
    · rw [String.toList_ofList, List.take_left]
    · rw [String.toList_ofList]
      omega
    · rw [← hlength, Lexer.Segment.token_eq hall, ← String.toList_inj, toList_quotation,
        String.toList_ofList, String.toList_ofList]
  · obtain ⟨tree, htree⟩ := hq
    cases hf.symm.trans htree

theorem unquote_quotation (body : String) : unquote (quotation body) = body := by
  rw [unquote, toList_quotation]
  simp

/-- Quotable characters are cut into the tokens of patterns, and each quote among them is the
second character of a token. -/
theorem Quotable.scanFrom (h : Quotable cs) (pos : Nat) :
    ∃ ts, Pattern.scanFrom pos cs = some ts ∧
      ∀ i, cs[i]? = some '"' → ∃ j, pos + i = j + 1 ∧ ⟨"special", "\\\"", j⟩ ∈ ts := by
  induction h generalizing pos with
  | nil => exact ⟨[], rfl, by simp⟩
  | @plain c cs hbackslash hquote tail ih =>
      obtain ⟨ts, hts, hquotes⟩ := ih (pos + 1)
      obtain ⟨kind, hscan⟩ := Pattern.scanFrom_unescaped hbackslash pos cs
      rw [hscan, hts]
      refine ⟨_, rfl, ?_⟩
      intro i hi
      cases i with
      | zero => exact absurd (Option.some.inj hi) hquote
      | succ i =>
          obtain ⟨j, hj, hmem⟩ := hquotes i hi
          exact ⟨j, by omega, List.mem_cons_of_mem _ hmem⟩
  | @escaped c cs tail ih =>
      obtain ⟨ts, hts, hquotes⟩ := ih (pos + 2)
      rw [Pattern.scanFrom_escaped, hts]
      refine ⟨_, rfl, ?_⟩
      intro i hi
      match i with
      | 0 => exact absurd (Option.some.inj hi) (by decide)
      | 1 =>
          obtain rfl : c = '"' := Option.some.inj hi
          exact ⟨pos, rfl, List.mem_cons_self⟩
      | i + 2 =>
          obtain ⟨j, hj, hmem⟩ := hquotes i hi
          exact ⟨j, by omega, List.mem_cons_of_mem _ hmem⟩

/-- Each quote in a text is the second character of a token. -/
def QuotesEscaped (text : String) (ts : List Token) : Prop :=
  ∀ i, text.toList[i]? = some '"' → ∃ j, i = j + 1 ∧ ⟨"special", "\\\"", j⟩ ∈ ts

theorem tokens_of_quotable {body : String} (h : Quotable body.toList) :
    ∃ ts, Pattern.lexer.tokens body = .done ts ∧ QuotesEscaped body ts := by
  obtain ⟨ts, hts, hquotes⟩ := h.scanFrom 0
  refine ⟨ts, ((Pattern.tokens_scan body).1 ts).mpr hts, ?_⟩
  intro i hi
  obtain ⟨j, hj, hmem⟩ := hquotes i hi
  exact ⟨j, by omega, hmem⟩

end Peg.Declaration
