import Peg.Proofs.Declaration.Quoting
import Peg.Proofs.Lexing.Ambiguity

/-!
The tokens that declarations are parsed from are words, each of the kind that its characters
tell. For most kinds this is so however the rule comes to match. What a quoted text ends
with depends on which alternative comes first, so that it is known from where it closes.
-/

namespace Peg.Declaration

variable {C : String → List Char → List (Outline Char) → Prop} {cs : List Char}
  {os : List (Outline Char)} {input : Array Char} {p q : Nat} {kind : String}

theorem nullClosed : lexer.grammar.NullClosed (· == Lexer.rootName) :=
  Lexer.nullClosed_rootName (by decide)

theorem lexer_exclusive : lexer.Exclusive :=
  firstTells.exclusive nullClosed

theorem blank_of_reads (h : (Rule.alt ([' ', '\n', '\t'].map .literal)).Reads C cs os) :
    ∃ c, cs = [c] ∧ isBlank c = true := by
  obtain ⟨r, hr, hread⟩ := Rule.reads_alt_iff.mp h
  obtain ⟨d, hd, rfl⟩ := List.mem_map.mp hr
  obtain ⟨c, rfl, rfl, -⟩ := Rule.reads_literal_iff.mp hread
  exact ⟨c, rfl, mem_blanks_iff.mp hd⟩

theorem letter_of_reads (h : (Rule.alt letters).Reads C cs os) :
    ∃ c, cs = [c] ∧ isLetter c = true := by
  obtain ⟨r, hr, hread⟩ := Rule.reads_alt_iff.mp h
  simp only [letters, List.mem_cons, List.not_mem_nil, or_false] at hr
  simp only [isLetter, Bool.or_eq_true, decide_eq_true_eq]
  rcases hr with rfl | rfl | rfl
  · obtain ⟨c, hc, rfl, -⟩ := Rule.reads_literal_iff.mp hread
    exact ⟨c, rfl, .inl (.inl hc)⟩
  · cases hread with
    | range hx => exact ⟨_, rfl, .inl (.inr hx)⟩
  · cases hread with
    | range hx => exact ⟨_, rfl, .inr hx⟩

theorem identifierChar_of_reads
    (h : (Rule.alt (letters ++ [.range '0' '9'])).Reads C cs os) :
    ∃ c, cs = [c] ∧ isIdentifierChar c = true := by
  obtain ⟨r, hr, hread⟩ := Rule.reads_alt_iff.mp h
  simp only [isIdentifierChar, Bool.or_eq_true]
  rcases List.mem_append.mp hr with hr | hr
  · obtain ⟨c, hcs, hc⟩ := letter_of_reads (Rule.reads_alt_iff.mpr ⟨r, hr, hread⟩)
    exact ⟨c, hcs, .inl hc⟩
  · obtain rfl := List.mem_singleton.mp hr
    cases hread with
    | range hx => exact ⟨_, rfl, .inr hx⟩

theorem all_of_reads_star {r : Rule Char Char} {test : Char → Bool}
    (hr : ∀ cs os, r.Reads C cs os → ∃ c, cs = [c] ∧ test c = true)
    (h : (Rule.star r).Reads C cs os) : cs.all test = true := by
  refine h.star_induction (P := fun cs _ => cs.all test = true) rfl ?_
  intro cs cs' os os' hread ih
  obtain ⟨c, rfl, hc⟩ := hr cs os hread
  simp [hc, ih]

/-- All kinds but one keep to their spelling however their rules come to match. Of quoted
texts it counts which alternative is tried first. -/
theorem closed_spelled : lexer.grammar.Closed fun kind cs _ =>
    kind ∈ lexer.kindNames → kind ≠ "str" → Spelled (kind, cs) := by
  intro kind r cs os hrule hread hkind hstr
  obtain ⟨⟨name, r'⟩, hmem, rfl⟩ := List.mem_map.mp hkind
  cases hrule.symm.trans (Lexer.rule?_of_mem_kinds hmem)
  rcases mem_kinds_iff.mp hmem with ⟨rfl, rfl⟩ | ⟨rfl, rfl⟩ | ⟨rfl, rfl⟩ | ⟨rfl, rfl⟩ |
    ⟨c, hc, rfl, rfl⟩
  · obtain ⟨xs, ys, ps, qs, hhead, htail, rfl, rfl⟩ := Rule.reads_plus_iff.mp hread
    obtain ⟨c, rfl, hc⟩ := blank_of_reads hhead
    have hall := all_of_reads_star (fun _ _ => blank_of_reads) htail
    exact .blanks (List.cons_ne_nil c ys) (by simp [hc, hall])
  · obtain ⟨xs, ys, ps, qs, hhead, hrest, rfl, rfl⟩ := Rule.reads_seq_cons_iff.mp hread
    obtain ⟨zs, ws, ps', qs', htail, hend, rfl, rfl⟩ := Rule.reads_seq_cons_iff.mp hrest
    obtain ⟨rfl, rfl⟩ := Rule.reads_seq_nil_iff.mp hend
    obtain ⟨c, rfl, hc⟩ := letter_of_reads hhead
    rw [List.append_nil]
    exact .identifier hc (all_of_reads_star (fun _ _ => identifierChar_of_reads) htail)
  · exact absurd rfl hstr
  · obtain ⟨c, ys, qs, rfl, rfl, hc, hrest⟩ := Rule.reads_seq_literal_iff.mp hread
    obtain ⟨d, zs, qs, rfl, rfl, hd, hend⟩ := Rule.reads_seq_literal_iff.mp hrest
    obtain ⟨rfl, rfl⟩ := Rule.reads_seq_nil_iff.mp hend
    obtain rfl : c = '-' := hc
    obtain rfl : d = '>' := hd
    exact .arrow
  · obtain ⟨d, rfl, rfl, -⟩ := Rule.reads_literal_iff.mp hread
    exact .operator hc

theorem eq_quote_of_kindOf {c : Char} (h : kindOf c = "str") : c = '"' := by
  unfold kindOf at h
  split_ifs at h with hblank hletter hquote hdash
  · simp at h
  · simp at h
  · exact hquote
  · simp at h
  · exact absurd h (singleton_ne (by decide) c)

theorem spelled_of_ends (hkind : kind ∈ lexer.kindNames) (hp : p ≤ input.size)
    (h : lexer.Ends input kind p q) :
    Spelled (Lexer.Segment.token input ⟨kind, p, q⟩).lexeme := by
  -- a quoted text is known from where it closes, all others from how their rules read
  by_cases hstr : kind = "str"
  · subst hstr
    obtain ⟨hlt, htells⟩ := firstTells.kind_eq nullClosed hkind hp h
    have hquote : input[p]? = some '"' := by
      rw [Array.getElem?_eq_getElem hlt, eq_quote_of_kindOf htells.symm]
    obtain ⟨body, hbody, -, -, -, hvalue⟩ := exists_body_of_ends (remains_quote hquote) h
    rw [Token.lexeme, hvalue, toList_quotation]
    exact .quoted hbody
  · obtain ⟨os, hread⟩ := Lexer.reads_of_ends closed_spelled hp h
    exact hread hkind hstr

theorem Spelled.kind_eq {w : Lexeme} (h : Spelled w) : w.1 = wordKind (String.ofList w.2) := by
  have hcons (c : Char) (cs : List Char) : wordKind (String.ofList (c :: cs)) = kindOf c :=
    wordKind_cons String.toList_ofList
  cases h with
  | @blanks cs nonempty hcs =>
      obtain ⟨c, cs, rfl⟩ := List.exists_cons_of_ne_nil nonempty
      rw [List.all_cons, Bool.and_eq_true] at hcs
      rw [hcons, kindOf_blank hcs.1]
  | identifier hc hcs => rw [hcons, kindOf_letter hc]
  | quoted hcs =>
      have hquote : kindOf '"' = "str" := by decide
      rw [hcons, hquote]
  | arrow => decide
  | operator hc => rw [hcons, kindOf_operator _ hc]

/-- A token that is a word, and whose kind is that of the word. -/
structure Legible (t : Token) : Prop where
  word : IsWord t.value
  kind_eq : t.kind = wordKind t.value

theorem legible_of_spelled {t : Token} (h : Spelled t.lexeme) (hvisible : t.kind ≠ "_ws") :
    Legible t := by
  have hkind : t.kind = wordKind t.value := by
    have hspelled := h.kind_eq
    rwa [Token.lexeme, String.ofList_toList] at hspelled
  refine ⟨⟨?_, hkind ▸ hvisible⟩, hkind⟩
  rw [wordLexeme, ← hkind]
  exact h

theorem legible_of_tokens {src : String} {ts : List Token} (h : lexer.tokens src = .done ts) :
    ∀ t ∈ ts, Legible t := by
  have hspelled : ∀ t ∈ ts, Spelled t.lexeme :=
    Lexer.token_of_ends (fun kind hkind p q hp => spelled_of_ends hkind hp) h
  intro t ht
  refine legible_of_spelled (hspelled t ht) ?_
  have hvisible := Lexer.visible_of_tokens h t ht
  intro hblank
  rw [(hidden_iff t.kind (Lexer.kind_mem_of_tokens h t ht)).mpr hblank] at hvisible
  cases hvisible

/-- The kinds of words that are always the same. -/
def fixedKinds : List String :=
  "->" :: operators.map String.singleton

theorem IsWord.eq_wordKind {w : String} (h : IsWord w) (hfixed : wordKind w ∈ fixedKinds) :
    w = wordKind w := by
  obtain ⟨hspelled, hvisible⟩ := h
  generalize hlexeme : wordLexeme w = lexeme at hspelled
  have hkind : wordKind w = lexeme.1 := congrArg Prod.fst hlexeme
  have hchars : w.toList = lexeme.2 := congrArg Prod.snd hlexeme
  have hothers : "id" ∉ fixedKinds ∧ "str" ∉ fixedKinds := by decide
  rw [hkind] at hfixed ⊢
  cases hspelled with
  | blanks nonempty hcs => exact absurd hkind hvisible
  | identifier hc hcs => exact absurd hfixed hothers.1
  | quoted hcs => exact absurd hfixed hothers.2
  | arrow => exact String.toList_inj.mp hchars
  | operator hc => exact String.toList_inj.mp (hchars.trans (String.toList_singleton _).symm)

theorem IsWord.exists_body {w : String} (h : IsWord w) (hkind : wordKind w = "str") :
    ∃ body, w = quotation body ∧ Quotable body.toList := by
  obtain ⟨hspelled, -⟩ := h
  generalize hlexeme : wordLexeme w = lexeme at hspelled
  have hname : lexeme.1 = "str" := (congrArg Prod.fst hlexeme).symm.trans hkind
  have hchars : w.toList = lexeme.2 := congrArg Prod.snd hlexeme
  cases hspelled with
  | blanks nonempty hcs => simp at hname
  | identifier hc hcs => simp at hname
  | @quoted cs hcs =>
      refine ⟨String.ofList cs, String.toList_inj.mp ?_, by rwa [String.toList_ofList]⟩
      rw [toList_quotation, hchars, String.toList_ofList]
  | arrow => simp at hname
  | operator hc => exact absurd hname (singleton_ne (by decide) _)

/-- Between quotes, quotes stand behind an odd number of backslashes. -/
theorem Quotable.quotesEscaped {cs : List Char} (h : Quotable cs) {run : Nat}
    (hrun : run % 2 = 0) : quotesEscaped run cs = true := by
  induction h generalizing run with
  | nil => rfl
  | plain hbackslash hquote tail ih =>
      rw [quotesEscaped_plain hbackslash hquote]
      exact ih rfl
  | @escaped c cs tail ih =>
      have hstep : Declaration.quotesEscaped run ('\\' :: c :: cs) =
          Declaration.quotesEscaped (run + 1) (c :: cs) := rfl
      rw [hstep]
      by_cases hbackslash : c = '\\'
      · subst hbackslash
        have htwo : (run + 1 + 1) % 2 = 0 := by omega
        exact ih htwo
      by_cases hquote : c = '"'
      · subst hquote
        have hodd : (run + 1) % 2 = 1 := by omega
        have hpair : Declaration.quotesEscaped (run + 1) ('"' :: cs) =
            ((run + 1) % 2 = 1 && Declaration.quotesEscaped 0 cs) := rfl
        rw [hpair, ih rfl]
        simp [hodd]
      · rw [quotesEscaped_plain hbackslash hquote]
        exact ih rfl

end Peg.Declaration
