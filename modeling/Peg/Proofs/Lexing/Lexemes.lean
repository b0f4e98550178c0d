import Peg.Proofs.Lexing.Segmentation
import Peg.Proofs.Matching.Reading

/-!
Texts that were put together from lexemes. Where in front of each lexeme only the rule of
its kind matches, and takes just that lexeme, a lexer cuts the text where it was put
together, whichever way it picks among kinds. Conversely, a token says of its characters
what the readings of its kind say.
-/

namespace Peg

/-- A kind of token and the characters that stand for it. -/
abbrev Lexeme := String × List Char

def Token.lexeme (t : Token) : Lexeme :=
  (t.kind, t.value.toList)

/-- Lexemes as tokens that stand side by side from a position on. -/
def Token.placed (pos : Nat) : List Lexeme → List Token
  | [] => []
  | w :: ws => ⟨w.1, String.ofList w.2, pos⟩ :: placed (pos + w.2.length) ws

theorem Token.map_lexeme_placed (pos : Nat) (ws : List Lexeme) :
    (placed pos ws).map lexeme = ws := by
  induction ws generalizing pos with
  | nil => rfl
  | cons w ws ih => simp [placed, lexeme, ih]

/-- A kind that is called after a character has a name of one character. -/
theorem singleton_ne {kind : String} (h : kind.length ≠ 1) (c : Char) :
    String.singleton c ≠ kind := by
  rintro rfl
  exact h String.length_singleton

/-- The first of some tokens whose lexemes are known. -/
theorem Token.head_lexeme {xs rest : List Token} {w : Lexeme} {ws : List Lexeme}
    (hxs : xs.map Token.lexeme = w :: ws) {t : Token} (ht : t ∈ (xs ++ rest).head?) :
    t.lexeme = w := by
  obtain ⟨t', ts, rfl, ht', -⟩ := List.map_eq_cons_iff.mp hxs
  obtain rfl : t' = t := by simpa using ht
  exact ht'

namespace Lexer

variable {l : Lexer} {input : Array Char}

/-- In front of `rest`, the rule of a kind takes `xs`, and those of all others fail. -/
structure Takes (l : Lexer) (input : Array Char) (kind : String) (xs rest : List Char) :
    Prop where
  declared : kind ∈ l.kindNames
  nonempty : xs ≠ []
  yields : ∃ os, l.grammar.Yields input (.ref kind) xs rest os
  others : ∀ k ∈ l.kindNames, k ≠ kind → l.grammar.Refuses input (.ref k) (xs ++ rest)

/-- The first character of a token tells its kind: where another kind is told, the rule of
a kind fails. -/
def FirstTells (l : Lexer) (kindOf : Char → String) : Prop :=
  ∀ input, ∀ kind ∈ l.kindNames, ∀ c, kind ≠ kindOf c →
    ∀ rest, l.grammar.Refuses input (.ref kind) (c :: rest)

/-- A kind and its rule are found in the grammar that the lexer adds two rules to. -/
theorem rule?_of_mem_kinds {kind : String} {r : Rule Char Char} (h : (kind, r) ∈ l.kinds) :
    l.grammar.rule? kind = some r :=
  l.grammar.rule?_eq_some_iff.mpr (List.mem_cons_of_mem _ (List.mem_cons_of_mem _ h))

theorem FirstTells.takes {kindOf : Char → String} (h : l.FirstTells kindOf) {c : Char}
    {r : Rule Char Char} (hr : (kindOf c, r) ∈ l.kinds) {cs rest : List Char}
    (hyields : ∃ os, l.grammar.Yields input r (c :: cs) rest os) :
    l.Takes input (kindOf c) (c :: cs) rest := by
  obtain ⟨os, hyields⟩ := hyields
  refine ⟨List.mem_map_of_mem hr, List.cons_ne_nil c cs, ?_, ?_⟩
  · exact ⟨_, Grammar.yields_ref (rule?_of_mem_kinds hr) hyields⟩
  · intro k hk hne
    exact h input k hk c hne (cs ++ rest)

/-- Each lexeme is taken in front of those behind it. -/
inductive Cuts (l : Lexer) (input : Array Char) : List Lexeme → Prop
  | nil : Cuts l input []
  | cons {kind : String} {xs : List Char} {ws : List Lexeme}
      (head : l.Takes input kind xs (ws.flatMap Prod.snd)) (tail : Cuts l input ws) :
      Cuts l input ((kind, xs) :: ws)

theorem namedMatcher_of_yields {kind : String} {xs rest : List Char} {os : List (Outline Char)}
    (h : l.grammar.Yields input (.ref kind) xs rest os) {p : Nat}
    (hp : Remains input p (xs ++ rest)) :
    ∃ tree, l.grammar.namedMatcher input kind p = .done ⟨tree, p + xs.length⟩ := by
  obtain ⟨tree, htree, -⟩ := h p hp
  obtain ⟨s, hs, hwrap⟩ := Matcher.within_eq_done_iff.mp htree
  obtain ⟨-, hstop⟩ := Match.mk.inj hwrap
  rw [hs, ← hstop]
  exact ⟨s.tree, rfl⟩

theorem namedMatcher_of_refuses {kind : String} {xs : List Char}
    (h : l.grammar.Refuses input (.ref kind) xs) {p : Nat} (hp : Remains input p xs) :
    ∃ f, l.grammar.namedMatcher input kind p = .failed f := by
  obtain ⟨f, hf⟩ := h p hp
  rw [Grammar.ruleMatcher_ref, Matcher.within, Outcome.map_eq_failed_iff,
    Outcome.mapFailure_eq_failed_iff] at hf
  obtain ⟨e, he, -⟩ := hf
  exact ⟨e, he⟩

/-- A kind that yields some characters ends behind them. -/
theorem ends_iff_of_yields {kind : String} {xs rest : List Char} {os : List (Outline Char)}
    (h : l.grammar.Yields input (.ref kind) xs rest os) {p q : Nat}
    (hp : Remains input p (xs ++ rest)) : l.Ends input kind p q ↔ q = p + xs.length := by
  obtain ⟨tree, htree⟩ := namedMatcher_of_yields h hp
  simp [Ends, htree, eq_comm]

theorem not_ends_of_refuses {kind : String} {xs : List Char}
    (h : l.grammar.Refuses input (.ref kind) xs) {p : Nat} (hp : Remains input p xs) (q : Nat) :
    ¬ l.Ends input kind p q := by
  obtain ⟨f, hf⟩ := namedMatcher_of_refuses h hp
  simp [Ends, hf]

namespace Takes

variable {kind : String} {xs rest : List Char} {p : Nat}

theorem namedMatcher_eq (h : l.Takes input kind xs rest)
    (hp : Remains input p (xs ++ rest)) :
    ∃ tree, l.grammar.namedMatcher input kind p = .done ⟨tree, p + xs.length⟩ := by
  obtain ⟨os, hyields⟩ := h.yields
  exact namedMatcher_of_yields hyields hp

theorem namedMatcher_other (h : l.Takes input kind xs rest)
    (hp : Remains input p (xs ++ rest)) {k : String} (hk : k ∈ l.kindNames)
    (hne : k ≠ kind) : ∃ f, l.grammar.namedMatcher input k p = .failed f :=
  namedMatcher_of_refuses (h.others k hk hne) hp

theorem picks (h : l.Takes input kind xs rest) (hp : Remains input p (xs ++ rest)) :
    l.Picks input kind p := by
  obtain ⟨tree, htree⟩ := h.namedMatcher_eq hp
  have hothers (k : String) (hk : k ∈ l.kindNames) (hends : ∃ q, l.Ends input k p q) :
      k = kind := by
    by_contra hne
    obtain ⟨q, t, ht⟩ := hends
    obtain ⟨f, hf⟩ := h.namedMatcher_other hp hk hne
    cases hf.symm.trans ht
  unfold Picks
  cases l.dispatch with
  | firstMatch =>
      obtain ⟨before, after, hnames⟩ := List.append_of_mem h.declared
      refine ⟨before, after, hnames, ⟨_, tree, htree⟩, ?_⟩
      intro k hk hends
      have hdistinct := l.kindNames_nodup
      rw [hnames] at hdistinct
      have heq := hothers k (by simp [hnames, hk]) hends
      have hnotin := (List.nodup_cons.mp (List.nodup_middle.mp hdistinct)).1
      exact hnotin (List.mem_append_left _ (heq ▸ hk))
  | unambiguous => exact ⟨h.declared, ⟨_, tree, htree⟩, hothers⟩

theorem cut_ne_endless (h : l.Takes input kind xs rest)
    (hp : Remains input p (xs ++ rest)) : l.cut input p ≠ .endless := by
  apply Lexer.cut_ne_endless hp.le_size
  intro k hk
  by_cases hkind : k = kind
  · obtain ⟨tree, htree⟩ := h.namedMatcher_eq hp
    simp [hkind, htree]
  · obtain ⟨f, hf⟩ := h.namedMatcher_other hp hk hkind
    simp [hf]

end Takes

theorem Segment.token_eq {kind : String} {xs rest : List Char} {p : Nat}
    (hp : Remains input p (xs ++ rest)) :
    Segment.token input ⟨kind, p, p + xs.length⟩ = ⟨kind, String.ofList xs, p⟩ := by
  have hvalue : (Segment.token input ⟨kind, p, p + xs.length⟩).value.toList = _ :=
    Segment.toList_token _
  rw [hp.drop_eq, Nat.add_sub_cancel_left, List.take_left] at hvalue
  rw [← congrArg String.ofList hvalue, String.ofList_toList]
  rfl

theorem Cuts.segmentation {ws : List Lexeme} (h : l.Cuts input ws) {p : Nat}
    (hp : Remains input p (ws.flatMap Prod.snd)) :
    ∃ segments, l.Segmentation input p segments ∧
      (∀ s ∈ segments, l.cut input s.start ≠ .endless) ∧
      segments.map (Segment.token input) = Token.placed p ws := by
  induction h generalizing p with
  | nil =>
      obtain rfl : p = input.size := hp.length_eq
      exact ⟨[], .nil, by simp, rfl⟩
  | @cons kind xs ws head tail ih =>
      rw [List.flatMap_cons] at hp
      obtain ⟨tree, htree⟩ := head.namedMatcher_eq hp
      obtain ⟨segments, hsegments, hends, htokens⟩ := ih hp.advance
      have hadvances : p < p + xs.length := by
        have hlength := List.length_pos_iff.mpr head.nonempty
        omega
      refine ⟨⟨kind, p, p + xs.length⟩ :: segments, ?_, ?_, ?_⟩
      · exact .cons (head.picks hp) ⟨tree, htree⟩ hadvances hsegments
      · exact List.forall_mem_cons.mpr ⟨head.cut_ne_endless hp, hends⟩
      · rw [List.map_cons, htokens, Segment.token_eq hp]
        rfl

/-- The tokens of a text are the lexemes that it was put together from, but for those of
hidden kinds, each where it stands. -/
theorem tokens_eq_of_cuts {ws : List Lexeme} {text : String}
    (h : l.Cuts text.toList.toArray ws) (htext : ws.flatMap Prod.snd = text.toList) :
    l.tokens text = .done ((Token.placed 0 ws).filter fun t => !l.hidden t.kind) := by
  have hstart : Remains text.toList.toArray 0 (ws.flatMap Prod.snd) := by
    rw [htext]
    exact .start text.toList.toArray
  obtain ⟨segments, hsegments, hends, htokens⟩ := h.segmentation hstart
  rw [← htokens]
  exact tokens_eq_done_iff.mpr ⟨segments, hsegments, hends, rfl⟩

theorem tokens_of_cuts {ws : List Lexeme} {text : String}
    (h : l.Cuts text.toList.toArray ws) (htext : ws.flatMap Prod.snd = text.toList) :
    ∃ ts, l.tokens text = .done ts ∧
      ts.map Token.lexeme = ws.filter fun w => !l.hidden w.1 := by
  refine ⟨_, tokens_eq_of_cuts h htext, ?_⟩
  have hlexemes := Token.map_lexeme_placed 0 ws
  conv_rhs => rw [← hlexemes, List.filter_map]
  rfl

theorem Segmentation.ends {p : Nat} {segments : List Segment}
    (h : l.Segmentation input p segments) (hp : p ≤ input.size) :
    ∀ s ∈ segments, s.start ≤ input.size ∧ l.Ends input s.kind s.start s.stop := by
  induction h with
  | nil => simp
  | cons pick ends advances tail ih =>
      exact List.forall_mem_cons.mpr ⟨⟨hp, ends⟩, ih (ends.stop_le hp)⟩

/-- What holds of all stretches that kinds match holds of tokens. -/
theorem token_of_ends {P : Token → Prop} {text : String} {ts : List Token}
    (hP : ∀ kind ∈ l.kindNames, ∀ p q, p ≤ text.toList.toArray.size →
      l.Ends text.toList.toArray kind p q → P (Segment.token text.toList.toArray ⟨kind, p, q⟩))
    (h : l.tokens text = .done ts) : ∀ t ∈ ts, P t := by
  obtain ⟨segments, hsegments, -, rfl⟩ := tokens_eq_done_iff.mp h
  intro t ht
  obtain ⟨s, hs, rfl⟩ := List.mem_map.mp (List.mem_of_mem_filter ht)
  obtain ⟨hstart, hends⟩ := hsegments.ends (Nat.zero_le _) s hs
  exact hP s.kind (hsegments.kind_mem s hs) s.start s.stop hstart hends

theorem visible_of_tokens {text : String} {ts : List Token} (h : l.tokens text = .done ts) :
    ∀ t ∈ ts, l.hidden t.kind = false := by
  obtain ⟨all, -, rfl⟩ := Outcome.map_eq_done_iff.mp h
  intro t ht
  simpa using List.of_mem_filter ht

/-- What the readings of kinds say holds of the characters of tokens. -/
theorem reads_of_ends {C : String → List Char → List (Outline Char) → Prop}
    (hC : l.grammar.Closed C) {kind : String} {p q : Nat} (hp : p ≤ input.size)
    (h : l.Ends input kind p q) :
    ∃ os, C kind (Segment.token input ⟨kind, p, q⟩).value.toList os := by
  obtain ⟨tree, htree⟩ := h
  have hcovers := l.grammar.namedMatcher_lossless input _ _ _ hp htree
  obtain ⟨os, -, hread⟩ := hC.namedMatcher_tells input _ _ _ hp htree
  have hvalues := hcovers.values_eq_extract hp
  rw [hvalues] at hread
  exact ⟨os, by simpa [Segment.token] using hread⟩

end Lexer

end Peg
