import Peg.Proofs.Lexing.Dispatch
import Peg.Proofs.Lexing.Lexemes
import Peg.Proofs.Lexing.Parsing
import Peg.Proofs.Matching.Grounds

/-!
Lexers whose kinds never compete. Where the first character of a token tells its kind, and
no kind matches nothing, at most one kind matches at any place. Such a lexer does not come
upon several kinds, so that no failure is told to be ambiguous, neither one of the lexer nor
one of a grammar over its tokens that does not ask for exactly one of several rules itself.
-/

namespace Peg

variable {α κ : Type}

namespace Rule

mutual

/-- Nothing in a rule asks for exactly one match among several rules. -/
def plain : Rule α κ → Bool
  | .literal _ | .range _ _ | .predicate _ | .ref _ => true
  | .seq rules => allPlain rules
  | .alt rules => allPlain rules
  | .oneOf _ => false
  | .star r => plain r
  | .plus r => plain r
  | .opt r => plain r
  | .untilEnd r => plain r
  | .except r => plain r

def allPlain : List (Rule α κ) → Bool
  | [] => true
  | r :: rules => plain r && allPlain rules

end

theorem allPlain_eq_all (rules : List (Rule α κ)) : allPlain rules = rules.all plain := by
  induction rules with
  | nil => rfl
  | cons r rules ih => rw [allPlain, ih, List.all_cons]

theorem plain_of_mem_parts {r s : Rule α κ} (h : r.plain = true) (hs : s ∈ r.parts) :
    s.plain = true := by
  have hlist {rules : List (Rule α κ)} (h : allPlain rules = true) (hs : s ∈ rules) :
      s.plain = true := by
    rw [allPlain_eq_all, List.all_eq_true] at h
    exact h s hs
  cases r with
  | literal key => cases hs
  | range lo hi => cases hs
  | predicate q => cases hs
  | ref name => cases hs
  | seq rules => exact hlist h hs
  | alt rules => exact hlist h hs
  | oneOf rules => cases h
  | star r => exact (List.mem_singleton.mp hs) ▸ h
  | plus r => exact (List.mem_singleton.mp hs) ▸ h
  | opt r => exact (List.mem_singleton.mp hs) ▸ h
  | untilEnd r => exact (List.mem_singleton.mp hs) ▸ h
  | except r => exact (List.mem_singleton.mp hs) ▸ h

end Rule

/-- No failure of a tree tells of several rules that matched. -/
def Failure.Unambiguous (f : Failure) : Prop :=
  f.Everywhere fun e => ∀ matched, e.cause ≠ .ambiguous matched

theorem Failure.unambiguous_leaf {cause : Cause} (h : ∀ matched, cause ≠ .ambiguous matched)
    (pos : Nat) (name : Option String) : Unambiguous { cause, pos, name } :=
  .node h (by simp)

namespace Grammar

variable {g : Grammar α κ} {r : Rule α κ}

/-- Apart from one rule with plain parts, nothing but plain rules occurs where there is
nothing else to begin with. -/
theorem Occurs.plain_or_eq {t s : Rule α κ} (h : g.Occurs r s)
    (hparts : ∀ u ∈ t.parts, u.plain = true) (hr : r.plain = true ∨ r = t)
    (hrules : ∀ entry ∈ g.rules, entry.2.plain = true ∨ entry.2 = t) :
    s.plain = true ∨ s = t := by
  induction h with
  | self => exact hr
  | declared entry => exact hrules _ (g.rule?_eq_some_iff.mp entry)
  | part whole part ih =>
      rcases ih with hplain | rfl
      · exact .inl (Rule.plain_of_mem_parts hplain part)
      · exact .inl (hparts _ part)

variable [Key κ] [Item α κ] {input : Array α} {f : Failure}

/-- Ambiguity rests on two rules that match at one place. -/
theorem Located.cause_ne_ambiguous {start : Nat} (h : g.Located input r start f)
    (hone : ∀ alternatives (found : List (Rule α κ)), g.Occurs r (.oneOf alternatives) →
      found.Sublist alternatives → f.pos ≤ input.size →
      (∀ s ∈ found, ∃ m, g.ruleMatcher input s f.pos = .done m) → found.length ≤ 1)
    (matched : List String) : f.cause ≠ .ambiguous matched := by
  intro hcause
  have hgrounds := h.grounds
  rw [hcause] at hgrounds
  generalize hchildren : f.children = children at hgrounds
  cases hgrounds with
  | ambiguous occurs among several matching =>
      have hle := hone _ _ occurs among h.le_size matching
      omega

/-- The start rule of a grammar fails as it would where another rule referred to it. -/
theorem matchStart_located (h : g.matchStart input = .failed f) :
    f.Everywhere (g.Located input (.ref g.start) 0) := by
  have hfails : g.ruleMatcher input (.ref g.start) 0 = .failed (.nested 0 f) :=
    Matcher.within_eq_failed_iff.mpr ⟨f, h, rfl⟩
  have hlocated := ((ruleMatcher_eq_failed_iff (Nat.zero_le _)).mp hfails).located
    (Nat.zero_le _) .self
  cases hlocated with
  | node here below => exact below f (List.mem_singleton_self f)

/-- Plain rules do not fail for ambiguity. -/
theorem matchStart_unambiguous (hrules : ∀ entry ∈ g.rules, entry.2.plain = true)
    (h : g.matchStart input = .failed f) : f.Unambiguous := by
  refine (matchStart_located h).mono fun e he => he.cause_ne_ambiguous ?_
  intro alternatives found occurs
  have hplain := occurs.plain_or_eq (t := .ref g.start) (by simp [Rule.parts]) (.inr rfl)
    fun entry hentry => .inl (hrules entry hentry)
  simp [Rule.plain] at hplain

end Grammar

namespace Lexer

variable {l : Lexer} {input : Array Char} {p q : Nat} {kind : String} {f : Failure}

/-- At no place of any text does more than one kind match. -/
def Exclusive (l : Lexer) : Prop :=
  ∀ (input : Array Char) (p : Nat), p ≤ input.size →
    ∀ kind ∈ l.kindNames, ∀ other ∈ l.kindNames,
      (∃ q, l.Ends input kind p q) → (∃ q, l.Ends input other p q) → kind = other

/-- Where no kind may match nothing, only the start rule does. -/
theorem nullClosed_rootName
    (hkinds : ∀ kind ∈ l.kinds, kind.2.nullable (· == rootName) = false) :
    l.grammar.NullClosed (· == rootName) := by
  have hnames : l.kindNames.any (· == rootName) = false := by
    rw [List.any_eq_false]
    intro kind hkind
    simpa using (kindable_of_mem_kindNames hkind).1
  have htoken : l.tokenRule.nullable (· == rootName) = false := by
    unfold tokenRule
    split
    · rw [Rule.nullable_alt, List.any_map]
      exact hnames
    · rw [Rule.nullable_oneOf, List.any_map]
      exact hnames
  have hrules : ∀ entry ∈ l.grammar.rules,
      entry.2.nullable (· == rootName) = true → (entry.1 == rootName) = true := by
    simp only [grammar, List.forall_mem_cons]
    refine ⟨by simp, by simp [htoken], ?_⟩
    intro kind hkind
    simp [hkinds kind hkind]
  intro name r hrule
  exact hrules (name, r) (l.grammar.rule?_eq_some_iff.mp hrule)

/-- A kind that does not match nothing goes on beyond the place where it begins. -/
theorem Ends.advances (h : l.Ends input kind p q) (hp : p ≤ input.size)
    (hkind : kind ∈ l.kindNames) (hnull : l.grammar.NullClosed (· == rootName)) : p < q := by
  obtain ⟨tree, htree⟩ := h
  obtain ⟨hle, hnone⟩ := ((Grammar.namedMatcher_eq_done_iff hp).mp htree).consumes hnull
  refine Nat.lt_of_le_of_ne hle fun heq => ?_
  have hroot : (kind == rootName) = true := hnone heq.symm
  exact (kindable_of_mem_kindNames hkind).1 (by simpa using hroot)

/-- Wherever a kind matches, there is a character, and it tells the kind. -/
theorem FirstTells.kind_eq {kindOf : Char → String} (h : l.FirstTells kindOf)
    (hnull : l.grammar.NullClosed (· == rootName)) (hkind : kind ∈ l.kindNames)
    (hp : p ≤ input.size) (hends : l.Ends input kind p q) :
    ∃ hlt : p < input.size, kind = kindOf input[p] := by
  have hlt := (hends.advances hp hkind hnull).trans_le (hends.stop_le hp)
  refine ⟨hlt, ?_⟩
  by_contra hne
  exact not_ends_of_refuses (h input kind hkind _ hne _) (.of_lt hlt) q hends

theorem FirstTells.exclusive {kindOf : Char → String} (h : l.FirstTells kindOf)
    (hnull : l.grammar.NullClosed (· == rootName)) : l.Exclusive := by
  rintro input p hp kind hkind other hother ⟨q, hq⟩ ⟨q', hq'⟩
  obtain ⟨hlt, rfl⟩ := h.kind_eq hnull hkind hp hq
  obtain ⟨hlt', rfl⟩ := h.kind_eq hnull hother hp hq'
  rfl

/-- Of the kinds that match at a place there is one at most. -/
theorem Exclusive.length_le_one (h : l.Exclusive) (hp : p ≤ input.size)
    {found : List (Rule Char Char)} (hfound : found.Sublist (l.kindNames.map .ref))
    (hmatch : ∀ s ∈ found, ∃ m, l.grammar.ruleMatcher input s p = .done m) :
    found.length ≤ 1 := by
  obtain ⟨names, hnames, rfl⟩ := List.sublist_map_iff.mp hfound
  have hends (kind : String) (hkind : kind ∈ names) : ∃ q, l.Ends input kind p q :=
    ends_iff.mpr (hmatch (.ref kind) (List.mem_map_of_mem hkind))
  have hdistinct := hnames.nodup l.kindNames_nodup
  match names with
  | [] => simp
  | [kind] => simp
  | kind :: other :: rest =>
      have heq := h input p hp kind (hnames.subset (by simp)) other (hnames.subset (by simp))
        (hends kind (by simp)) (hends other (by simp))
      simp [heq] at hdistinct

/-- Lexers do not fail for ambiguity if kinds are exclusive and their rules are plain. -/
theorem Exclusive.tokens_unambiguous (h : l.Exclusive)
    (hkinds : ∀ kind ∈ l.kinds, kind.2.plain = true) {text : String}
    (hf : l.tokens text = .failed f) : f.Unambiguous := by
  rw [tokens, allTokens, Outcome.map_eq_failed_iff, Outcome.map_eq_failed_iff] at hf
  have hrefs : (l.kindNames.map (Rule.ref (α := Char) (κ := Char))).all Rule.plain = true := by
    simp [Rule.plain]
  have hparts : ∀ u ∈ l.tokenRule.parts, u.plain = true := by
    unfold tokenRule
    split <;> simpa [Rule.parts] using hrefs
  have hrules : ∀ entry ∈ l.grammar.rules, entry.2.plain = true ∨ entry.2 = l.tokenRule := by
    simp only [grammar, List.forall_mem_cons]
    exact ⟨.inl rfl, .inr trivial, fun kind hkind => .inl (hkinds kind hkind)⟩
  refine (Grammar.matchStart_located hf).mono fun e he => he.cause_ne_ambiguous ?_
  intro alternatives found occurs hfound hpos hmatch
  -- the kinds are plain, so it is the rule of tokens that asks for exactly one
  have hrule : Rule.oneOf alternatives = l.tokenRule := by
    rcases occurs.plain_or_eq hparts (.inl rfl) hrules with hplain | hrule
    · simp [Rule.plain] at hplain
    · exact hrule
  obtain rfl : alternatives = l.kindNames.map .ref := by
    unfold tokenRule at hrule
    split at hrule <;> cases hrule
    rfl
  exact h.length_le_one hpos hfound hmatch

end Lexer

/-- A parser fails for ambiguity only if its lexer does, or its grammar asks for it. -/
theorem Parser.parse_unambiguous {p : Parser} (hlexer : p.lexer.Exclusive)
    (hkinds : ∀ kind ∈ p.lexer.kinds, kind.2.plain = true)
    (hrules : ∀ entry ∈ p.grammar.rules, entry.2.plain = true) {text : String} {f : Failure}
    (hf : p.parse text = .failed f) : f.Unambiguous := by
  rcases Outcome.bind_eq_failed_iff.mp hf with hf | ⟨ts, -, hf⟩
  · exact hlexer.tokens_unambiguous hkinds hf
  · rcases Outcome.bind_eq_failed_iff.mp hf with hf | ⟨m, -, hf⟩
    · exact Grammar.matchStart_unambiguous hrules hf
    · split at hf
      · cases hf
        exact Failure.unambiguous_leaf (by simp) _ _
      · cases hf

end Peg
