import Peg.ParseTree.Outline
import Peg.Proofs.Matching.Depth

/-!
What rules take, told by what remains of the input. A rule yields an outline on some
items in front of others if, wherever these remain, it matches just the first ones and
its tree has that outline; it refuses what remains if it fails there. Each kind of rule
has its laws, so that what a grammar does with a text is composed from what its rules
do with the parts, and positions do not come up.
-/

namespace Peg

/-- The items of the input from a position on. -/
structure Remains {α : Type} (input : Array α) (p : Nat) (xs : List α) : Prop where
  le_size : p ≤ input.size
  drop_eq : input.toList.drop p = xs

namespace Remains

variable {α : Type} {input : Array α} {p : Nat} {x : α} {xs ys : List α}

theorem length_eq (h : Remains input p xs) : p + xs.length = input.size := by
  have hlength := congrArg List.length h.drop_eq
  have hle := h.le_size
  simp only [List.length_drop, Array.length_toList] at hlength
  omega

theorem advance (h : Remains input p (xs ++ ys)) : Remains input (p + xs.length) ys := by
  have hlength := h.length_eq
  rw [List.length_append] at hlength
  refine ⟨by omega, ?_⟩
  rw [← List.drop_drop, h.drop_eq, List.drop_left]

theorem head_eq (h : Remains input p xs) : input[p]? = xs.head? := by
  rw [← h.drop_eq, List.head?_drop, Array.getElem?_toList]

theorem start (input : Array α) : Remains input 0 input.toList :=
  ⟨Nat.zero_le _, rfl⟩

theorem of_lt (h : p < input.size) :
    Remains input p (input[p] :: input.toList.drop (p + 1)) :=
  ⟨h.le, List.drop_eq_getElem_cons h⟩

end Remains

namespace ParseTree

variable {α : Type}

theorem outline_leaf (x : α) : (leaf x).outline = [.item x] := by
  simp [leaf, outline, outlineAll]

theorem outline_branch (ts : List (ParseTree α)) :
    (branch ts).outline = ts.flatMap outline := by
  simp [branch, outline, outlineAll_eq_flatMap]

theorem outline_labelled {t : ParseTree α} (h : t.label = none) (name : String) :
    (t.labelled name).outline = [.node name t.outline] := by
  cases t with
  | mk label value children =>
      cases h
      simp [labelled, outline]

end ParseTree

/-- One more match in front of a run puts its outline in front. -/
theorem Run.asMatch_cons {α : Type} {run : Run α} {r : Match α} (h : run.asMatch = r)
    (tree : ParseTree α) :
    ∃ tree', (run.cons tree).asMatch = ⟨tree', r.stop⟩ ∧
      tree'.outline = tree.outline ++ r.tree.outline := by
  subst h
  refine ⟨_, rfl, ?_⟩
  simp [asMatch, cons, ParseTree.outline_branch]

/-- A rule that is not called by its name leaves no label. -/
theorem Rule.matcher_label {α κ : Type} [Key κ] [Item α κ] {input : Array α}
    {call : String → Matcher α} {r : Rule α κ} {p : Nat} {s : Match α}
    (h : r.matcher input call p = .done s) : s.tree.label = none := by
  cases r with
  | literal key =>
      rw [matcher] at h
      obtain ⟨x, -, -, rfl⟩ := Matcher.one_eq_done_iff.mp h
      rfl
  | range lo hi =>
      rw [matcher] at h
      obtain ⟨x, -, -, rfl⟩ := Matcher.one_eq_done_iff.mp h
      rfl
  | predicate q =>
      rw [matcher] at h
      obtain ⟨x, -, -, rfl⟩ := Matcher.one_eq_done_iff.mp h
      rfl
  | seq rules =>
      rw [matcher_seq] at h
      obtain ⟨run, -, rfl⟩ := Matcher.sequence_eq_done_iff.mp h
      rfl
  | alt rules =>
      rw [matcher_alt] at h
      obtain ⟨before, m, after, t, -, -, -, rfl⟩ := Matcher.firstOf_eq_done_iff.mp h
      rfl
  | oneOf rules =>
      rw [matcher_oneOf] at h
      obtain ⟨before, b, m, after, t, -, -, -, rfl⟩ := Matcher.exactlyOne_eq_done_iff.mp h
      rfl
  | star r =>
      rw [matcher] at h
      obtain ⟨run, -, -, rfl⟩ := Matcher.zeroOrMore_eq_done h
      rfl
  | plus r =>
      rw [matcher] at h
      obtain ⟨tree, stop, run, -, -, -, rfl⟩ := Matcher.oneOrMore_eq_done h
      rfl
  | opt r =>
      rw [matcher] at h
      rcases Matcher.optional_eq_done_iff.mp h with ⟨t, -, rfl⟩ | ⟨-, rfl⟩
      · rfl
      · rfl
  | untilEnd r =>
      rw [matcher] at h
      obtain ⟨run, -, -, rfl⟩ := Matcher.untilEnd_eq_done h
      rfl
  | except r =>
      rw [matcher] at h
      obtain ⟨x, -, -, rfl⟩ := Matcher.except_eq_done_iff.mp h
      rfl
  | ref name =>
      rw [matcher] at h
      obtain ⟨t, -, rfl⟩ := Matcher.within_eq_done_iff.mp h
      rfl

namespace Grammar

variable {α κ : Type} [Key κ] [Item α κ] {g : Grammar α κ} {input : Array α}

/-- Where `xs` and then `rest` remain, the rule takes `xs`, and its tree has the outline
`os`. -/
def Yields (g : Grammar α κ) (input : Array α) (r : Rule α κ) (xs rest : List α)
    (os : List (Outline α)) : Prop :=
  ∀ p, Remains input p (xs ++ rest) → ∃ tree,
    g.ruleMatcher input r p = .done ⟨tree, p + xs.length⟩ ∧ tree.outline = os

/-- Where `xs` remains, the rule fails. -/
def Refuses (g : Grammar α κ) (input : Array α) (r : Rule α κ) (xs : List α) : Prop :=
  ∀ p, Remains input p xs → ∃ f, g.ruleMatcher input r p = .failed f

section Rules

variable {r : Rule α κ} {rs : List (Rule α κ)} {x : α} {xs ys rest : List α}
  {os os' : List (Outline α)}

theorem Yields.unique {os os' : List (Outline α)} (h : g.Yields input r xs rest os)
    (h' : g.Yields input r xs rest os') {p : Nat} (hp : Remains input p (xs ++ rest)) :
    os = os' := by
  obtain ⟨tree, htree, rfl⟩ := h p hp
  obtain ⟨tree', htree', rfl⟩ := h' p hp
  cases htree.symm.trans htree'
  rfl

theorem yields_one {accept : α → Bool} {refusal : α → Cause}
    (hr : g.ruleMatcher input r = Matcher.one input accept refusal) (hx : accept x = true)
    (rest : List α) : g.Yields input r [x] rest [.item x] := by
  intro p hp
  refine ⟨.leaf x, ?_, ParseTree.outline_leaf x⟩
  rw [hr, Matcher.one_eq_done_iff]
  exact ⟨x, hp.head_eq, hx, rfl⟩

theorem refuses_one {accept : α → Bool} {refusal : α → Cause}
    (hr : g.ruleMatcher input r = Matcher.one input accept refusal)
    (hxs : ∀ x ∈ xs.head?, accept x = false) : g.Refuses input r xs := by
  intro p hp
  rw [hr, Matcher.one_eq, hp.head_eq]
  cases hhead : xs.head? with
  | none => exact ⟨_, rfl⟩
  | some x => simp [hxs x hhead]

theorem one_yields_or_refuses {accept : α → Bool} {refusal : α → Cause}
    (hr : g.ruleMatcher input r = Matcher.one input accept refusal) (x : α) (rest : List α) :
    g.Yields input r [x] rest [.item x] ∨ g.Refuses input r ([x] ++ rest) := by
  cases hx : accept x with
  | true => exact .inl (yields_one hr hx rest)
  | false => exact .inr (refuses_one hr (by simpa using hx))

theorem yields_literal [LawfulBEq κ] {key : κ} (hx : Item.key x = key) (rest : List α) :
    g.Yields input (.literal key) [x] rest [.item x] := by
  have hr := g.ruleMatcher_literal input key
  exact yields_one hr (beq_iff_eq.mpr hx) rest

theorem refuses_literal [LawfulBEq κ] {key : κ} (hxs : ∀ x ∈ xs.head?, Item.key x ≠ key) :
    g.Refuses input (.literal key) xs := by
  have hr := g.ruleMatcher_literal input key
  exact refuses_one hr fun x hx => beq_false_of_ne (hxs x hx)

theorem yields_range {lo hi : κ}
    (hx : (Key.le lo (Item.key x) && Key.le (Item.key x) hi) = true) (rest : List α) :
    g.Yields input (.range lo hi) [x] rest [.item x] := by
  have hr := g.ruleMatcher_range input lo hi
  exact yields_one hr hx rest

theorem refuses_range {lo hi : κ}
    (hxs : ∀ x ∈ xs.head?, (Key.le lo (Item.key x) && Key.le (Item.key x) hi) = false) :
    g.Refuses input (.range lo hi) xs := by
  have hr := g.ruleMatcher_range input lo hi
  exact refuses_one hr hxs

theorem yields_predicate {q : Predicate α} (hx : q.test x = true) (rest : List α) :
    g.Yields input (.predicate q) [x] rest [.item x] := by
  have hr := g.ruleMatcher_predicate input q
  exact yields_one hr hx rest

theorem yields_except (h : g.Refuses input r (x :: rest)) :
    g.Yields input (.except r) [x] rest [.item x] := by
  intro p hp
  refine ⟨.leaf x, ?_, ParseTree.outline_leaf x⟩
  rw [ruleMatcher_except, Matcher.except_eq_done_iff]
  exact ⟨x, hp.head_eq, h p hp, rfl⟩

theorem refuses_except (h : g.Yields input r xs rest os) :
    g.Refuses input (.except r) (xs ++ rest) := by
  intro p hp
  obtain ⟨tree, htree, -⟩ := h p hp
  rw [ruleMatcher_except, Matcher.except_eq, htree]
  cases input[p]? with
  | none => exact ⟨_, rfl⟩
  | some x => exact ⟨_, rfl⟩

/-- At the end of the input there is no item to take. -/
theorem refuses_except_end : g.Refuses input (.except r) [] := by
  intro p hp
  rw [ruleMatcher_except]
  exact ⟨_, Matcher.except_eq_failed_iff.mpr (.inl ⟨hp.head_eq, rfl⟩)⟩

theorem yields_seq_nil (rest : List α) : g.Yields input (.seq []) [] rest [] := by
  intro p hp
  refine ⟨.branch [], ?_, by simp [ParseTree.outline_branch]⟩
  rw [ruleMatcher_seq]
  rfl

theorem yields_seq_cons (hhead : g.Yields input r xs (ys ++ rest) os)
    (htail : g.Yields input (.seq rs) ys rest os') :
    g.Yields input (.seq (r :: rs)) (xs ++ ys) rest (os ++ os') := by
  intro p hp
  rw [List.append_assoc] at hp
  obtain ⟨tree, htree, rfl⟩ := hhead p hp
  obtain ⟨tree', htree', rfl⟩ := htail _ hp.advance
  rw [ruleMatcher_seq, Matcher.sequence_eq_done_iff] at htree'
  obtain ⟨run, hrun, hmatch⟩ := htree'
  obtain ⟨tree'', hcons, houtline⟩ := Run.asMatch_cons hmatch tree
  refine ⟨tree'', ?_, houtline⟩
  rw [ruleMatcher_seq, Matcher.sequence_eq_done_iff, List.length_append, ← Nat.add_assoc]
  exact ⟨run.cons tree, .cons htree hrun, hcons⟩

theorem yields_seq_last (h : g.Yields input r xs rest os) :
    g.Yields input (.seq [r]) xs rest os := by
  have hhead : g.Yields input r xs ([] ++ rest) os := h
  have hseq := yields_seq_cons hhead (yields_seq_nil rest)
  rwa [List.append_nil, List.append_nil] at hseq

/-- A sequence whose first rule takes one item. -/
theorem yields_seq_item {o : Outline α} (hhead : g.Yields input r [x] (ys ++ rest) [o])
    (htail : g.Yields input (.seq rs) ys rest os) :
    g.Yields input (.seq (r :: rs)) (x :: ys) rest (o :: os) :=
  yields_seq_cons hhead htail

theorem refuses_seq_head (h : g.Refuses input r xs) : g.Refuses input (.seq (r :: rs)) xs := by
  intro p hp
  obtain ⟨f, hf⟩ := h p hp
  rw [ruleMatcher_seq]
  refine ⟨.nested p f, ?_⟩
  simp [Matcher.sequence, Matcher.runAll, hf, Outcome.map]

theorem refuses_seq_tail (hhead : g.Yields input r xs ys os)
    (htail : g.Refuses input (.seq rs) ys) :
    g.Refuses input (.seq (r :: rs)) (xs ++ ys) := by
  intro p hp
  obtain ⟨tree, htree, -⟩ := hhead p hp
  obtain ⟨f, hf⟩ := htail _ hp.advance
  rw [ruleMatcher_seq, Matcher.sequence, Outcome.map_eq_failed_iff,
    Matcher.runAll_eq_failed_iff] at hf
  obtain ⟨before, m, after, run, e, hrs, hbefore, he, -⟩ := hf
  rw [ruleMatcher_seq]
  refine ⟨.nested p e, ?_⟩
  rw [Matcher.sequence, Outcome.map_eq_failed_iff, Matcher.runAll_eq_failed_iff]
  refine ⟨g.ruleMatcher input r :: before, m, after, run.cons tree, e, ?_, .cons htree hbefore,
    he, rfl⟩
  rw [List.map_cons, hrs, List.cons_append]

theorem yields_alt_head (h : g.Yields input r xs rest os) :
    g.Yields input (.alt (r :: rs)) xs rest os := by
  intro p hp
  obtain ⟨tree, htree, rfl⟩ := h p hp
  refine ⟨.branch [tree], ?_, by simp [ParseTree.outline_branch]⟩
  rw [ruleMatcher_alt, Matcher.firstOf_eq_done_iff]
  exact ⟨[], _, rs.map (g.ruleMatcher input), _, rfl, by simp, htree, rfl⟩

theorem yields_alt_tail (hhead : g.Refuses input r (xs ++ rest))
    (htail : g.Yields input (.alt rs) xs rest os) :
    g.Yields input (.alt (r :: rs)) xs rest os := by
  intro p hp
  obtain ⟨tree, htree, houtline⟩ := htail p hp
  refine ⟨tree, ?_, houtline⟩
  rw [ruleMatcher_alt, Matcher.firstOf_eq_done_iff] at htree ⊢
  obtain ⟨before, m, after, s, hrs, hbefore, hm, hs⟩ := htree
  refine ⟨g.ruleMatcher input r :: before, m, after, s, ?_, ?_, hm, hs⟩
  · rw [List.map_cons, hrs, List.cons_append]
  · exact List.forall_mem_cons.mpr ⟨hhead p hp, hbefore⟩

theorem yields_alt {before after : List (Rule α κ)}
    (hbefore : ∀ r ∈ before, g.Refuses input r (xs ++ rest)) (h : g.Yields input r xs rest os) :
    g.Yields input (.alt (before ++ r :: after)) xs rest os := by
  induction before with
  | nil => exact yields_alt_head h
  | cons b before ih =>
      obtain ⟨hb, hbefore⟩ := List.forall_mem_cons.mp hbefore
      exact yields_alt_tail hb (ih hbefore)

theorem refuses_alt (h : ∀ r ∈ rs, g.Refuses input r xs) :
    g.Refuses input (.alt rs) xs := by
  intro p hp
  have hfailures : ∃ fs : List Failure, (rs.map (g.ruleMatcher input)).map (fun m => m p) =
      fs.map Outcome.failed := by
    induction rs with
    | nil => exact ⟨[], rfl⟩
    | cons r rs ih =>
        obtain ⟨f, hf⟩ := h r List.mem_cons_self p hp
        obtain ⟨fs, hfs⟩ := ih fun r hr => h r (List.mem_cons_of_mem _ hr)
        exact ⟨f :: fs, by rw [List.map_cons, List.map_cons, hfs, hf, List.map_cons]⟩
  obtain ⟨fs, hfs⟩ := hfailures
  rw [ruleMatcher_alt]
  exact ⟨_, Matcher.firstOf_eq_failed_iff.mpr ⟨fs, hfs, rfl⟩⟩

/-- Of alternatives that agree on what they take, it does not matter which one does. -/
theorem yields_alt_of_mem (hrs : ∀ r ∈ rs, g.Yields input r xs rest os ∨
      g.Refuses input r (xs ++ rest)) (hr : r ∈ rs) (h : g.Yields input r xs rest os) :
    g.Yields input (.alt rs) xs rest os := by
  induction rs with
  | nil => cases hr
  | cons s rs ih =>
      obtain ⟨hs, hrs⟩ := List.forall_mem_cons.mp hrs
      rcases hs with hs | hs
      · exact yields_alt_head hs
      · rcases List.mem_cons.mp hr with rfl | hr
        · exact yields_alt_head h
        · exact yields_alt_tail hs (ih hrs hr)

theorem literal_yields_or_refuses (key : κ) (x : α) (rest : List α) :
    g.Yields input (.literal key) [x] rest [.item x] ∨
      g.Refuses input (.literal key) ([x] ++ rest) :=
  one_yields_or_refuses (g.ruleMatcher_literal input key) x rest

theorem range_yields_or_refuses (lo hi : κ) (x : α) (rest : List α) :
    g.Yields input (.range lo hi) [x] rest [.item x] ∨
      g.Refuses input (.range lo hi) ([x] ++ rest) :=
  one_yields_or_refuses (g.ruleMatcher_range input lo hi) x rest

theorem yields_literals [LawfulBEq κ] {keys : List κ} (hx : Item.key x ∈ keys) (rest : List α) :
    g.Yields input (.alt (keys.map .literal)) [x] rest [.item x] := by
  refine yields_alt_of_mem (List.forall_mem_map.mpr ?_) (List.mem_map_of_mem hx)
    (yields_literal rfl rest)
  intro key _
  exact literal_yields_or_refuses key x rest

theorem refuses_literals [LawfulBEq κ] {keys : List κ} (hxs : ∀ x ∈ xs.head?, Item.key x ∉ keys) :
    g.Refuses input (.alt (keys.map .literal)) xs := by
  refine refuses_alt (List.forall_mem_map.mpr ?_)
  intro key hkey
  apply refuses_literal
  rintro x hx rfl
  exact hxs x hx hkey

theorem yields_star_nil (h : g.Refuses input r rest) :
    g.Yields input (.star r) [] rest [] := by
  intro p hp
  refine ⟨.branch [], ?_, by simp [ParseTree.outline_branch]⟩
  rw [ruleMatcher_star]
  exact Matcher.zeroOrMore_eq (g.ruleMatcher_bounded input r) hp.le_size (.nil p)
    (.inl (h p hp))

theorem yields_star_cons (hxs : xs ≠ []) (hhead : g.Yields input r xs (ys ++ rest) os)
    (htail : g.Yields input (.star r) ys rest os') :
    g.Yields input (.star r) (xs ++ ys) rest (os ++ os') := by
  intro p hp
  rw [List.append_assoc] at hp
  obtain ⟨tree, htree, rfl⟩ := hhead p hp
  obtain ⟨tree', htree', rfl⟩ := htail _ hp.advance
  rw [ruleMatcher_star] at htree'
  obtain ⟨run, hrounds, hend, hmatch⟩ := Matcher.zeroOrMore_eq_done htree'
  obtain ⟨tree'', hcons, houtline⟩ := Run.asMatch_cons hmatch tree
  have hadvances : p + xs.length ≠ p := by
    have hlength := List.length_pos_iff.mpr hxs
    omega
  refine ⟨tree'', ?_, houtline⟩
  rw [ruleMatcher_star, List.length_append, ← Nat.add_assoc, ← hcons]
  exact Matcher.zeroOrMore_eq (g.ruleMatcher_bounded input r) hp.le_size
    (.cons htree hadvances hrounds) hend

/-- A run of items, each of which the repeated rule takes by itself. -/
theorem yields_star_items {accept : α → Bool}
    (hr : ∀ x rest, accept x = true → g.Yields input r [x] rest [.item x])
    (hxs : xs.all accept = true) (hstop : g.Refuses input r rest) :
    g.Yields input (.star r) xs rest (xs.map .item) := by
  induction xs with
  | nil => exact yields_star_nil hstop
  | cons x xs ih =>
      rw [List.all_cons, Bool.and_eq_true] at hxs
      exact yields_star_cons (List.cons_ne_nil x []) (hr x _ hxs.1) (ih hxs.2)

theorem yields_plus (hhead : g.Yields input r xs (ys ++ rest) os)
    (htail : g.Yields input (.star r) ys rest os') :
    g.Yields input (.plus r) (xs ++ ys) rest (os ++ os') := by
  intro p hp
  rw [List.append_assoc] at hp
  obtain ⟨tree, htree, rfl⟩ := hhead p hp
  obtain ⟨tree', htree', rfl⟩ := htail _ hp.advance
  rw [ruleMatcher_star] at htree'
  obtain ⟨run, hrounds, hend, hmatch⟩ := Matcher.zeroOrMore_eq_done htree'
  obtain ⟨tree'', hcons, houtline⟩ := Run.asMatch_cons hmatch tree
  refine ⟨tree'', ?_, houtline⟩
  rw [ruleMatcher_plus, List.length_append, ← Nat.add_assoc, ← hcons]
  exact Matcher.oneOrMore_eq (g.ruleMatcher_bounded input r) hp.le_size htree hrounds hend

theorem refuses_plus (h : g.Refuses input r xs) : g.Refuses input (.plus r) xs := by
  intro p hp
  obtain ⟨f, hf⟩ := h p hp
  refine ⟨.nested p f, ?_⟩
  rw [ruleMatcher_plus, Matcher.oneOrMore, hf]

/-- Repetitions that take all that remains have come to the end of the input. -/
theorem yields_untilEnd (h : g.Yields input (.star r) xs [] os) :
    g.Yields input (.untilEnd r) xs [] os := by
  intro p hp
  obtain ⟨tree, htree, rfl⟩ := h p hp
  rw [ruleMatcher_star] at htree
  obtain ⟨run, hrounds, -, hmatch⟩ := Matcher.zeroOrMore_eq_done htree
  obtain ⟨rfl, hstop⟩ := Match.mk.inj hmatch
  have hsize := hp.length_eq
  rw [List.append_nil] at hsize
  refine ⟨run.asMatch.tree, ?_, rfl⟩
  rw [ruleMatcher_untilEnd, ← hstop]
  exact Matcher.untilEnd_eq (g.ruleMatcher_bounded input r) hp.le_size hrounds (by omega)

theorem yields_ref {name : String} (hrule : g.rule? name = some r)
    (h : g.Yields input r xs rest os) :
    g.Yields input (.ref name) xs rest [.node name os] := by
  intro p hp
  obtain ⟨tree, htree, rfl⟩ := h p hp
  refine ⟨.branch [tree.labelled name], ?_, ?_⟩
  · rw [ruleMatcher_ref, Matcher.within_eq_done_iff, namedMatcher_of_rule hrule hp.le_size]
    exact ⟨_, Matcher.labelled_eq_done_iff.mpr ⟨_, htree, rfl⟩, rfl⟩
  · simp [ParseTree.outline_branch, ParseTree.outline_labelled (Rule.matcher_label htree)]

theorem refuses_ref {name : String} (hrule : g.rule? name = some r)
    (h : g.Refuses input r xs) : g.Refuses input (.ref name) xs := by
  intro p hp
  obtain ⟨f, hf⟩ := h p hp
  refine ⟨.nested p (.named name f), ?_⟩
  rw [ruleMatcher_ref, Matcher.within, namedMatcher_of_rule hrule hp.le_size, Matcher.labelled, hf]
  rfl

end Rules

/-- A start rule that yields the whole input matches all of it. -/
theorem matchStart_of_yields {r : Rule α κ} {os : List (Outline α)}
    (hrule : g.rule? g.start = some r) (h : g.Yields input r input.toList [] os) :
    ∃ tree, g.matchStart input = .done ⟨tree, input.size⟩ ∧
      tree.outline = [.node g.start os] := by
  obtain ⟨tree, htree, rfl⟩ := h 0 (by simpa using Remains.start input)
  refine ⟨tree.labelled g.start, ?_, ParseTree.outline_labelled (Rule.matcher_label htree) g.start⟩
  rw [matchStart, namedMatcher_of_rule hrule (Nat.zero_le _)]
  refine Matcher.labelled_eq_done_iff.mpr ⟨_, htree, ?_⟩
  simp

end Grammar

end Peg
