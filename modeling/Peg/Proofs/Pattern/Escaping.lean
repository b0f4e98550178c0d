import Peg.Proofs.Pattern.Queries

/-!
Texts as patterns. A pattern that is to match nothing but a given text has a backslash before
each reserved character of the text. It compiles to the rule that is made of the characters,
and this rule matches where the rest of an input begins with them.
-/

namespace Peg

/-- A character has a tree by itself, several have theirs side by side. -/
def ParseTree.ofChars : List Char → ParseTree Char
  | [c] => .leaf c
  | cs => .branch (cs.map .leaf)

theorem ParseTree.values_ofChars (cs : List Char) : (ofChars cs).values = cs := by
  match cs with
  | [] => rfl
  | [c] => exact values_leaf c
  | c :: d :: cs => simp [ofChars, List.flatMap_map]

section Spelling

variable {input : Array Char} {g : Grammar Char Char} {c : Char} {cs : List Char} {p : Nat}

theorem cons_prefix_drop_iff :
    c :: cs <+: input.toList.drop p ↔ input[p]? = some c ∧ cs <+: input.toList.drop (p + 1) := by
  rw [← Array.getElem?_toList]
  cases hx : input.toList[p]? with
  | none =>
      rw [List.drop_eq_nil_of_le (List.getElem?_eq_none_iff.mp hx)]
      simp
  | some x =>
      obtain ⟨hp, hx⟩ := List.getElem?_eq_some_iff.mp hx
      rw [List.drop_eq_getElem_cons hp, hx, List.cons_prefix_cons, Option.some.injEq, eq_comm]

namespace Grammar

theorem literal_eq_done_iff {r : Match Char} :
    g.ruleMatcher input (.literal c) p = .done r ↔
      input[p]? = some c ∧ r = ⟨.leaf c, p + 1⟩ := by
  rw [ruleMatcher_literal, Matcher.one_eq_done_iff]
  constructor
  · rintro ⟨x, hx, haccept, rfl⟩
    obtain rfl : x = c := eq_of_beq haccept
    exact ⟨hx, rfl⟩
  · rintro ⟨hx, rfl⟩
    exact ⟨c, hx, beq_self_eq_true c, rfl⟩

theorem literal_ne_endless : g.ruleMatcher input (.literal c) p ≠ .endless := by
  rw [ruleMatcher_literal]
  exact Matcher.one_ne_endless

/-- Literals one after the other go along with the input. -/
theorem consecutive_literals_iff {run : Run Char} :
    Matcher.Consecutive (cs.map fun c => g.ruleMatcher input (.literal c)) p run ↔
      cs <+: input.toList.drop p ∧ run = ⟨cs.map .leaf, p + cs.length⟩ := by
  induction cs generalizing p run with
  | nil =>
      constructor
      · rintro ⟨⟩
        exact ⟨List.nil_prefix, rfl⟩
      · rintro ⟨-, rfl⟩
        exact .nil p
  | cons c cs ih =>
      rw [cons_prefix_drop_iff]
      constructor
      · rintro (_ | ⟨head, tail⟩)
        obtain ⟨hc, hmatch⟩ := literal_eq_done_iff.mp head
        obtain ⟨rfl, rfl⟩ := Match.mk.inj hmatch
        obtain ⟨hcs, rfl⟩ := ih.mp tail
        refine ⟨⟨hc, hcs⟩, ?_⟩
        simp [Run.cons, Nat.add_assoc, Nat.add_comm 1]
      · rintro ⟨⟨hc, hcs⟩, rfl⟩
        have hhead : g.ruleMatcher input (.literal c) p = .done ⟨.leaf c, p + 1⟩ :=
          literal_eq_done_iff.mpr ⟨hc, rfl⟩
        have hrun := Matcher.Consecutive.cons hhead (ih.mpr ⟨hcs, rfl⟩)
        simpa [Run.cons, Nat.add_assoc, Nat.add_comm 1] using hrun

theorem seq_literals_eq_done_iff (cs : List Char) {r : Match Char} :
    g.ruleMatcher input (.seq (cs.map .literal)) p = .done r ↔
      cs <+: input.toList.drop p ∧ r = ⟨.branch (cs.map .leaf), p + cs.length⟩ := by
  rw [ruleMatcher_seq, List.map_map, Matcher.sequence_eq_done_iff]
  constructor
  · rintro ⟨run, hrun, rfl⟩
    obtain ⟨hcs, rfl⟩ := consecutive_literals_iff.mp hrun
    exact ⟨hcs, rfl⟩
  · rintro ⟨hcs, rfl⟩
    exact ⟨_, consecutive_literals_iff.mpr ⟨hcs, rfl⟩, rfl⟩

theorem seq_literals_ne_endless (cs : List Char) :
    g.ruleMatcher input (.seq (cs.map .literal)) p ≠ .endless := by
  rw [ruleMatcher_seq, List.map_map]
  refine Matcher.sequence_ne_endless fun before m after run hms _ => ?_
  have hm : m ∈ cs.map fun c => g.ruleMatcher input (.literal c) :=
    hms ▸ List.mem_append_right before List.mem_cons_self
  obtain ⟨c, -, rfl⟩ := List.mem_map.mp hm
  exact literal_ne_endless

variable {s : String}

theorem word_eq_done_iff {r : Match Char} :
    g.ruleMatcher input (.word s) p = .done r ↔
      s.toList <+: input.toList.drop p ∧ r = ⟨.ofChars s.toList, p + s.length⟩ := by
  rw [Rule.word, ← String.length_toList]
  match s.toList with
  | [] => exact seq_literals_eq_done_iff []
  | [c] =>
      have hnil : [] <+: input.toList.drop (p + 1) := List.nil_prefix
      rw [cons_prefix_drop_iff, and_iff_left hnil]
      exact literal_eq_done_iff
  | c :: d :: cs => exact seq_literals_eq_done_iff (c :: d :: cs)

theorem word_ne_endless : g.ruleMatcher input (.word s) p ≠ .endless := by
  rw [Rule.word]
  match s.toList with
  | [] => exact seq_literals_ne_endless []
  | [c] => exact literal_ne_endless
  | c :: d :: cs => exact seq_literals_ne_endless (c :: d :: cs)

end Grammar

end Spelling

namespace Pattern

/-- A text with a backslash before each reserved character. -/
def escape (s : String) : String :=
  String.ofList (s.toList.flatMap fun c => if c ∈ reserved then ['\\', c] else [c])

/-- The pattern without parts that a character is escaped to. -/
def Atom.ofChar (c : Char) : Atom :=
  if h : c ∈ reserved then .escaped c else .plain ⟨c, h⟩

theorem Atom.print_ofChar (c : Char) :
    (ofChar c).print = if c ∈ reserved then ['\\', c] else [c] := by
  unfold ofChar
  split <;> rfl

/-- No reserved character is a letter that has a meaning behind a backslash. -/
theorem Atom.meaning_ofChar (c : Char) : (ofChar c).meaning = .literal c := by
  unfold ofChar
  split
  · next hc =>
      have hn : c ≠ 'n' := ne_of_mem_of_not_mem hc (by decide)
      have ht : c ≠ 't' := ne_of_mem_of_not_mem hc (by decide)
      have hw : c ≠ 'w' := ne_of_mem_of_not_mem hc (by decide)
      rw [meaning, if_neg hn, if_neg ht, if_neg hw]
  · rfl

/-- The patterns that an escaped text is printed from. -/
def ofText (s : String) : List Pattern :=
  s.toList.map fun c => .atom (.ofChar c) none

theorem printAll_ofText (s : String) : printAll (ofText s) = (escape s).toList := by
  rw [printAll_eq_flatMap, ofText, List.flatMap_map, escape, String.toList_ofList]
  refine List.flatMap_congr fun c _ => ?_
  rw [print, Atom.print_ofChar]
  exact List.append_nil _

theorem sourceMeaning_ofText (s : String) : sourceMeaning (ofText s) = .word s := by
  rw [sourceMeaning, meanings_eq_map, ofText, List.map_map, Rule.word]
  refine congrArg _ (List.map_congr_left fun c _ => ?_)
  exact Atom.meaning_ofChar c

/-- An escaped text compiles to the rule of its characters, which in every grammar and at
every cursor matches just these, and fails where something else remains. -/
theorem escaped_text_matches_itself (s : String) :
    load (escape s) = .done (.word s) ∧
      ∀ (g : Grammar Char Char) (c : Cursor Char),
        if s.toList <+: c.remaining then
          ∃ tree, g.applyRule (.word s) c = .done (tree, c.moveTo (c.pos + s.length)) ∧
            tree.values = s.toList
        else
          ∃ f, g.applyRule (.word s) c = .failed f := by
  constructor
  · rw [load_eq_compile, compile_of_printAll (printAll_ofText s), sourceMeaning_ofText]
  · intro g c
    split
    · next hstarts =>
        have hword := Grammar.word_eq_done_iff (g := g).mpr ⟨hstarts, rfl⟩
        exact ⟨_, Grammar.applyRule_eq_done_iff.mpr ⟨_, hword, rfl⟩,
          ParseTree.values_ofChars s.toList⟩
    · next hstarts =>
        have hnone (r : Match Char) : g.ruleMatcher c.input (.word s) c.pos ≠ .done r :=
          fun hr => hstarts (Grammar.word_eq_done_iff.mp hr).1
        obtain ⟨f, hf⟩ := Outcome.exists_failed_iff.mpr ⟨Grammar.word_ne_endless, hnone⟩
        exact ⟨f, Grammar.applyRule_eq_failed_iff.mpr hf⟩

/-- Letters that stand for blanks behind a backslash stay as they are. -/
example : escape "n+\\w" = "n\\+\\\\w" := by decide

end Pattern

end Peg
