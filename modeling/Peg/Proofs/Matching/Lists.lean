import Peg.Proofs.Lexing.Lexemes
import Peg.Proofs.Matching.Yields

/-!
Repetitions that read lists. A rule that takes the tokens of each element of a list, one
element at a time, takes those of the whole list when it is repeated. What it needs to
know of the tokens behind an element is a condition which each element also meets when it
stands behind another.
-/

namespace Peg.Grammar

variable {β : Type} {g : Grammar Token String} {input : Array Token}
  {r : Rule Token String} {write : β → List Lexeme} {follow : List Token → Prop}
  {reads : β → List (Outline Token) → Prop} {b : β} {bs : List β} {xs rest : List Token}

/-- In front of what may follow it, a rule takes the lexemes that an element is written
with, and what it yields is read as the element. -/
structure YieldsItem (g : Grammar Token String) (input : Array Token)
    (r : Rule Token String) (write : β → List Lexeme) (follow : List Token → Prop)
    (reads : β → List (Outline Token) → Prop) (b : β) : Prop where
  nonempty : write b ≠ []
  follows : ∀ xs rest, xs.map Token.lexeme = write b → follow (xs ++ rest)
  yields : ∀ xs rest, xs.map Token.lexeme = write b → follow rest →
    ∃ os, g.Yields input r xs rest os ∧ reads b os

theorem follow_flatMap (hbs : ∀ b ∈ bs, g.YieldsItem input r write follow reads b)
    (hxs : xs.map Token.lexeme = bs.flatMap write) (hrest : follow rest) :
    follow (xs ++ rest) := by
  cases bs with
  | nil =>
      obtain rfl : xs = [] := List.map_eq_nil_iff.mp hxs
      exact hrest
  | cons b bs =>
      rw [List.flatMap_cons] at hxs
      obtain ⟨ys, zs, rfl, hys, -⟩ := List.map_eq_append_iff.mp hxs
      rw [List.append_assoc]
      exact (hbs b List.mem_cons_self).follows ys (zs ++ rest) hys

/-- A repetition ends behind the last element if its rule fails there. -/
theorem yields_star_list (hbs : ∀ b ∈ bs, g.YieldsItem input r write follow reads b)
    (hxs : xs.map Token.lexeme = bs.flatMap write) (hrest : follow rest)
    (hstop : g.Refuses input r rest) :
    ∃ oss, List.Forall₂ reads bs oss ∧ g.Yields input (.star r) xs rest oss.flatten := by
  induction bs generalizing xs with
  | nil =>
      obtain rfl : xs = [] := List.map_eq_nil_iff.mp hxs
      exact ⟨[], .nil, yields_star_nil hstop⟩
  | cons b bs ih =>
      obtain ⟨hb, hbs⟩ := List.forall_mem_cons.mp hbs
      rw [List.flatMap_cons] at hxs
      obtain ⟨ys, zs, rfl, hys, hzs⟩ := List.map_eq_append_iff.mp hxs
      obtain ⟨os, hyields, hread⟩ := hb.yields ys (zs ++ rest) hys (follow_flatMap hbs hzs hrest)
      obtain ⟨oss, hreads, hyields'⟩ := ih hbs hzs
      have hne : ys ≠ [] := by
        rintro rfl
        exact hb.nonempty hys.symm
      exact ⟨os :: oss, .cons hread hreads, yields_star_cons hne hyields hyields'⟩

theorem yields_plus_list (hb : g.YieldsItem input r write follow reads b)
    (hbs : ∀ b ∈ bs, g.YieldsItem input r write follow reads b)
    (hxs : xs.map Token.lexeme = write b ++ bs.flatMap write) (hrest : follow rest)
    (hstop : g.Refuses input r rest) :
    ∃ oss, List.Forall₂ reads (b :: bs) oss ∧
      g.Yields input (.plus r) xs rest oss.flatten := by
  obtain ⟨ys, zs, rfl, hys, hzs⟩ := List.map_eq_append_iff.mp hxs
  obtain ⟨os, hyields, hread⟩ := hb.yields ys (zs ++ rest) hys (follow_flatMap hbs hzs hrest)
  obtain ⟨oss, hreads, hyields'⟩ := yields_star_list hbs hzs hrest hstop
  exact ⟨os :: oss, .cons hread hreads, yields_plus hyields hyields'⟩

end Peg.Grammar
