import Peg.Proofs.Matching.Transport

/-!
What lies behind a cursor does not count. The items that remain may be taken as an input of
their own: a rule comes to the same there, but that positions are counted from where the
cursor stood.
-/

namespace Peg

variable {α κ : Type}

namespace Cursor

/-- The beginning of what remains, taken as a whole input. -/
def rest (c : Cursor α) : Cursor α :=
  ⟨c.remaining.toArray, 0⟩

/-- What an application at the rest has come to, told from the cursor that it is the rest
of. -/
def resume (c : Cursor α) : ParseTree α × Cursor α → ParseTree α × Cursor α
  | (tree, next) => (tree, c.moveTo (c.pos + next.pos))

theorem embeds_rest [Item α κ] {c : Cursor α} (hc : c.pos ≤ c.input.size) :
    Embeds id c.pos c.rest.input c.input where
  size_eq := by simp [rest, remaining, hc]
  getElem?_eq p := by simp [rest, remaining]
  key_eq _ _ := rfl

theorem map_moveTo_eq_of_rest {c : Cursor α} {m m' : Matcher α}
    (h : m' (c.pos + 0) = (m 0).bimap (.shift c.pos) (.carry id c.pos)) :
    ((m' c.pos).map fun r => (r.tree, c.moveTo r.stop)) =
      ((m 0).map fun r => (r.tree, c.rest.moveTo r.stop)).bimap (.shift c.pos) c.resume := by
  have hresume (r : Match α) : c.resume (r.tree, c.rest.moveTo r.stop) =
      ((r.carry id c.pos).tree, c.moveTo (r.carry id c.pos).stop) := by
    rw [Match.carry, ParseTree.map_id]
    rfl
  rw [Nat.add_zero] at h
  rw [h]
  exact (Outcome.bimap_map hresume (m 0)).symm

/-- What an application has come to, with nothing said of the input. -/
def placed : ParseTree α × Cursor α → ParseTree α × Nat
  | (tree, next) => (tree, next.pos)

theorem map_placed_resume {c c' : Cursor α} (hpos : c'.pos = c.pos)
    (o : Outcome (ParseTree α × Cursor α)) :
    (o.bimap (.shift c'.pos) c'.resume).map placed =
      (o.bimap (.shift c.pos) c.resume).map placed := by
  rw [hpos]
  cases o with
  | done result =>
      obtain ⟨tree, next⟩ := result
      have hstop : c'.pos + next.pos = c.pos + next.pos := by rw [hpos]
      exact congrArg (fun stop => Outcome.done (tree, stop)) hstop
  | failed f => rfl
  | endless => rfl

end Cursor

namespace Grammar

variable [Key κ] [Item α κ] (g : Grammar α κ) {c : Cursor α}

theorem applyRule_eq_of_rest (hc : c.pos ≤ c.input.size) (r : Rule α κ) :
    g.applyRule r c = (g.applyRule r c.rest).bimap (.shift c.pos) c.resume :=
  Cursor.map_moveTo_eq_of_rest <|
    ruleMatcher_carries (Cursor.embeds_rest hc) (fun _ _ => Rule.respects_id _ _)
      (Rule.respects_id _ r) (Nat.zero_le _)

theorem applyNamed_eq_of_rest (hc : c.pos ≤ c.input.size) (name : String) :
    g.applyNamed name c = (g.applyNamed name c.rest).bimap (.shift c.pos) c.resume :=
  Cursor.map_moveTo_eq_of_rest <|
    namedMatcher_carries (Cursor.embeds_rest hc) (fun _ _ => Rule.respects_id _ _) name
      (Nat.zero_le _)

/-- An application comes to what it comes to at the beginning of the items that remain, moved
on by the position of the cursor. So cursors that stand at the same position before the same
items have the same results, whatever lies behind them. -/
theorem application_of_remaining (g : Grammar α κ) (c : Cursor α)
    (hc : c.pos ≤ c.input.size) :
    ((∀ r, g.applyRule r c = (g.applyRule r c.rest).bimap (.shift c.pos) c.resume) ∧
      ∀ name, g.applyNamed name c =
        (g.applyNamed name c.rest).bimap (.shift c.pos) c.resume) ∧
    ∀ c' : Cursor α, c'.pos ≤ c'.input.size → c'.pos = c.pos → c'.remaining = c.remaining →
      (∀ r, (g.applyRule r c').map Cursor.placed = (g.applyRule r c).map Cursor.placed) ∧
        ∀ name, (g.applyNamed name c').map Cursor.placed =
          (g.applyNamed name c).map Cursor.placed := by
  refine ⟨⟨g.applyRule_eq_of_rest hc, g.applyNamed_eq_of_rest hc⟩, ?_⟩
  intro c' hc' hpos hremaining
  have hrest : c'.rest = c.rest := by rw [Cursor.rest, Cursor.rest, hremaining]
  constructor
  · intro r
    rw [g.applyRule_eq_of_rest hc', g.applyRule_eq_of_rest hc, hrest]
    exact Cursor.map_placed_resume hpos _
  · intro name
    rw [g.applyNamed_eq_of_rest hc', g.applyNamed_eq_of_rest hc, hrest]
    exact Cursor.map_placed_resume hpos _

/-- Brackets around brackets or nothing, as many as there are. -/
private def nestGrammar : Grammar Char Char where
  start := "nest"
  rules := [("nest", .seq [.literal '(', .opt (.ref "nest"), .literal ')'])]
  distinct := by decide
  start_declared := by decide

/-- A nest that is closed, with different items behind it, and one that is not. The failure
tells its positions in the whole input. -/
theorem application_of_remaining_nested :
    let closed : Cursor Char := ⟨#['!', '(', '(', ')', ')'], 1⟩
    let other : Cursor Char := ⟨#[')', '(', '(', ')', ')'], 1⟩
    let opened : Cursor Char := ⟨#['!', '(', '(', ')'], 1⟩
    let inner : ParseTree Char := (ParseTree.branch
      [.leaf '(', .branch [], .leaf ')']).labelled "nest"
    let outer : ParseTree Char := (ParseTree.branch
      [.leaf '(', .branch [.branch [inner]], .leaf ')']).labelled "nest"
    let unclosed : Failure := (Failure.nested 1 { cause := .exhausted, pos := 4 }).named "nest"
    (closed.pos ≤ closed.input.size ∧
      nestGrammar.applyNamed "nest" closed = .done (outer, closed.moveTo 5)) ∧
    (other.pos ≤ other.input.size ∧ other.pos = closed.pos ∧
      other.remaining = closed.remaining ∧
      (nestGrammar.applyNamed "nest" other).map Cursor.placed = .done (outer, 5)) ∧
    opened.pos ≤ opened.input.size ∧
      nestGrammar.applyNamed "nest" opened = .failed unclosed := by
  intro closed other opened inner outer unclosed
  have hclosed : closed.pos ≤ closed.input.size := by decide
  have hopened : opened.pos ≤ opened.input.size := by decide
  have hother : other.pos ≤ other.input.size := by decide
  obtain ⟨⟨-, hrest⟩, hsame⟩ := nestGrammar.application_of_remaining closed hclosed
  have hdone : nestGrammar.applyNamed "nest" closed = .done (outer, closed.moveTo 5) :=
    hrest "nest"
  have hplaced : (nestGrammar.applyNamed "nest" other).map Cursor.placed =
      (nestGrammar.applyNamed "nest" closed).map Cursor.placed :=
    (hsame other hother rfl rfl).2 "nest"
  rw [hdone] at hplaced
  have hfailed : nestGrammar.applyNamed "nest" opened = .failed unclosed :=
    (nestGrammar.application_of_remaining opened hopened).1.2 "nest"
  exact ⟨⟨hclosed, hdone⟩, ⟨hother, rfl, rfl, hplaced⟩, hopened, hfailed⟩

end Grammar

end Peg
