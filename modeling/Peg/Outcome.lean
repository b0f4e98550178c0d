import Peg.Failure.Basic

/-!
What an attempt comes to: a result, a failure, or neither. A rule that calls
itself before it has consumed anything never comes to an end; such an attempt is
`endless`, which is kept apart from every failure.
-/

namespace Peg

inductive Outcome (β : Type) where
  | done (value : β)
  | failed (failure : Failure)
  | endless

namespace Outcome

variable {β γ : Type}

protected def bind : Outcome β → (β → Outcome γ) → Outcome γ
  | .done b, next => next b
  | .failed f, _ => .failed f
  | .endless, _ => .endless

protected def map (g : β → γ) : Outcome β → Outcome γ
  | .done b => .done (g b)
  | .failed f => .failed f
  | .endless => .endless

instance : Monad Outcome where
  pure := .done
  bind := Outcome.bind
  map := Outcome.map

instance : LawfulMonad Outcome where
  map_const := rfl
  id_map o := by cases o <;> rfl
  seqLeft_eq o o' := by cases o <;> cases o' <;> rfl
  seqRight_eq o o' := by cases o <;> cases o' <;> rfl
  pure_seq g o := by cases o <;> rfl
  bind_pure_comp g o := by cases o <;> rfl
  bind_map o o' := by cases o <;> rfl
  pure_bind _ _ := rfl
  bind_assoc o _ _ := by cases o <;> rfl

/-- A choice that always ends is an outcome. -/
def ofExcept : Except Failure β → Outcome β
  | .ok b => .done b
  | .error f => .failed f

instance : MonadLift (Except Failure) Outcome where
  monadLift := ofExcept

/-- The same outcome with its failure, if it is one, put into context. -/
def mapFailure (g : Failure → Failure) : Outcome β → Outcome β
  | .done b => .done b
  | .failed f => .failed (g f)
  | .endless => .endless

@[simp] theorem pure_eq (b : β) : (pure b : Outcome β) = .done b := rfl

@[simp] theorem bind_eq (o : Outcome β) (next : β → Outcome γ) :
    (o >>= next) = o.bind next := rfl

@[simp] theorem map_eq (g : β → γ) (o : Outcome β) : g <$> o = o.map g := rfl

theorem bind_eq_done_iff {o : Outcome β} {next : β → Outcome γ} {c : γ} :
    o.bind next = .done c ↔ ∃ b, o = .done b ∧ next b = .done c := by
  cases o <;> simp [Outcome.bind]

theorem bind_eq_failed_iff {o : Outcome β} {next : β → Outcome γ} {f : Failure} :
    o.bind next = .failed f ↔ o = .failed f ∨ ∃ b, o = .done b ∧ next b = .failed f := by
  cases o <;> simp [Outcome.bind]

theorem map_eq_done_iff {o : Outcome β} {g : β → γ} {c : γ} :
    o.map g = .done c ↔ ∃ b, o = .done b ∧ g b = c := by
  cases o <;> simp [Outcome.map]

theorem map_eq_failed_iff {o : Outcome β} {g : β → γ} {f : Failure} :
    o.map g = .failed f ↔ o = .failed f := by
  cases o <;> simp [Outcome.map]

end Outcome

end Peg
