import Mathlib.Data.List.Forall2
import Peg.ParseTree.Outline
import Peg.ParseTree.Queries
import Peg.Proofs.Matching.Lossless
import Peg.Proofs.Matching.Reading

/-!
Queries see no more of a parse tree than its outline. What a query by names finds is the
same, node for node, as what is found in the outline in the same way.
-/

namespace Peg

namespace Outline

variable {α : Type}

mutual

/-- The nodes with one of the names that lie below no other such node. -/
def outermost (names : List String) : Outline α → List (Outline α)
  | .item _ => []
  | .node name parts =>
      if name ∈ names then [.node name parts] else outermostAll names parts

def outermostAll (names : List String) : List (Outline α) → List (Outline α)
  | [] => []
  | o :: os => outermost names o ++ outermostAll names os

end

mutual

def values : Outline α → List α
  | .item x => [x]
  | .node _ parts => valuesAll parts

def valuesAll : List (Outline α) → List α
  | [] => []
  | o :: os => values o ++ valuesAll os

end

theorem outermostAll_eq_flatMap (names : List String) (os : List (Outline α)) :
    outermostAll names os = os.flatMap (outermost names) := by
  induction os with
  | nil => rfl
  | cons o os ih => simp [outermostAll, ih]

theorem valuesAll_eq_flatMap (os : List (Outline α)) : valuesAll os = os.flatMap values := by
  induction os with
  | nil => rfl
  | cons o os ih => simp [valuesAll, ih]

/-- A node with a name of its own is found in place of what lies below it. -/
theorem outermost_of_mem {names : List String} {name : String} (h : name ∈ names)
    (parts : List (Outline α)) : outermost names (.node name parts) = [.node name parts] :=
  if_pos h

/-- A node with no such name gives way to its parts. -/
theorem outermost_of_not_mem {names : List String} {name : String} (h : name ∉ names)
    (parts : List (Outline α)) :
    outermost names (.node name parts) = parts.flatMap (outermost names) :=
  (if_neg h).trans (outermostAll_eq_flatMap names parts)

/-- Items of their own are nothing that a query by names finds. -/
theorem flatMap_outermost_item (names : List String) (xs : List α) :
    (xs.map item).flatMap (outermost names) = [] := by
  rw [List.flatMap_eq_nil_iff]
  intro o ho
  obtain ⟨x, -, rfl⟩ := List.mem_map.mp ho
  rfl

end Outline

section Readings

variable {α κ : Type} [Key κ] [Item α κ] {C : String → List α → List (Outline α) → Prop}

/-- An outline holds the items that are read. -/
theorem Rule.Reads.values {r : Rule α κ} {xs : List α} {os : List (Outline α)}
    (h : r.Reads C xs os) (hC : ∀ name ys ps, C name ys ps → ps.flatMap Outline.values = ys) :
    os.flatMap Outline.values = xs := by
  induction h with
  | literal hx => rfl
  | range hx => rfl
  | predicate hx => rfl
  | except hx => rfl
  | seqNil => rfl
  | seqCons head tail ihHead ihTail => rw [List.flatMap_append, ihHead, ihTail]
  | alt hr h ih => exact ih
  | oneOf hr h ih => exact ih
  | starNil r => rfl
  | starCons head tail ihHead ihTail => rw [List.flatMap_append, ihHead, ihTail]
  | plus head tail ihHead ihTail => rw [List.flatMap_append, ihHead, ihTail]
  | optNone r => rfl
  | optSome h ih => exact ih
  | untilEnd h ih => exact ih
  | ref h =>
      rw [List.flatMap_singleton, Outline.values, Outline.valuesAll_eq_flatMap]
      exact hC _ _ _ h

theorem Grammar.Closed.values {g : Grammar α κ} (hC : g.Closed C) :
    g.Closed fun name xs os => os.flatMap Outline.values = xs ∧ C name xs os := by
  intro name r xs os hrule hread
  refine ⟨hread.values fun _ _ _ h => h.1, hC name r xs os hrule (hread.mono ?_)⟩
  exact fun _ _ _ h => h.2

end Readings

namespace ParseTree

variable {α : Type} {t : ParseTree α} {o : Outline α} {name : String} {names : List String}
  {parts : List (Outline α)}

/-- A labelled node and its outline. -/
inductive Shows : ParseTree α → Outline α → Prop
  | node {t : ParseTree α} {name : String} {parts : List (Outline α)}
      (label : t.label = some name) (outline : t.outline = [.node name parts]) :
      Shows t (.node name parts)

theorem Shows.label (h : t.Shows (.node name parts)) : t.label = some name := by
  cases h
  assumption

theorem outline_eq (t : ParseTree α) :
    t.outline =
      match t.label with
      | some name =>
          [.node name (t.value.toList.map .item ++ t.children.flatMap outline)]
      | none => t.value.toList.map .item ++ t.children.flatMap outline := by
  obtain ⟨label, value, children⟩ := t
  cases label <;> simp [outline, outlineAll_eq_flatMap]

theorem values_eq_outline (t : ParseTree α) : t.values = t.outline.flatMap Outline.values := by
  induction t with
  | node label value children ih =>
      have hchildren : children.flatMap values =
          (children.flatMap outline).flatMap Outline.values := by
        rw [List.flatMap_assoc]
        exact List.flatMap_congr ih
      have hvalue : value.toList = (value.toList.map Outline.item).flatMap Outline.values := by
        cases value <;> rfl
      cases label <;>
        simp [values, valuesAll_eq_flatMap, outline_eq, Outline.values,
          Outline.valuesAll_eq_flatMap, hchildren, ← hvalue]

/-- Matches of a query in several trees lie one after the other. -/
theorem flatMap_shows {ts : List (ParseTree α)} {f : ParseTree α → List (ParseTree α)}
    {g : ParseTree α → List (Outline α)} (h : ∀ t ∈ ts, List.Forall₂ Shows (f t) (g t)) :
    List.Forall₂ Shows (ts.flatMap f) (ts.flatMap g) := by
  induction ts with
  | nil => exact .nil
  | cons t ts ih =>
      obtain ⟨ht, hts⟩ := List.forall_mem_cons.mp h
      rw [List.flatMap_cons, List.flatMap_cons]
      exact List.rel_append ht (ih hts)

/-- What holds of all trees with certain outlines holds of the trees that are shown. -/
theorem forall₂_of_shows {γ : Type} {R : ParseTree α → γ → Prop} {ts : List (ParseTree α)}
    {os : List (Outline α)} {cs : List γ} (h : List.Forall₂ Shows ts os)
    (hos : List.Forall₂ (fun o c => ∀ t : ParseTree α, t.Shows o → R t c) os cs) :
    List.Forall₂ R ts cs := by
  induction h generalizing cs with
  | nil =>
      cases hos
      exact .nil
  | cons head tail ih =>
      cases hos with
      | cons hc hcs => exact .cons (hc _ head) (ih hcs)

theorem outermost_shows (names : List String) (t : ParseTree α) :
    List.Forall₂ Shows (t.outermost (·.isLabelledAny names))
      (t.outline.flatMap (Outline.outermost names)) := by
  induction t with
  | node label value children ih =>
      have hparts : List.Forall₂ Shows
          (children.flatMap (outermost (·.isLabelledAny names)))
          ((value.toList.map Outline.item ++ children.flatMap outline).flatMap
            (Outline.outermost names)) := by
        rw [List.flatMap_append, Outline.flatMap_outermost_item, List.nil_append,
          List.flatMap_assoc]
        exact flatMap_shows ih
      cases label with
      | none =>
          rw [outermost_eq, outline_eq]
          exact hparts
      | some name =>
          rw [outermost_eq, outline_eq, List.flatMap_singleton]
          by_cases hname : name ∈ names
          · have hlabel : isLabelledAny names ⟨some name, value, children⟩ = true := by
              simpa [isLabelledAny] using hname
            rw [hlabel, Outline.outermost_of_mem hname]
            exact .cons (.node rfl (outline_eq _)) .nil
          · have hlabel : isLabelledAny names ⟨some name, value, children⟩ = false := by
              simpa [isLabelledAny] using hname
            rw [hlabel, Outline.outermost_of_not_mem hname]
            exact hparts

namespace Shows

theorem selectLabelled (h : t.Shows o) (names : List String) :
    List.Forall₂ Shows (t.selected.selectLabelled names).nodes (o.outermost names) := by
  cases h with
  | node label outline =>
      have hfound := outermost_shows names t
      rw [outline, List.flatMap_singleton] at hfound
      simpa [selected, Selection.selectLabelled, Selection.select] using hfound

/-- A query finds one node where there is one. -/
theorem selectOne {o' : Outline α} (h : t.Shows o) (ho : o.outermost names = [o']) :
    ∃ s, t.selected.selectOneLabelled names = .ok s ∧ s.Shows o' := by
  have hfound := h.selectLabelled names
  rw [ho] at hfound
  cases hnodes : (t.selected.selectLabelled names).nodes with
  | nil =>
      rw [hnodes] at hfound
      cases hfound
  | cons s ss =>
      rw [hnodes] at hfound
      cases hfound with
      | cons head tail =>
          cases tail
          refine ⟨s, ?_, head⟩
          rw [Selection.selectOneLabelled, Selection.exactlyOne, hnodes]

/-- Below a node the query goes on in the parts of the node. -/
theorem skip (h : t.Shows (.node name parts)) (names : List String) :
    List.Forall₂ Shows (t.skip.selectLabelled names).nodes
      (parts.flatMap (Outline.outermost names)) := by
  cases h with
  | node label outline =>
      rw [outline_eq, label] at outline
      obtain rfl : t.value.toList.map Outline.item ++ t.children.flatMap ParseTree.outline =
          parts := by
        simpa using outline
      rw [List.flatMap_append, Outline.flatMap_outermost_item, List.nil_append,
        List.flatMap_assoc]
      have hfound := flatMap_shows fun s (_ : s ∈ t.children) => outermost_shows names s
      simpa [ParseTree.skip, selected, Selection.skip, Selection.selectLabelled,
        Selection.select] using hfound

/-- What is done with each node that is found below a node depends on the outline alone if it
does so for every one of them. -/
theorem mapM_skip {m : Type → Type} [Monad m] [LawfulMonad m] {β γ : Type}
    {f : ParseTree α → m β} {g : γ → m β} {cs : List γ} (h : t.Shows (.node name parts))
    (hparts : List.Forall₂ (fun o c => ∀ s : ParseTree α, s.Shows o → f s = g c)
      (parts.flatMap (Outline.outermost names)) cs) :
    (t.skip.selectLabelled names).nodes.mapM f = cs.mapM g := by
  have hnodes := forall₂_of_shows (h.skip names) hparts
  clear hparts
  generalize (t.skip.selectLabelled names).nodes = nodes at hnodes ⊢
  induction hnodes with
  | nil => rfl
  | cons head tail ih => rw [List.mapM_cons, List.mapM_cons, head, ih]

theorem values (h : t.Shows o) : t.values = o.values := by
  cases h with
  | node label outline => rw [values_eq_outline, outline, List.flatMap_singleton]

theorem singleToken {t : ParseTree Token} {token : Token}
    (h : t.Shows (.node name [.item token])) : t.singleToken = .ok token := by
  have hvalues : t.values = [token] := h.values
  rw [ParseTree.singleToken, hvalues]

end Shows

end ParseTree

end Peg
