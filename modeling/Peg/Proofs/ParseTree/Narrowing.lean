import Peg.Proofs.ParseTree.Places

/-!
Queries in steps. What a coarser query finds holds all that a finer one is after, and no
more stands in its way than on the whole selection. So a query may be narrowed step by step,
and comes to the same nodes at the same places.
-/

namespace Peg

namespace ParseTree

variable {α : Type} {p q : ParseTree α → Bool}

theorem nodeAt_append (t : ParseTree α) (outer inner : List Nat) :
    t.nodeAt (outer ++ inner) = (t.nodeAt outer).bind (·.nodeAt inner) := by
  induction outer generalizing t with
  | nil => rfl
  | cons i outer ih =>
      rw [List.cons_append, nodeAt, nodeAt]
      cases t.children[i]? with
      | none => rfl
      | some u => exact ih u

/-- All that `p` finds lies in what the weaker `q` finds, in the same order. -/
theorem flatMap_outermost (h : ∀ t, p t = true → q t = true) (t : ParseTree α) :
    (t.outermost q).flatMap (outermost p) = t.outermost p := by
  induction t with
  | node label value children ih =>
      rw [outermost_eq q]
      by_cases hq : q ⟨label, value, children⟩ = true
      · rw [if_pos hq, List.flatMap_singleton]
      · have hp : ¬ p ⟨label, value, children⟩ = true := fun hp => hq (h _ hp)
        rw [if_neg hq, outermost_eq p, if_neg hp, List.flatMap_assoc]
        exact List.flatMap_congr ih

theorem isLabelledAny_of_subset {all sub : List String} (h : sub ⊆ all) {t : ParseTree α}
    (ht : t.isLabelledAny sub = true) : t.isLabelledAny all = true := by
  unfold isLabelledAny at ht ⊢
  cases hlabel : t.label with
  | none => simp [hlabel] at ht
  | some name =>
      have hname : name ∈ sub := by simpa [hlabel] using ht
      simpa using h hname

end ParseTree

namespace Place

variable {α : Type} {s : Selection α} {t : ParseTree α} {p q : ParseTree α → Bool}
  {outer inner place : List Nat}

theorem nodeAt_append (h : s.nodeAt outer = some t) :
    s.nodeAt (outer ++ inner) = t.nodeAt inner := by
  cases outer with
  | nil => cases h
  | cons i outer =>
      obtain ⟨u, hu, hout⟩ := Option.bind_eq_some_iff.mp h
      rw [List.cons_append, Selection.nodeAt, hu, Option.bind_some, ParseTree.nodeAt_append, hout,
        Option.bind_some]

theorem fits_append_iff (h : s.nodeAt outer = some t) :
    Fits s.nodeAt p (outer ++ inner) ↔ Fits t.nodeAt p inner := by
  simp only [Fits, nodeAt_append h]

/-- A place that is outermost for `p` is made up of one that is outermost for the weaker `q`
and, from there on, one that is outermost for `p`. -/
theorem outermost_iff_of_weaker (h : ∀ t, p t = true → q t = true) :
    Outermost s.nodeAt p place ↔ ∃ outer inner t, place = outer ++ inner ∧
      Outermost s.nodeAt q outer ∧ s.nodeAt outer = some t ∧ Outermost t.nodeAt p inner := by
  have hweaker {place : List Nat} : Fits s.nodeAt p place → Fits s.nodeAt q place :=
    fun ⟨t, ht, hp⟩ => ⟨t, ht, h t hp⟩
  constructor
  · rintro ⟨hfits, habove⟩
    obtain ⟨outer, ⟨inner, rfl⟩, hout⟩ := (hweaker hfits).exists_outermost
    obtain ⟨t, ht, -⟩ := hout.1
    refine ⟨outer, inner, t, rfl, hout, ht, (fits_append_iff ht).mp hfits, ?_⟩
    intro above hpre hne habove'
    exact habove (outer ++ above) ((List.prefix_append_right_inj outer).mpr hpre)
      (by simpa using hne) ((fits_append_iff ht).mpr habove')
  · rintro ⟨outer, inner, t, rfl, ⟨-, habove⟩, ht, hfits, hbelow⟩
    refine ⟨(fits_append_iff ht).mpr hfits, fun above hpre hne hfits' => ?_⟩
    rcases List.prefix_or_prefix_of_prefix (List.prefix_append outer inner) hpre with
      ⟨rest, rfl⟩ | hle
    · -- Between the outer place and the whole one.
      exact hbelow rest ((List.prefix_append_right_inj outer).mp hpre) (by simpa using hne)
        ((fits_append_iff ht).mp hfits')
    · -- Above the outer place.
      by_cases heq : above = outer
      · subst heq
        have hroot : Fits t.nodeAt p [] := by
          rw [← fits_append_iff ht, List.append_nil]
          exact hfits'
        exact hbelow [] List.nil_prefix (fun hnil => hne (by simp [← hnil])) hroot
      · exact habove above hle heq (hweaker hfits')

end Place

namespace Selection

variable {α : Type} {p q : ParseTree α → Bool}

theorem select_select (s : Selection α) (h : ∀ t, p t = true → q t = true) :
    (s.select q).select p = s.select p := by
  simp only [select, List.flatMap_assoc, ParseTree.flatMap_outermost h]

/-- A query for what `q` holds of, and one for what `p` holds of in what was found, are one
query for `p` where `p` implies `q`: the nodes and their order are the same, and the places
too. So a query that is made twice finds nothing else the second time, and names may be
asked for after others among which they are. -/
theorem queries_narrow (s : Selection α) :
    (∀ p q : ParseTree α → Bool, (∀ t, p t = true → q t = true) →
      (s.select q).select p = s.select p ∧
        ∀ place, Place.Outermost s.nodeAt p place ↔
          ∃ outer inner t, place = outer ++ inner ∧ Place.Outermost s.nodeAt q outer ∧
            s.nodeAt outer = some t ∧ Place.Outermost t.nodeAt p inner) ∧
      (∀ p, (s.select p).select p = s.select p) ∧
      ∀ all sub : List String, sub ⊆ all →
        (s.selectLabelled all).selectLabelled sub = s.selectLabelled sub := by
  refine ⟨?_, ?_, ?_⟩
  · intro p q h
    exact ⟨s.select_select h, fun place => Place.outermost_iff_of_weaker h⟩
  · intro p
    exact s.select_select fun t ht => ht
  · intro all sub h
    exact s.select_select fun t ht => ParseTree.isLabelledAny_of_subset h ht

/-- Two pairs, one of which has a pair as its first part. -/
private def pairs : ParseTree Char :=
  let part (c : Char) : ParseTree Char := (ParseTree.leaf c).labelled "part"
  let inner : ParseTree Char := (ParseTree.branch [part 'a', part 'b']).labelled "pair"
  ParseTree.branch [(ParseTree.branch [inner, part 'c']).labelled "pair", inner]

/-- The query for pairs or parts stops at the two pairs. A query for parts in them finds each
part there is, those of the inner pair among them. -/
theorem queries_narrow_pairs :
    let p : ParseTree Char → Bool := (·.isLabelledAny ["part"])
    let q : ParseTree Char → Bool := (·.isLabelledAny ["pair", "part"])
    (∀ t, p t = true → q t = true) ∧ ["part"] ⊆ ["pair", "part"] ∧
      (pairs.selected.select q).nodes.length = 2 ∧
      ((pairs.selected.select q).select p).nodes.flatMap ParseTree.values =
        ['a', 'b', 'c', 'a', 'b'] ∧
      (pairs.selected.selectLabelled ["pair", "part"]).selectLabelled ["part"] =
        pairs.selected.select p := by
  intro p q
  have hsub : ["part"] ⊆ ["pair", "part"] := by simp
  have hweaker : ∀ t, p t = true → q t = true := fun _ => ParseTree.isLabelledAny_of_subset hsub
  obtain ⟨hselect, -, hlabelled⟩ := pairs.selected.queries_narrow
  refine ⟨hweaker, hsub, rfl, ?_, hlabelled _ _ hsub⟩
  rw [(hselect p q hweaker).1]
  rfl

end Selection

end Peg
