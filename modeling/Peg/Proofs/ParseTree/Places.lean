import Mathlib.Data.List.Infix
import Mathlib.Data.List.Pairwise
import Peg.ParseTree.Selection

/-!
What a query finds, said by places. The same node may occur several times in a tree, so an
occurrence is known by the way that leads to it: which child to go to at each step, and in
a selection which node to begin with. Places are ordered as words in a dictionary, a place
before all those inside it, and this is the order of the document. A query lists the places
at which a node fits and no node above it does.
-/

namespace Peg

namespace ParseTree

variable {α : Type}

/-- The node that a place leads to, if it does not lead out of the tree. -/
def nodeAt (t : ParseTree α) : List Nat → Option (ParseTree α)
  | [] => some t
  | i :: place => t.children[i]?.bind (·.nodeAt place)

end ParseTree

/-- The node that a place leads to, which begins with the number of a selected node. -/
def Selection.nodeAt {α : Type} (s : Selection α) : List Nat → Option (ParseTree α)
  | [] => none
  | i :: place => s.nodes[i]?.bind (·.nodeAt place)

namespace Place

variable {α : Type}

section Definitions

-- Places are looked up in a tree or in a selection: `node` is either.
variable (node : List Nat → Option (ParseTree α)) (p : ParseTree α → Bool)

/-- The node at a place satisfies `p`. -/
def Fits (place : List Nat) : Prop :=
  ∃ t, node place = some t ∧ p t = true

/-- The node at a place satisfies `p`, and none above it does. -/
def Outermost (place : List Nat) : Prop :=
  Fits node p place ∧ ∀ above, above <+: place → above ≠ place → ¬ Fits node p above

/-- Places in document order, none of them twice: just those that are outermost, with the
nodes at them. -/
structure Listing (places : List (List Nat)) (found : List (ParseTree α)) : Prop where
  ordered : places.Pairwise (· < ·)
  outermost : ∀ place, place ∈ places ↔ Outermost node p place
  nodes : places.map node = found.map some

end Definitions

variable {node node' : List Nat → Option (ParseTree α)} {p : ParseTree α → Bool}
  {place outer : List Nat}

theorem Outermost.congr (h : ∀ place, Fits node p place ↔ Fits node' p place) :
    Outermost node p place ↔ Outermost node' p place := by
  simp only [Outermost, h]

/-- No outermost place lies inside another. -/
theorem Outermost.eq_of_above (h : Outermost node p outer) (h' : Outermost node p place)
    (hpre : outer <+: place) : outer = place := by
  by_contra hne
  exact h'.2 outer hpre hne h.1

/-- Above each place that fits, or at it, there is one that is outermost. -/
theorem Fits.exists_outermost (h : Fits node p place) :
    ∃ outer, outer <+: place ∧ Outermost node p outer := by
  induction hlength : place.length using Nat.strong_induction_on generalizing place with
  | _ n ih =>
      by_cases hout : Outermost node p place
      · exact ⟨place, List.prefix_rfl, hout⟩
      · obtain ⟨above, hpre, hne, hfits⟩ :
            ∃ above, above <+: place ∧ above ≠ place ∧ Fits node p above := by
          simpa [Outermost, h] using hout
        have hshorter : above.length < n := by
          rw [← hlength]
          exact lt_of_le_of_ne hpre.length_le fun heq => hne (hpre.eq_of_length heq)
        obtain ⟨outer, houter, hout⟩ := ih above.length hshorter hfits rfl
        exact ⟨outer, houter.trans hpre, hout⟩

theorem Fits.existsUnique_outermost (h : Fits node p place) :
    ∃! outer, outer <+: place ∧ Outermost node p outer := by
  obtain ⟨outer, hpre, hout⟩ := h.exists_outermost
  refine ⟨outer, ⟨hpre, hout⟩, ?_⟩
  rintro other ⟨hother, hout'⟩
  rcases List.prefix_or_prefix_of_prefix hother hpre with hle | hle
  · exact hout'.eq_of_above hout hle
  · exact (hout.eq_of_above hout' hle).symm

namespace Listing

variable {places : List (List Nat)} {found : List (ParseTree α)}

theorem length_eq (h : Listing node p places found) : found.length = places.length := by
  simpa using (congrArg List.length h.nodes).symm

theorem eq_singleton (h : Listing node p places found)
    (honly : ∀ other, Outermost node p other ↔ other = place) : places = [place] := by
  have hmem (other : List Nat) : other ∈ places ↔ other = place :=
    (h.outermost other).trans (honly other)
  match places, h.ordered, hmem with
  | [], _, hmem => exact absurd ((hmem place).mpr rfl) List.not_mem_nil
  | [first], _, hmem => rw [(hmem first).mp List.mem_cons_self]
  | first :: second :: rest, hordered, hmem =>
      have hlt : first < second := List.rel_of_pairwise_cons hordered List.mem_cons_self
      rw [(hmem first).mp (by simp), (hmem second).mp (by simp)] at hlt
      exact absurd hlt (List.lt_irrefl place)

theorem found_eq_singleton_iff (h : Listing node p places found) {t : ParseTree α} :
    found = [t] ↔
      ∃ place, (∀ other, Outermost node p other ↔ other = place) ∧ node place = some t := by
  constructor
  · rintro rfl
    obtain ⟨place, rfl, ht⟩ := List.map_eq_singleton_iff.mp h.nodes
    refine ⟨place, fun other => ?_, ht⟩
    rw [← h.outermost, List.mem_singleton]
  · rintro ⟨place, honly, ht⟩
    have hfound := h.nodes
    rw [h.eq_singleton honly, List.map_singleton, ht] at hfound
    obtain ⟨u, rfl, hu⟩ := List.map_eq_singleton_iff.mp hfound.symm
    rw [Option.some.inj hu]

end Listing

section Selection

variable {s : Selection α} {i : Nat}

theorem not_fits_nil : ¬ Fits s.nodeAt p [] := by
  rintro ⟨t, ht, -⟩
  cases ht

theorem fits_cons_iff :
    Fits s.nodeAt p (i :: place) ↔ ∃ t, s.nodes[i]? = some t ∧ Fits t.nodeAt p place := by
  simp only [Fits, Selection.nodeAt, Option.bind_eq_some_iff]
  constructor
  · rintro ⟨u, ⟨t, ht, hu⟩, hfits⟩
    exact ⟨t, ht, u, hu, hfits⟩
  · rintro ⟨t, ht, u, hu, hfits⟩
    exact ⟨u, ⟨t, ht, hu⟩, hfits⟩

theorem not_outermost_nil : ¬ Outermost s.nodeAt p [] :=
  fun h => not_fits_nil h.1

theorem outermost_cons_iff : Outermost s.nodeAt p (i :: place) ↔
    ∃ t, s.nodes[i]? = some t ∧ Outermost t.nodeAt p place := by
  constructor
  · rintro ⟨hfits, habove⟩
    obtain ⟨t, ht, hfits⟩ := fits_cons_iff.mp hfits
    refine ⟨t, ht, hfits, fun above hpre hne habove' => ?_⟩
    exact habove (i :: above) (List.cons_prefix_cons.mpr ⟨rfl, hpre⟩) (by simpa using hne)
      (fits_cons_iff.mpr ⟨t, ht, habove'⟩)
  · rintro ⟨t, ht, hfits, habove⟩
    refine ⟨fits_cons_iff.mpr ⟨t, ht, hfits⟩, fun above hpre hne habove' => ?_⟩
    rcases List.prefix_cons_iff.mp hpre with rfl | ⟨rest, rfl, hrest⟩
    · exact not_fits_nil habove'
    · obtain ⟨u, hu, hfits'⟩ := fits_cons_iff.mp habove'
      cases ht.symm.trans hu
      exact habove rest hrest (by simpa using hne) hfits'

end Selection

section Tree

variable {t : ParseTree α}

theorem fits_root_iff : Fits t.nodeAt p [] ↔ p t = true := by
  simp [Fits, ParseTree.nodeAt]

/-- Where the root fits, it is the only outermost place. -/
theorem outermost_iff_of_root (h : p t = true) : Outermost t.nodeAt p place ↔ place = [] := by
  constructor
  · rintro ⟨-, habove⟩
    by_contra hne
    exact habove [] List.nil_prefix (Ne.symm hne) (fits_root_iff.mpr h)
  · rintro rfl
    refine ⟨fits_root_iff.mpr h, fun above hpre hne => absurd ?_ hne⟩
    exact List.prefix_nil.mp hpre

/-- Where the root does not fit, the outermost places are those among the children. -/
theorem outermost_iff_of_not_root (h : p t = false) :
    Outermost t.nodeAt p place ↔ Outermost (Selection.mk t.children).nodeAt p place := by
  refine Outermost.congr fun place => ?_
  cases place with
  | nil => simp [fits_root_iff, h, not_fits_nil]
  | cons i place => rfl

end Tree

end Place

namespace ParseTree

variable {α : Type} {p : ParseTree α → Bool} {ts : List (ParseTree α)}

mutual

/-- The places of the nodes that `outermost` finds. -/
def outermostPlaces (p : ParseTree α → Bool) : ParseTree α → List (List Nat)
  | ⟨label, value, children⟩ =>
      if p ⟨label, value, children⟩ then [[]] else outermostPlacesFrom p 0 children

/-- The places in trees that are numbered from `i` on. -/
def outermostPlacesFrom (p : ParseTree α → Bool) (i : Nat) :
    List (ParseTree α) → List (List Nat)
  | [] => []
  | t :: ts => (outermostPlaces p t).map (i :: ·) ++ outermostPlacesFrom p (i + 1) ts

end

theorem outermostPlacesFrom_eq_flatMap (p : ParseTree α → Bool) (i : Nat)
    (ts : List (ParseTree α)) : outermostPlacesFrom p i ts =
      (ts.zipIdx i).flatMap fun x => (x.1.outermostPlaces p).map (x.2 :: ·) := by
  induction ts generalizing i with
  | nil => rfl
  | cons t ts ih => simp [outermostPlacesFrom, ih]

theorem outermostPlaces_eq (p : ParseTree α → Bool) (t : ParseTree α) :
    t.outermostPlaces p = if p t then [[]] else outermostPlacesFrom p 0 t.children := by
  cases t
  rw [outermostPlaces]

theorem mem_outermostPlacesFrom {place : List Nat} :
    place ∈ outermostPlacesFrom p 0 ts ↔
      ∃ i t rest, ts[i]? = some t ∧ rest ∈ t.outermostPlaces p ∧ place = i :: rest := by
  rw [outermostPlacesFrom_eq_flatMap, List.mem_flatMap]
  constructor
  · rintro ⟨⟨t, i⟩, ht, hplace⟩
    obtain ⟨rest, hrest, rfl⟩ := List.mem_map.mp hplace
    exact ⟨i, t, rest, List.mem_zipIdx_iff_getElem?.mp ht, hrest, rfl⟩
  · rintro ⟨i, t, rest, ht, hrest, rfl⟩
    exact ⟨(t, i), List.mem_zipIdx_iff_getElem?.mpr ht, List.mem_map_of_mem hrest⟩

/-- Places in one tree are ordered as in this tree, and those in two as the trees are. -/
theorem outermostPlacesFrom_ordered (h : ∀ t ∈ ts, (t.outermostPlaces p).Pairwise (· < ·)) :
    (outermostPlacesFrom p 0 ts).Pairwise (· < ·) := by
  have hnumbers : (ts.zipIdx.map Prod.snd).Pairwise (· < ·) := by
    rw [List.zipIdx_map_snd]
    exact List.pairwise_lt_range'
  rw [outermostPlacesFrom_eq_flatMap, List.pairwise_flatMap]
  constructor
  · rintro ⟨t, i⟩ ht
    rw [List.pairwise_map]
    refine (h t (List.mem_of_getElem? (List.mem_zipIdx_iff_getElem?.mp ht))).imp ?_
    exact fun hlt => List.cons_lt_cons_iff.mpr (.inr ⟨rfl, hlt⟩)
  · refine (List.pairwise_map.mp hnumbers).imp fun hlt place hplace place' hplace' => ?_
    obtain ⟨rest, -, rfl⟩ := List.mem_map.mp hplace
    obtain ⟨rest', -, rfl⟩ := List.mem_map.mp hplace'
    exact List.cons_lt_cons_iff.mpr (.inl hlt)

theorem map_nodeAt_outermostPlacesFrom
    (h : ∀ t ∈ ts, (t.outermostPlaces p).map t.nodeAt = (t.outermost p).map some) :
    (outermostPlacesFrom p 0 ts).map (Selection.mk ts).nodeAt =
      (ts.flatMap (outermost p)).map some := by
  have hat {x : ParseTree α × Nat} (hx : x ∈ ts.zipIdx) : ts[x.2]? = some x.1 :=
    List.mem_zipIdx_iff_getElem?.mp hx
  calc
    (outermostPlacesFrom p 0 ts).map (Selection.mk ts).nodeAt =
        ts.zipIdx.flatMap fun x => (x.1.outermostPlaces p).map fun rest =>
          (Selection.mk ts).nodeAt (x.2 :: rest) := by
      rw [outermostPlacesFrom_eq_flatMap, List.map_flatMap]
      simp only [List.map_map, Function.comp_def]
    _ = ts.zipIdx.flatMap fun x => (x.1.outermost p).map some := by
      refine List.flatMap_congr fun x hx => ?_
      rw [← h x.1 (List.mem_of_getElem? (hat hx))]
      simp only [Selection.nodeAt, hat hx, Option.bind_some]
    _ = (ts.zipIdx.map Prod.fst).flatMap fun t => (t.outermost p).map some := by
      rw [List.flatMap_map]
    _ = (ts.flatMap (outermost p)).map some := by
      rw [List.zipIdx_map_fst, List.map_flatMap]

end ParseTree

namespace Place

open ParseTree

variable {α : Type} {p : ParseTree α → Bool} {ts : List (ParseTree α)}

/-- If the places in each tree are listed, so are those in the selection of all trees. -/
theorem listing_selection
    (h : ∀ t ∈ ts, Listing t.nodeAt p (t.outermostPlaces p) (t.outermost p)) :
    Listing (Selection.mk ts).nodeAt p (outermostPlacesFrom p 0 ts)
      (ts.flatMap (outermost p)) where
  ordered := outermostPlacesFrom_ordered fun t ht => (h t ht).ordered
  nodes := map_nodeAt_outermostPlacesFrom fun t ht => (h t ht).nodes
  outermost := by
    intro place
    rw [mem_outermostPlacesFrom]
    cases place with
    | nil => simp [not_outermost_nil]
    | cons i place =>
        rw [outermost_cons_iff]
        constructor
        · rintro ⟨_, t, _, ht, hplace, ⟨⟩⟩
          exact ⟨t, ht, ((h t (List.mem_of_getElem? ht)).outermost place).mp hplace⟩
        · rintro ⟨t, ht, hplace⟩
          exact ⟨i, t, place, ht, ((h t (List.mem_of_getElem? ht)).outermost place).mpr hplace, rfl⟩

theorem listing_outermost (p : ParseTree α → Bool) (t : ParseTree α) :
    Listing t.nodeAt p (t.outermostPlaces p) (t.outermost p) := by
  induction t with
  | node label value children ih =>
      rw [outermostPlaces_eq, outermost_eq]
      cases hroot : p ⟨label, value, children⟩ with
      | true =>
          refine ⟨by simp, fun place => ?_, rfl⟩
          rw [outermost_iff_of_root hroot]
          exact List.mem_singleton
      | false =>
          obtain ⟨hordered, houtermost, hnodes⟩ := listing_selection ih
          refine ⟨hordered, fun place => ?_, ?_⟩
          · rw [outermost_iff_of_not_root hroot]
            exact houtermost place
          · -- No listed place is that of the root, at which alone tree and selection differ.
            refine Eq.trans (List.map_congr_left fun place hplace => ?_) hnodes
            obtain ⟨i, t, rest, -, -, rfl⟩ := mem_outermostPlacesFrom.mp hplace
            rfl

end Place

namespace Selection

variable {α : Type} {s : Selection α} {query : String}

theorem exactlyOne_eq_ok_iff {t : ParseTree α} : s.exactlyOne query = .ok t ↔ s.nodes = [t] := by
  unfold exactlyOne
  split
  · rename_i u hu
    simp [hu]
  · rename_i hone
    simpa using hone t

theorem exactlyOne_eq_error_iff {f : Failure} : s.exactlyOne query = .error f ↔
    s.nodes.length ≠ 1 ∧ f = { cause := .queryMismatch query s.nodes.length } := by
  unfold exactlyOne
  split
  · rename_i u hu
    simp [hu]
  · rename_i hone
    have hlength : s.nodes.length ≠ 1 := fun h => by
      obtain ⟨t, ht⟩ := List.length_eq_one_iff.mp h
      exact hone t ht
    simp [hlength, eq_comm]

/-- A query finds just the outermost places at which a node fits, once each and in document
order. None of these lies inside another, and each place that fits lies in just one. The
nodes found in two selections together are those found in the one and then those found in
the other. A query for one node answers with the node if there is one such place, and tells
their number otherwise. -/
theorem select_outermost (s : Selection α) (p : ParseTree α → Bool) :
    (∃ places, Place.Listing s.nodeAt p places (s.select p).nodes ∧
      (∀ outer ∈ places, ∀ place ∈ places, outer <+: place → outer = place) ∧
      (∀ place, Place.Fits s.nodeAt p place → ∃! outer, outer ∈ places ∧ outer <+: place) ∧
      ∀ f, s.selectOne p = .error f ↔
        places.length ≠ 1 ∧ f = { cause := .queryMismatch "match" places.length }) ∧
      (∀ t, s.selectOne p = .ok t ↔
        ∃ place, (∀ other, Place.Outermost s.nodeAt p other ↔ other = place) ∧
          s.nodeAt place = some t) ∧
      ∀ s' : Selection α, (Selection.mk (s.nodes ++ s'.nodes)).select p =
        ⟨(s.select p).nodes ++ (s'.select p).nodes⟩ := by
  have hlisting : Place.Listing s.nodeAt p _ (s.select p).nodes :=
    Place.listing_selection fun t _ => Place.listing_outermost p t
  refine ⟨⟨_, hlisting, ?_, ?_, ?_⟩, ?_, ?_⟩
  · intro outer houter place hplace
    exact ((hlisting.outermost outer).mp houter).eq_of_above
      ((hlisting.outermost place).mp hplace)
  · intro place hfits
    simp only [hlisting.outermost, and_comm]
    exact hfits.existsUnique_outermost
  · intro f
    rw [selectOne, exactlyOne_eq_error_iff, hlisting.length_eq]
  · intro t
    rw [selectOne, exactlyOne_eq_ok_iff]
    exact hlisting.found_eq_singleton_iff
  · intro s'
    rw [select, List.flatMap_append]
    rfl

/-- One name at three places: inside another name, and twice side by side. -/
private def repeated : Selection Char :=
  let name : ParseTree Char := (ParseTree.leaf 'x').labelled "name"
  ⟨[(ParseTree.branch [name]).labelled "name", ParseTree.branch [name, name]]⟩

/-- The name inside the other is not found apart from it, and those side by side are found
both. -/
theorem select_outermost_repeated :
    let p : ParseTree Char → Bool := (·.isLabelledAny ["name"])
    Place.Fits repeated.nodeAt p [0, 0] ∧
      (∃! outer, Place.Outermost repeated.nodeAt p outer ∧ outer <+: [0, 0]) ∧
      repeated.selectOne p = .error { cause := .queryMismatch "match" 3 } := by
  intro p
  obtain ⟨⟨places, hlisting, -, hinside, herror⟩, -⟩ := repeated.select_outermost p
  have hfits : Place.Fits repeated.nodeAt p [0, 0] := ⟨_, rfl, rfl⟩
  have hlength : places.length = 3 := by
    rw [← hlisting.length_eq]
    rfl
  refine ⟨hfits, ?_, (herror _).mpr (by simp [hlength])⟩
  simpa only [hlisting.outermost] using hinside [0, 0] hfits

end Selection

end Peg
