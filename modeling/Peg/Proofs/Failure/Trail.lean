import Peg.Proofs.Failure.Furthest

/-!
Where the name that is reported with a failure comes from. The trail goes down to the child
that reaches furthest, to the last of several, whereas the furthest failure is the first of
several. So both tell of the same failure where the greatest position is reached in one
branch only, and otherwise the name may be that of another branch.
-/

namespace Peg.Failure

/-- The name met last on a way down, if any. -/
def lastName (path : List Failure) : Option String :=
  (path.filterMap name).getLast?

theorem lastName_eq_none_iff {path : List Failure} :
    lastName path = none ↔ ∀ f ∈ path, f.name = none := by
  simp [lastName]

mutual

/-- The ways from a failure down to those that rest on no other. -/
def paths : Failure → List (List Failure)
  | ⟨cause, pos, name, children⟩ =>
      if children.isEmpty then [[⟨cause, pos, name, children⟩]]
      else (pathsAll children).map (⟨cause, pos, name, children⟩ :: ·)

def pathsAll : List Failure → List (List Failure)
  | [] => []
  | f :: fs => paths f ++ pathsAll fs

end

mutual

/-- The failures at position `p` that lie below no other such. -/
def outermostAt (p : Nat) : Failure → List Failure
  | ⟨cause, pos, name, children⟩ =>
      if pos = p then [⟨cause, pos, name, children⟩] else outermostAtAll p children

def outermostAtAll (p : Nat) : List Failure → List Failure
  | [] => []
  | f :: fs => outermostAt p f ++ outermostAtAll p fs

end

theorem pathsAll_eq_flatMap (fs : List Failure) : pathsAll fs = fs.flatMap paths := by
  induction fs with
  | nil => rfl
  | cons f fs ih => simp [pathsAll, ih]

theorem paths_of_eq_nil {f : Failure} (h : f.children = []) : f.paths = [[f]] := by
  cases f
  rw [paths, if_pos (by simpa using h)]

theorem paths_of_ne_nil {f : Failure} (h : f.children ≠ []) :
    f.paths = (f.children.flatMap paths).map (f :: ·) := by
  cases f
  rw [paths, if_neg (by simpa using h), pathsAll_eq_flatMap]

theorem outermostAtAll_eq_flatMap (p : Nat) (fs : List Failure) :
    outermostAtAll p fs = fs.flatMap (outermostAt p) := by
  induction fs with
  | nil => rfl
  | cons f fs ih => simp [outermostAtAll, ih]

theorem outermostAt_eq (p : Nat) (f : Failure) :
    f.outermostAt p = if f.pos = p then [f] else f.children.flatMap (outermostAt p) := by
  cases f
  rw [outermostAt, outermostAtAll_eq_flatMap]

theorem outermostAt_of_reach_lt {p : Nat} {f : Failure} (h : f.reach < p) :
    f.outermostAt p = [] := by
  induction f with
  | node f ih =>
      have hpos : f.pos < p := Nat.lt_of_le_of_lt f.pos_le_reach h
      rw [outermostAt_eq, if_neg (Nat.ne_of_lt hpos), List.flatMap_eq_nil_iff]
      exact fun g hg => ih g hg (Nat.lt_of_le_of_lt (reach_le_of_mem hg) h)

theorem flatMap_outermostAt_of_reach_lt {p : Nat} {fs : List Failure}
    (h : ∀ f ∈ fs, f.reach < p) : fs.flatMap (outermostAt p) = [] :=
  List.flatMap_eq_nil_iff.mpr fun f hf => outermostAt_of_reach_lt (h f hf)

theorem trail_eq (f : Failure) : f.trail = f :: trailAmong f.children := by
  cases f
  rw [trail]

/-- Among failures the trail goes to the last that reaches furthest. -/
theorem trailAmong_cases (fs : List Failure) :
    (fs = [] ∧ trailAmong fs = []) ∨
      ∃ before g after, fs = before ++ g :: after ∧ trailAmong fs = g.trail ∧
        (∀ e ∈ fs, e.reach ≤ g.reach) ∧ ∀ e ∈ after, e.reach < g.reach := by
  induction fs with
  | nil => exact .inl ⟨rfl, rfl⟩
  | cons f fs ih =>
      rw [trailAmong]
      by_cases hany : fs.any (f.reach ≤ ·.reach) = true
      · obtain ⟨e, he, hfe⟩ : ∃ e ∈ fs, f.reach ≤ e.reach := by simpa using hany
        rw [if_pos hany]
        rcases ih with ⟨rfl, -⟩ | ⟨before, g, after, hsplit, heq, hle, hafter⟩
        · cases he
        · refine .inr ⟨f :: before, g, after, by rw [hsplit]; rfl, heq, ?_, hafter⟩
          exact List.forall_mem_cons.mpr ⟨Nat.le_trans hfe (hle e he), hle⟩
      · have hlt : ∀ e ∈ fs, e.reach < f.reach := by simpa using hany
        rw [if_neg hany]
        refine .inr ⟨[], f, fs, rfl, rfl, ?_, hlt⟩
        exact List.forall_mem_cons.mpr ⟨Nat.le_refl _, fun e he => Nat.le_of_lt (hlt e he)⟩

theorem trail_mem_paths (f : Failure) : f.trail ∈ f.paths := by
  induction f with
  | node f ih =>
      rw [trail_eq]
      rcases trailAmong_cases f.children with
        ⟨hnil, htrail⟩ | ⟨before, g, after, hsplit, htrail, -, -⟩
      · rw [htrail, paths_of_eq_nil hnil]
        exact List.mem_singleton_self [f]
      · have hg : g ∈ f.children := by simp [hsplit]
        rw [htrail, paths_of_ne_nil (List.ne_nil_of_mem hg)]
        exact List.mem_map_of_mem (List.mem_flatMap.mpr ⟨g, hg, ih g hg⟩)

theorem head?_outermostAt_reach (f : Failure) :
    (f.outermostAt f.reach).head? = some f.furthest := by
  induction f with
  | node f ih =>
      rw [outermostAt_eq]
      rcases f.furthest_cases with ⟨heq, -⟩ | ⟨before, g, after, hsplit, heq, hpos, hbefore, -⟩
      · have hreach : f.pos = f.reach := (congrArg Failure.pos heq).symm
        rw [if_pos hreach, heq]
        rfl
      · have hreach : f.reach = g.reach := congrArg Failure.pos heq
        rw [hreach, if_neg (Nat.ne_of_lt hpos), hsplit, List.flatMap_append, List.flatMap_cons,
          flatMap_outermostAt_of_reach_lt hbefore, List.nil_append, List.head?_append,
          ih g (by simp [hsplit]), heq]
        rfl

/-- A failure that does not lie furthest itself rests on others, and the trail goes to the
last of these that reaches as far as it does. -/
theorem trail_of_pos_lt_reach {f : Failure} (h : f.pos < f.reach) :
    ∃ before g after, f.children = before ++ g :: after ∧ f.trail = f :: g.trail ∧
      g.reach = f.reach ∧ ∀ e ∈ after, e.reach < f.reach := by
  rcases f.furthest_cases with ⟨heq, -⟩ | ⟨_, far, _, hfar, heq, -, -, -⟩
  · exact absurd (congrArg Failure.pos heq) (Nat.ne_of_gt h)
  · have hmem : far ∈ f.children := by simp [hfar]
    have hreach : f.reach = far.reach := congrArg Failure.pos heq
    rcases trailAmong_cases f.children with
      ⟨hnil, -⟩ | ⟨before, g, after, hsplit, htrail, hle, hafter⟩
    · simp [hnil] at hmem
    · have hgreatest : g.reach = f.reach :=
        Nat.le_antisymm (reach_le_of_mem (by simp [hsplit])) (hreach ▸ hle far hmem)
      exact ⟨before, g, after, hsplit, by rw [trail_eq, htrail], hgreatest, hgreatest ▸ hafter⟩

/-- The trail comes to the last of the outermost failures at the greatest position, and to
no other failure at that position before. -/
theorem exists_trail_split (f : Failure) :
    ∃ above g below, f.trail = above ++ g :: below ∧ (∀ e ∈ above, e.pos < f.reach) ∧
      (f.outermostAt f.reach).getLast? = some g := by
  induction f with
  | node f ih =>
      rw [outermostAt_eq]
      by_cases hpos : f.pos = f.reach
      · rw [if_pos hpos, trail_eq]
        exact ⟨[], f, _, rfl, by simp, rfl⟩
      · have hlt : f.pos < f.reach := Nat.lt_of_le_of_ne f.pos_le_reach hpos
        obtain ⟨before, g, after, hsplit, htrail, hreach, hafter⟩ := trail_of_pos_lt_reach hlt
        obtain ⟨above, e, below, hpath, habove, hlast⟩ := ih g (by simp [hsplit])
        rw [hreach] at habove hlast
        refine ⟨f :: above, e, below, by rw [htrail, hpath]; rfl, ?_, ?_⟩
        · exact List.forall_mem_cons.mpr ⟨hlt, habove⟩
        · rw [if_neg hpos, hsplit, List.flatMap_append, List.flatMap_cons,
            flatMap_outermostAt_of_reach_lt hafter, List.append_nil, List.getLast?_append, hlast]
          rfl

/-- The name that is reported with a failure is met on some way down that passes through the
furthest failure. -/
def NamesFurthest (f : Failure) : Prop :=
  ∃ path ∈ f.paths, f.furthest ∈ path ∧ lastName path = f.innermostName

/-- The name that is reported with a failure is the last on a way down, none if there is no
name on it, and this way passes through the last of the outermost failures at the greatest
position. The furthest failure is the first of these. So the name goes with the furthest
failure where there is one such only. -/
theorem innermostName_of_last_furthest (f : Failure) :
    (∃ path ∈ f.paths, lastName path = f.innermostName ∧
      (f.innermostName = none ↔ ∀ e ∈ path, e.name = none) ∧
      ∃ above g below, path = above ++ g :: below ∧
        (∀ e ∈ above, e.pos < f.furthest.pos) ∧
        (f.outermostAt f.furthest.pos).getLast? = some g) ∧
      (f.outermostAt f.furthest.pos).head? = some f.furthest ∧
      ((f.outermostAt f.furthest.pos).length = 1 → f.NamesFurthest) := by
  obtain ⟨above, g, below, hpath, habove, hlast⟩ := f.exists_trail_split
  refine ⟨⟨f.trail, f.trail_mem_paths, rfl, lastName_eq_none_iff, above, g, below, hpath,
    habove, hlast⟩, f.head?_outermostAt_reach, ?_⟩
  intro hlength
  obtain ⟨e, he⟩ := List.length_eq_one_iff.mp hlength
  have hfirst : e = f.furthest := by simpa [reach, he] using f.head?_outermostAt_reach
  have hsame : e = g := by simpa [reach, he] using hlast
  refine ⟨f.trail, f.trail_mem_paths, ?_, rfl⟩
  rw [hpath, ← hfirst, hsame]
  simp

/-- Two named alternatives that have their first item in common. -/
private def prefixGrammar : Grammar Char Char where
  start := "s"
  rules :=
    [("s", .alt [.ref "a", .ref "b"]),
     ("a", .seq [.literal 'x', .literal 'y']),
     ("b", .seq [.literal 'x', .literal 'z'])]
  distinct := by decide
  start_declared := by decide

/-- Where both alternatives break off behind that item, the furthest failure is that of the
first, and the name is that of the second. -/
theorem innermostName_of_other_branch :
    let broken (name expected : String) : Failure :=
      .nested 0 ((Failure.nested 0 { cause := .mismatch expected "'w'", pos := 1 }).named name)
    let f : Failure :=
      { cause := .noAlternative, name := some "s", children := [broken "a" "'y'", broken "b" "'z'"] }
    prefixGrammar.matchStart #['x', 'w'] = .failed f ∧
      f.furthest = { cause := .mismatch "'y'" "'w'", pos := 1 } ∧
      f.innermostName = some "b" ∧ ¬ f.NamesFurthest := by
  intro broken f
  have hpaths : ∀ path ∈ f.paths, f.furthest ∈ path → lastName path = some "a" := by decide
  refine ⟨rfl, rfl, rfl, ?_⟩
  rintro ⟨path, hpath, hmem, hname⟩
  rw [hpaths path hpath hmem] at hname
  exact absurd hname (by decide)

end Peg.Failure
