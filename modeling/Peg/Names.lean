/-!
Lists of declared names, in which no name may stand twice.
-/

namespace Peg

/-- The first name of a list that is among `seen` or stands earlier in the list. -/
def firstRepeatAfter (seen : List String) : List String → Option String
  | [] => none
  | name :: names =>
      if name ∈ seen then some name else firstRepeatAfter (name :: seen) names

/-- The name whose second mention comes first. -/
def firstRepeat (names : List String) : Option String :=
  firstRepeatAfter [] names

theorem firstRepeatAfter_eq_none_iff {seen names : List String} :
    firstRepeatAfter seen names = none ↔
      names.Nodup ∧ ∀ name ∈ names, name ∉ seen := by
  induction names generalizing seen with
  | nil => simp [firstRepeatAfter]
  | cons name names ih =>
      by_cases hmem : name ∈ seen
      · simp [firstRepeatAfter, hmem]
      · simp only [firstRepeatAfter, hmem, if_false, ih, List.nodup_cons, List.mem_cons,
          not_or, forall_eq_or_imp, not_false_eq_true, true_and]
        constructor
        · rintro ⟨hnodup, hall⟩
          exact ⟨⟨fun h => (hall name h).1 rfl, hnodup⟩, fun x hx => (hall x hx).2⟩
        · rintro ⟨⟨hname, hnodup⟩, hall⟩
          exact ⟨hnodup, fun x hx => ⟨fun h => hname (h ▸ hx), hall x hx⟩⟩

theorem firstRepeatAfter_eq_some_iff {seen names : List String} {name : String} :
    firstRepeatAfter seen names = some name ↔
      ∃ before after, names = before ++ name :: after ∧
        firstRepeatAfter seen before = none ∧ (name ∈ seen ∨ name ∈ before) := by
  induction names generalizing seen with
  | nil => simp [firstRepeatAfter]
  | cons first names ih =>
      by_cases hmem : first ∈ seen
      · simp only [firstRepeatAfter, hmem, if_true, Option.some.injEq]
        constructor
        · rintro rfl
          exact ⟨[], names, rfl, rfl, .inl hmem⟩
        · rintro ⟨before, after, hnames, hnone, -⟩
          cases before with
          | nil => exact (List.cons.inj hnames).1
          | cons x before =>
              obtain rfl := (List.cons.inj hnames).1
              simp [firstRepeatAfter, hmem] at hnone
      · simp only [firstRepeatAfter, hmem, if_false, ih, List.mem_cons]
        constructor
        · rintro ⟨before, after, rfl, hnone, hname⟩
          refine ⟨first :: before, after, rfl, by simpa [firstRepeatAfter, hmem] using hnone, ?_⟩
          simpa [or_left_comm, or_assoc] using hname
        · rintro ⟨before, after, hnames, hnone, hname⟩
          cases before with
          | nil =>
              obtain rfl := (List.cons.inj hnames).1
              exact absurd (by simpa using hname) hmem
          | cons x before =>
              obtain ⟨rfl, rfl⟩ := List.cons.inj hnames
              refine ⟨before, after, rfl, by simpa [firstRepeatAfter, hmem] using hnone, ?_⟩
              simpa [or_left_comm, or_assoc] using hname

theorem firstRepeat_eq_none_iff {names : List String} :
    firstRepeat names = none ↔ names.Nodup := by
  simp [firstRepeat, firstRepeatAfter_eq_none_iff]

/-- The name that is reported repeats one before it, and no name before it does. -/
theorem firstRepeat_eq_some_iff {names : List String} {name : String} :
    firstRepeat names = some name ↔
      ∃ before after, names = before ++ name :: after ∧ before.Nodup ∧ name ∈ before := by
  simp [firstRepeat, firstRepeatAfter_eq_some_iff, firstRepeatAfter_eq_none_iff]

end Peg
