/-
Cutting a text at a separator.

`cut?` cuts once, at the first place where the separator stands; `pieces` cuts at
every place.  Neither keeps the separator.  Putting the parts together again says
the whole of `cut?`: `cut?_eq_some_iff`.
-/

namespace BuildConfig.Text

/-- The text before the first `sep` and the text after it, if there is one. -/
def cut? (sep : Char) : List Char → Option (List Char × List Char)
  | [] => none
  | c :: rest =>
    if c = sep then some ([], rest)
    else (cut? sep rest).map fun (before, after) => (c :: before, after)

/-- The parts of the text between its separators; there is one more than separators. -/
def pieces (sep : Char) : List Char → List (List Char)
  | [] => [[]]
  | c :: rest =>
    if c = sep then [] :: pieces sep rest
    else
      match pieces sep rest with
      | [] => [[c]]
      | piece :: others => (c :: piece) :: others

/-! ### Putting the parts together again -/

/-- A text is cut at its first separator, and nothing but the separator is lost. -/
theorem cut?_eq_some_iff {sep : Char} {cs before after : List Char} :
    cut? sep cs = some (before, after) ↔ cs = before ++ sep :: after ∧ sep ∉ before := by
  induction cs generalizing before with
  | nil => simp [cut?]
  | cons c rest ih =>
    by_cases hc : c = sep
    · subst hc
      cases before with
      | nil => simp [cut?, eq_comm]
      | cons b bs =>
        simp only [cut?, if_true, Option.some.injEq, Prod.mk.injEq, List.cons_append,
          List.cons.injEq, List.mem_cons, not_or]
        constructor
        · intro h
          exact absurd h.1 (by simp)
        · rintro ⟨⟨rfl, -⟩, hne, -⟩
          exact absurd rfl hne
    · simp only [cut?, hc, if_false, Option.map_eq_some_iff, Prod.mk.injEq, Prod.exists]
      constructor
      · rintro ⟨b, a, h, rfl, rfl⟩
        obtain ⟨rfl, hb⟩ := ih.1 h
        exact ⟨rfl, by simp [hb, Ne.symm hc]⟩
      · rintro ⟨hcs, hmem⟩
        cases before with
        | nil => exact absurd (List.cons.inj hcs).1 hc
        | cons b bs =>
          obtain ⟨rfl, rfl⟩ := List.cons.inj hcs
          exact ⟨bs, after, ih.2 ⟨rfl, fun h => hmem (List.mem_cons_of_mem _ h)⟩, rfl, rfl⟩

/-- A text is not cut exactly when the separator does not stand in it. -/
theorem cut?_eq_none_iff {sep : Char} {cs : List Char} : cut? sep cs = none ↔ sep ∉ cs := by
  induction cs with
  | nil => simp [cut?]
  | cons c rest ih =>
    by_cases hc : c = sep
    · simp [cut?, hc]
    · simp [cut?, hc, ih, Ne.symm hc]

theorem pieces_ne_nil (sep : Char) (cs : List Char) : pieces sep cs ≠ [] := by
  cases cs with
  | nil => simp [pieces]
  | cons c rest =>
    unfold pieces
    split
    · simp
    · split <;> simp

/-- No piece holds the separator. -/
theorem not_mem_pieces {sep : Char} {cs piece : List Char} (h : piece ∈ pieces sep cs) :
    sep ∉ piece := by
  induction cs generalizing piece with
  | nil => simp_all [pieces]
  | cons c rest ih =>
    obtain ⟨first, others, hp⟩ := List.exists_cons_of_ne_nil (pieces_ne_nil sep rest)
    rw [hp] at ih
    by_cases hc : c = sep
    · simp only [pieces, hc, if_true, hp, List.mem_cons] at h
      rcases h with rfl | h
      · simp
      · exact ih (by simpa using h)
    · simp only [pieces, hc, if_false, hp, List.mem_cons] at h
      rcases h with rfl | h
      · have := ih List.mem_cons_self
        simp [Ne.symm hc, this]
      · exact ih (by simp [h])

end BuildConfig.Text
