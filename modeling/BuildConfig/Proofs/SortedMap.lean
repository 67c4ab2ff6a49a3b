/-
What the operations on maps do, as it is seen at the keys.

A map is known by the values at its keys (`SortedMap.ext_get?`), so the law of an operation
is an equation for `get?`.  The entries of a map and its keys say the same: an entry is a
key with its value (`mem_entries_iff`), and because the keys ascend, a key has one entry
only and the first key that passes a test is the least that does.
-/
import BuildConfig.SortedMap
import Mathlib.Data.List.Induction
import Mathlib.Data.List.Nodup

namespace BuildConfig.SortedMap

/-! ### Entries and keys -/

section Entries

variable {κ α : Type} [LT κ] [DecidableEq κ]

theorem mem_keys_iff {m : SortedMap κ α} {k : κ} : k ∈ m.keys ↔ m.contains k = true := by
  unfold contains get? keys
  induction m.entries with
  | nil => simp [find?]
  | cons e rest ih =>
      obtain ⟨key, value⟩ := e
      by_cases hk : k = key
      · simp [find?, hk]
      · simp [find?, hk, ih]

theorem mem_iff_of_ascending [KeyOrder κ] {es : List (κ × α)}
    (h : (es.map (·.1)).Pairwise (· < ·)) {k : κ} {a : α} :
    (k, a) ∈ es ↔ find? k es = some a := by
  induction es with
  | nil => simp [find?]
  | cons e rest ih =>
      obtain ⟨key, value⟩ := e
      rw [List.map_cons, List.pairwise_cons] at h
      rw [List.mem_cons, ih h.2, find?]
      by_cases hk : k = key
      · have hrest : find? key rest = none := find?_eq_none_of_forall_lt h.1
        simp [hk, hrest, eq_comm]
      · simp [hk]

theorem mem_entries_iff [KeyOrder κ] {m : SortedMap κ α} {k : κ} {a : α} :
    (k, a) ∈ m.entries ↔ m.get? k = some a :=
  mem_iff_of_ascending m.ascending

omit [DecidableEq κ] in
/-- The keys ascend, so the first that passes a test is the least that does. -/
theorem least_of_find?_keys [KeyOrder κ] {m : SortedMap κ α} {p : κ → Bool} {k : κ}
    (h : m.keys.find? p = some k) {other : κ} (hmem : other ∈ m.keys) (hother : p other = true) :
    ¬ other < k := by
  obtain ⟨-, before, after, hkeys, hbefore⟩ := List.find?_eq_some_iff_append.mp h
  have hascending : (before ++ k :: after).Pairwise (· < ·) := hkeys ▸ m.ascending
  have hafter : ∀ later ∈ after, k < later :=
    (List.pairwise_cons.mp (List.pairwise_append.mp hascending).2.1).1
  intro hlt
  rw [hkeys, List.mem_append, List.mem_cons] at hmem
  rcases hmem with hmem | rfl | hmem
  · simpa [hother] using hbefore other hmem
  · exact KeyOrder.irrefl other hlt
  · exact KeyOrder.irrefl k (KeyOrder.trans (hafter other hmem) hlt)

omit [LT κ] in
private theorem find?_filter (keep : κ → Bool) (es : List (κ × α)) (k : κ) :
    find? k (es.filter fun e => keep e.1) = if keep k then find? k es else none := by
  induction es with
  | nil => simp [find?]
  | cons e rest ih =>
      obtain ⟨key, value⟩ := e
      by_cases hk : k = key
      · subst hk
        cases hkeep : keep k with
        | true => simp [hkeep, find?]
        | false => simp [hkeep, ih]
      · cases hkeep : keep key with
        | true => simp [hkeep, find?, hk, ih]
        | false => simp [hkeep, find?, hk, ih]

theorem get?_filterKeys (keep : κ → Bool) (m : SortedMap κ α) (k : κ) :
    (m.filterKeys keep).get? k = if keep k then m.get? k else none :=
  find?_filter keep m.entries k

end Entries

/-! ### Adding entries -/

section Insert

variable {κ α : Type} [LT κ] [DecidableLT κ] [DecidableEq κ] [KeyOrder κ]

theorem insert_insert (m : SortedMap κ α) (key : κ) (old new : α) :
    (m.insert key old).insert key new = m.insert key new := by
  refine ext_get? ?_
  intro k
  rw [get?_insert, get?_insert, get?_insert]
  by_cases h : k = key
  · rw [if_pos h, if_pos h]
  · rw [if_neg h, if_neg h, if_neg h]

private theorem get?_foldl_insert {es : List (κ × α)} (h : (es.map (·.1)).Pairwise (· < ·))
    (m : SortedMap κ α) (k : κ) :
    (es.foldl (fun acc (key, value) => acc.insert key value) m).get? k =
      (find? k es).or (m.get? k) := by
  induction es generalizing m with
  | nil => rfl
  | cons e rest ih =>
      obtain ⟨key, value⟩ := e
      rw [List.map_cons, List.pairwise_cons] at h
      rw [List.foldl_cons, ih h.2, get?_insert, find?]
      by_cases hk : k = key
      · rw [if_pos hk, if_pos hk, find?_eq_none_of_forall_lt fun k' hk' => hk ▸ h.1 k' hk']
        rfl
      · rw [if_neg hk, if_neg hk]

theorem get?_union (m other : SortedMap κ α) (k : κ) :
    (m.union other).get? k = (other.get? k).or (m.get? k) :=
  get?_foldl_insert other.ascending m k

theorem ofList_snoc (es : List (κ × α)) (key : κ) (value : α) :
    ofList (es ++ [(key, value)]) = (ofList es).insert key value := by
  unfold ofList
  rw [List.foldl_append]
  rfl

theorem contains_ofList_iff {es : List (κ × α)} {k : κ} :
    (ofList es).contains k = true ↔ k ∈ es.map (·.1) := by
  induction es using List.reverseRecOn with
  | nil => simp [ofList, contains]
  | append_singleton es e ih =>
      obtain ⟨key, value⟩ := e
      unfold contains at ih ⊢
      rw [ofList_snoc, get?_insert, List.map_append, List.mem_append, ← ih]
      by_cases h : k = key
      · simp [h]
      · simp [h]

/-- Where no key is repeated, a map has just the entries that it was made of. -/
theorem get?_ofList_eq_some_iff {es : List (κ × α)} (h : (es.map (·.1)).Nodup) {k : κ} {a : α} :
    (ofList es).get? k = some a ↔ (k, a) ∈ es := by
  induction es using List.reverseRecOn with
  | nil => simp [ofList]
  | append_singleton es e ih =>
      obtain ⟨key, value⟩ := e
      rw [List.map_append, List.map_singleton, ← List.concat_eq_append, List.nodup_concat] at h
      rw [ofList_snoc, get?_insert, List.mem_append, List.mem_singleton, Prod.mk.injEq]
      by_cases hk : k = key
      · subst hk
        have hnew : (k, a) ∉ es := fun hmem => h.1 (List.mem_map.mpr ⟨(k, a), hmem, rfl⟩)
        simp [hnew, eq_comm]
      · simp [hk, ih h.2]

end Insert

end BuildConfig.SortedMap
