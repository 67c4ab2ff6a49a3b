/-
What a store has under a key.

A store has at most one entry for all the keys that are the same, so putting one in or
taking one out is seen under every one of these keys and under no other
(`answer_put`, `answer_remove_of_same`, `answer_remove_of_not_same`).
-/
import BuildConfig.Evaluation.Store

namespace BuildConfig

theorem Key.same_comm (a b : Key) : a.same b = b.same a :=
  Bool.eq_iff_iff.mpr ⟨fun h => same_iff.mpr (same_iff.mp h).symm,
    fun h => same_iff.mpr (same_iff.mp h).symm⟩

private theorem Key.same_congr {a b : Key} (h : a.same b = true) (other : Key) :
    a.same other = b.same other := by
  rw [same, same, same_iff.mp h]

/-- There is nothing in the answer. -/
def Answer.isMissing {α : Type} : Answer α → Bool
  | missing => true
  | _ => false

private theorem Answer.isMissing_iff {α : Type} {answer : Answer α} :
    answer.isMissing = true ↔ answer = .missing := by
  cases answer <;> simp [isMissing]

namespace Store

variable {store : Store} {key other : Key}

/-! ### Entries -/

theorem isSome_answer? (entry : Entry) (key : Key) :
    (entry.answer? key).isSome = entry.key.same key := by
  unfold Entry.answer?
  split
  · rename_i h
    exact h.symm
  · rename_i h
    exact (Bool.eq_false_iff.mpr h).symm

theorem answer?_eq_none {entry : Entry} (h : entry.key.same key = false) :
    entry.answer? key = none := by
  rw [← Option.not_isSome_iff_eq_none, isSome_answer?, h]
  exact Bool.false_ne_true

private theorem isMissing_of_answer? {entry : Entry} {answer : Answer key.Value}
    (h : entry.answer? key = some answer) : answer.isMissing = false := by
  unfold Entry.answer? at h
  split at h
  · cases h
    cases (Key.value_eq_of_same ‹_› ▸ entry.held : Except Failure key.Value) with
    | ok value => rfl
    | error failure => rfl
  · cases h

/-! ### Tables -/

theorem contains_eq (store : Store) (key : Key) :
    store.contains key = !(store.answer key).isMissing := by
  have hfound : store.contains key =
      (store.entries.findSome? fun entry => entry.answer? key).isSome := by
    rw [List.isSome_findSome?]
    exact congrArg store.entries.any (funext fun entry => (isSome_answer? entry key).symm)
  rw [hfound, answer]
  cases hanswer : store.entries.findSome? fun entry => entry.answer? key with
  | none => rfl
  | some answer =>
      obtain ⟨entry, -, hentry⟩ := List.exists_of_findSome?_eq_some hanswer
      rw [Option.getD_some, isMissing_of_answer? hentry]
      rfl

theorem answer_eq_missing (h : store.contains key = false) : store.answer key = .missing := by
  rw [contains_eq, Bool.not_eq_false'] at h
  exact Answer.isMissing_iff.mp h

theorem contains_congr (store : Store) (h : other.same key = true) :
    store.contains other = store.contains key := by
  refine congrArg store.entries.any (funext fun entry => ?_)
  rw [Key.same_comm, Key.same_congr h, Key.same_comm]

theorem answer_remove_of_same (store : Store) (h : other.same key = true) :
    (store.remove other).answer key = .missing := by
  refine answer_eq_missing ?_
  rw [← contains_congr _ h, contains, List.any_eq_false]
  intro entry hentry
  have hdiffers : (!entry.key.same other) = true := (List.mem_filter.mp hentry).2
  simpa using hdiffers

theorem answer_remove_of_not_same (store : Store) (h : other.same key = false) :
    (store.remove other).answer key = store.answer key := by
  unfold answer remove
  dsimp only
  induction store.entries with
  | nil => rfl
  | cons entry rest ih =>
      cases hentry : entry.key.same other with
      | true =>
          have hnone : entry.answer? key = none := by
            refine answer?_eq_none ?_
            rw [Key.same_congr hentry, h]
          simpa [hentry, hnone] using ih
      | false =>
          rw [List.filter_cons_of_pos (by simp [hentry]), List.findSome?_cons, List.findSome?_cons]
          cases entry.answer? key with
          | some answer => rfl
          | none => exact ih

/-- What is put into a store is what there is under its key from then on. -/
theorem answer_put (store : Store) (entry : Entry) (key : Key) :
    (store.put entry).answer key = (entry.answer? key).getD (store.answer key) := by
  unfold answer put
  dsimp only
  rw [List.findSome?_cons]
  cases hanswer : entry.answer? key with
  | some answer => rfl
  | none =>
      refine answer_remove_of_not_same store ?_
      rw [← isSome_answer?, hanswer]
      rfl

end Store

end BuildConfig
