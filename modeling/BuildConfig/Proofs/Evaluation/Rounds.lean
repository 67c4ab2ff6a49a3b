/-
What a slot returns, whatever is done with it.

A slot is written to and taken from in any order.  Each take leaves it empty, so a history
falls into rounds, which end in a take and have nothing to do with each other.  Within a
round there are only writes, and after each of them the slot holds the first error written
so far, or else the first value.  One write keeps it that way (`outcome_accept`), and that is
all that has to be known about slots.
-/
import BuildConfig.Evaluation.Slot
import Mathlib.Data.List.Induction

namespace BuildConfig.Slot

variable {ε α : Type}

/-- What can be done with a slot. -/
inductive Use (ε α : Type)
  | setValue (value : α)
  | setError (error : ε)
  | take

/-- What the takes return, one after the other, and the slot that is left. -/
def run (slot : Slot ε α) : List (Use ε α) → List (Option (Except ε α)) × Slot ε α
  | [] => ([], slot)
  | .setValue value :: uses => run (slot.setValue value) uses
  | .setError error :: uses => run (slot.setError error) uses
  | .take :: uses =>
    match slot.take with
    | (outcome, emptied) => (outcome :: (run emptied uses).1, (run emptied uses).2)

/-! ### Rounds -/

/-- Writing an outcome. -/
def Use.write : Except ε α → Use ε α
  | .ok value => .setValue value
  | .error error => .setError error

/-- What is written in each round before it ends in a take, and what is written after the last. -/
def history (rounds : List (List (Except ε α))) (last : List (Except ε α)) : List (Use ε α) :=
  rounds.flatMap (fun written => written.map .write ++ [.take]) ++ last.map .write

theorem exists_eq_history (uses : List (Use ε α)) : ∃ rounds last, uses = history rounds last := by
  induction uses with
  | nil => exact ⟨[], [], rfl⟩
  | cons use rest ih =>
      obtain ⟨rounds, last, rfl⟩ := ih
      have hwrite : ∀ outcome : Except ε α, ∃ others more,
          .write outcome :: history rounds last = history others more := by
        intro outcome
        cases rounds with
        | nil => exact ⟨[], outcome :: last, rfl⟩
        | cons written rounds => exact ⟨(outcome :: written) :: rounds, last, rfl⟩
      cases use with
      | setValue value => exact hwrite (.ok value)
      | setError error => exact hwrite (.error error)
      | take => exact ⟨[] :: rounds, last, rfl⟩

/-! ### One round -/

/-- The first error among the outcomes, or else the first value. -/
def first (written : List (Except ε α)) : Option (Except ε α) :=
  (written.find? (!·.isOk)).or (written.find? (·.isOk))

theorem first_eq_none_iff {written : List (Except ε α)} : first written = none ↔ written = [] := by
  rw [first, Option.or_eq_none_iff, List.find?_eq_none, List.find?_eq_none,
    List.eq_nil_iff_forall_not_mem]
  constructor
  · intro h outcome hmem
    have herror := h.1 outcome hmem
    exact h.2 outcome hmem (by simpa using herror)
  · intro h
    exact ⟨fun outcome hmem => absurd hmem (h outcome), fun outcome hmem => absurd hmem (h outcome)⟩

/-- **A write keeps the first error, or else the first value.** -/
private theorem outcome_accept {slot : Slot ε α} {written : List (Except ε α)}
    (h : slot.outcome = first written) (outcome : Except ε α) :
    (Sink.accept slot outcome).outcome = first (written ++ [outcome]) := by
  obtain ⟨held⟩ := slot
  unfold first at h ⊢
  rw [List.find?_append, List.find?_append]
  cases herror : written.find? (!·.isOk) with
  | some found =>
      have hfound := List.find?_some herror
      rw [herror] at h
      cases found with
      | ok value => simp [Except.isOk, Except.toBool] at hfound
      | error error =>
          obtain rfl : held = some (.error error) := h
          cases outcome <;> rfl
  | none =>
      rw [herror] at h
      obtain rfl : held = written.find? (·.isOk) := h
      cases outcome with
      | error error =>
          cases hvalue : written.find? (·.isOk) with
          | none => rfl
          | some found =>
              have hfound := List.find?_some hvalue
              cases found with
              | ok value => rfl
              | error error => simp [Except.isOk, Except.toBool] at hfound
      | ok value => cases written.find? (·.isOk) <;> rfl

private theorem outcome_foldl_accept (written : List (Except ε α)) :
    (written.foldl Sink.accept (empty : Slot ε α)).outcome = first written := by
  induction written using List.reverseRecOn with
  | nil => rfl
  | append_singleton written outcome ih =>
      rw [List.foldl_append]
      exact outcome_accept ih outcome

/-! ### Histories -/

theorem run_writes (slot : Slot ε α) (written : List (Except ε α)) (uses : List (Use ε α)) :
    run slot (written.map .write ++ uses) = run (written.foldl Sink.accept slot) uses := by
  induction written generalizing slot with
  | nil => rfl
  | cons outcome rest ih =>
      cases outcome with
      | ok value => exact ih (slot.setValue value)
      | error error => exact ih (slot.setError error)

theorem run_history (rounds : List (List (Except ε α))) (last : List (Except ε α)) :
    run empty (history rounds last) = (rounds.map first, last.foldl Sink.accept empty) := by
  induction rounds with
  | nil =>
      have hlast := run_writes (empty : Slot ε α) last []
      rw [List.append_nil] at hlast
      exact hlast
  | cons written rounds ih =>
      have hround : history (written :: rounds) last =
          written.map .write ++ .take :: history rounds last := by
        simp [history]
      rw [hround, run_writes, run]
      show (_ :: (run empty (history rounds last)).1, (run empty (history rounds last)).2) = _
      rw [ih, List.map_cons, outcome_foldl_accept]

/--
**A take returns the first error of its round, or else the first value.**  After any history
the slot is set when something has been written since the last take.
-/
theorem takes_first (uses : List (Use ε α)) :
    ∃ rounds last, uses = history rounds last ∧ (run empty uses).1 = rounds.map first ∧
      ((run empty uses).2.isSet = true ↔ last ≠ []) := by
  obtain ⟨rounds, last, rfl⟩ := exists_eq_history uses
  refine ⟨rounds, last, rfl, ?_, ?_⟩
  · rw [run_history]
  · rw [run_history, isSet, outcome_foldl_accept, Option.isSome_iff_ne_none, ne_eq,
      first_eq_none_iff]

/-- What is returned once does not come back, and a value after an error is dropped. -/
example :
    run empty (history [[.ok 1, .error "broken", .ok 2], []] [.ok 3, .ok 4]) =
      ([some (.error "broken"), none], ⟨some (.ok 3)⟩) :=
  rfl

end BuildConfig.Slot
