/-
Every run of an evaluation ends after six steps at most.

A step that goes on makes the number of stages ahead smaller, and it never leads to the last
stage, because only a delivery does.  So no two steps of a run begin in the same stage, and
each of the two mappings that an evaluation holds is run once at most.  A mapping is a batch,
which takes three steps at most, whatever it is answered and whenever the flag is raised.

`every_run_ends` is this, together with the same for batches that go on with a machine of any
kind as long as the runs of that machine end.
-/
import BuildConfig.Proofs.Baseline.Delivery
import BuildConfig.Proofs.Mapping.Termination

namespace BuildConfig

/-- When no two elements have parts, there are no more parts than one element has. -/
private theorem length_flatMap_le {α β : Type*} {parts : α → List β} {bound : Nat} {l : List α}
    (hone : l.Pairwise fun a b => parts a ≠ [] → parts b = [])
    (hbound : ∀ a ∈ l, (parts a).length ≤ bound) : (l.flatMap parts).length ≤ bound := by
  induction l with
  | nil => exact Nat.zero_le _
  | cons a rest ih =>
      obtain ⟨hfirst, hrest⟩ := List.pairwise_cons.mp hone
      obtain ⟨hlength, hlengths⟩ := List.forall_mem_cons.mp hbound
      rw [List.flatMap_cons]
      by_cases hparts : parts a = []
      · rw [hparts]
        exact ih hrest hlengths
      · have hnone : rest.flatMap parts = [] :=
          List.flatMap_eq_nil_iff.mpr fun b hb => hfirst b hb hparts
        rw [hnone, List.append_nil]
        exact hlength

namespace Baseline

/-- The batch that a stage holds for a piece of work. -/
def Stage.batchFor : Phase → Stage → Option SingleBatch
  | .map, .mapping batch => some batch
  | .remap, .remapping batch => some batch
  | _, _ => none

private theorem Stage.rank_eq_of_batchFor {phase : Phase} {stage other : Stage}
    (h : (stage.batchFor phase).isSome) (hother : (other.batchFor phase).isSome) :
    stage.rank = other.rank := by
  cases phase <;> cases stage <;> cases other <;> simp [batchFor, rank] at h hother ⊢

namespace Evaluation

variable {ς σ : Type}

/-- The steps that the batch for a piece of work takes in a step of the evaluation. -/
def batchSteps (phase : Phase) (attempt : Attempt (Evaluation ς)) : List (Attempt SingleBatch) :=
  match attempt.machine.stage.batchFor phase with
  | some batch => Machine.attempts batch attempt.world.state
  | none => []

private theorem batchSteps_of_batchFor {phase : Phase} {attempt : Attempt (Evaluation ς)}
    {batch : SingleBatch} (h : attempt.machine.stage.batchFor phase = some batch) :
    batchSteps phase attempt = Machine.attempts batch attempt.world.state := by
  rw [batchSteps, h]

private theorem isSome_of_batchSteps {phase : Phase} {attempt : Attempt (Evaluation ς)}
    (h : batchSteps phase attempt ≠ []) : (attempt.machine.stage.batchFor phase).isSome := by
  cases hbatch : attempt.machine.stage.batchFor phase with
  | none => simp [batchSteps, hbatch] at h
  | some batch => rfl

private theorem length_batchSteps_le (phase : Phase) (attempt : Attempt (Evaluation ς)) :
    (batchSteps phase attempt).length ≤ 3 := by
  cases hbatch : attempt.machine.stage.batchFor phase with
  | none => simp [batchSteps, hbatch]
  | some batch =>
      rw [batchSteps_of_batchFor hbatch]
      exact Mapping.Batch.length_le_of_takes
        (Mapping.Batch.takes_iff.mpr (Machine.takes_attempts batch attempt.world.state))

/-! ### Stages that are still ahead -/

theorem Follows.rank_pos {request : Request} {settings : Settings} {stage next : Stage}
    {phase : Phase} (h : Follows request settings stage phase next) : 0 < next.rank := by
  cases h with
  | start bundle =>
      unfold afterStart
      split <;> exact Nat.zero_lt_succ _
  | map batch mapped => exact Nat.zero_lt_succ _
  | load mapped custom => exact Nat.zero_lt_succ _
  | @move mapped custom moved hmoved =>
      cases moved with
      | none => exact Nat.zero_lt_succ _
      | some bundle =>
          rw [afterMove_some]
          split <;> exact Nat.zero_lt_succ _
  | remap batch result => exact Nat.zero_lt_succ _

variable [Sink ς Outcome] [Environment σ]

theorem rank_pos_of_next {evaluation next : Evaluation ς} {world later : σ}
    (h : Machine.step evaluation world = ⟨.next, next, later⟩) : 0 < next.stage.rank := by
  have htook := took_step evaluation world
  rw [show evaluation.step world = _ from h] at htook
  cases htook with
  | moved hfollows => exact hfollows.rank_pos

theorem lowers_rank :
    Machine.Lowers (fun evaluation => evaluation.stage.rank)
      (fun (evaluation : Evaluation ς) (world : σ) stepped =>
        Machine.step evaluation world = stepped) := by
  intro evaluation next world later h
  have hless := rank_step evaluation world
  rw [show evaluation.step world = _ from h] at hless
  exact hless rfl

private theorem lowers_pred_rank :
    Machine.Lowers (fun evaluation => evaluation.stage.rank - 1)
      (fun (evaluation : Evaluation ς) (world : σ) stepped =>
        Machine.step evaluation world = stepped) := by
  intro evaluation next world later h
  have hless := lowers_rank h
  have hpos := rank_pos_of_next h
  dsimp only at hless ⊢
  omega

theorem rank_le (stage : Stage) : stage.rank ≤ 6 := by
  cases stage <;> simp [Stage.rank]

/-! ### Runs -/

variable {evaluation : Evaluation ς} {world : σ} {taken : List (Attempt (Evaluation ς))}
  {ran : Ran (Evaluation ς) σ}

theorem length_le_of_takes (h : Machine.Takes evaluation world taken ran) : taken.length ≤ 6 := by
  have hlength := Machine.Loops.length_le lowers_pred_rank h
  have hrank := rank_le evaluation.stage
  omega

/-- The batch for a piece of work is run in one step at most. -/
private theorem length_flatMap_batchSteps_le (h : Machine.Takes evaluation world taken ran)
    (phase : Phase) : (taken.flatMap (batchSteps phase)).length ≤ 3 := by
  refine length_flatMap_le ?_ fun attempt _ => length_batchSteps_le phase attempt
  refine (Machine.Loops.pairwise_rank lowers_rank h).imp ?_
  intro earlier later hless hsteps
  by_contra hmore
  have hsame := Stage.rank_eq_of_batchFor (isSome_of_batchSteps hsteps) (isSome_of_batchSteps hmore)
  omega

/--
**Every run ends.**  Whatever is answered and whenever the flag is raised, a run of an
evaluation in any state comes to what `run` says after six steps at most, and in all of them
together each of the two batches takes three steps at most, which are a run of that batch.
This is because every step that goes on leaves fewer stages ahead, of the evaluation and of
the batch.  And however often a batch was run before, its runs end after three steps at most
if the machine that it goes on with is one whose runs end.
-/
theorem every_run_ends {κ ν : Type} [Sink κ Mapping.Delivery] {B : Behaviour ν} :
    (∀ (evaluation : Evaluation ς) (world : World), ∃ taken,
      Machine.Takes evaluation world.state taken (Machine.run evaluation world.state) ∧
      taken.length ≤ 6 ∧
      (taken.Pairwise fun earlier later => later.machine.stage.rank < earlier.machine.stage.rank) ∧
      ∀ phase, (taken.flatMap (batchSteps phase)).length ≤ 3 ∧
        ∀ attempt ∈ taken, ∀ batch, attempt.machine.stage.batchFor phase = some batch →
          Machine.Takes batch attempt.world.state (batchSteps phase attempt)
            (Machine.run batch attempt.world.state)) ∧
    (∀ (evaluation : Evaluation ς) (world : World),
      (Machine.step evaluation world.state).ending = .next →
        (Machine.step evaluation world.state).machine.stage.rank < evaluation.stage.rank) ∧
    (∀ (batch next : Mapping.Batch κ ν) (world : World) (later : world.σ),
      (Mapping.Batch.behaviour B).Steps batch world.state ⟨.next, next, later⟩ →
        next.stage.rank < batch.stage.rank) ∧
    ∀ (first batch : Mapping.Batch κ ν) (world : World), B.Returns first.after →
      (Mapping.Batch.behaviour B).Resumed first batch →
        ∃ taken ran, (Mapping.Batch.behaviour B).Takes batch world.state taken ran ∧
          taken.length ≤ 3 := by
  refine ⟨?_, fun evaluation world => rank_step evaluation world.state,
    fun _ _ _ _ hsteps => Mapping.Batch.lowers_rank hsteps, ?_⟩
  · intro evaluation world
    have htakes := Machine.takes_attempts evaluation world.state
    refine ⟨_, htakes, length_le_of_takes htakes,
      Machine.Loops.pairwise_rank lowers_rank htakes, ?_⟩
    intro phase
    refine ⟨length_flatMap_batchSteps_le htakes phase, ?_⟩
    intro attempt _ batch hbatch
    rw [batchSteps_of_batchFor hbatch]
    exact Machine.takes_attempts batch attempt.world.state
  · intro first batch world hreturns hresumed
    have hafter := hreturns.resumed (Mapping.Batch.resumed_after hresumed)
    obtain ⟨taken, ran, hran⟩ := Mapping.Batch.exists_takes hafter world.state
    exact ⟨taken, ran, hran, Mapping.Batch.length_le_of_takes hran⟩

/-- A script that waits for a text. -/
def waiting : Script (Script.Nested 0) :=
  Script.start [.get "late"]

/-- A batch that goes on with a script which waits for a text ends in a store without it. -/
theorem every_run_ends_of_waiting :
    let batch := Mapping.Batch.start .empty ([] : List Mapping.Delivery) waiting
    Machine.behaviour.Returns waiting ∧
      ∃ taken ran,
        (Mapping.Batch.behaviour Machine.behaviour).Takes batch Store.empty taken ran ∧
          taken.length ≤ 3 := by
  intro batch
  have hreturns := Machine.returns_of_ends waiting
  have hends := (every_run_ends (ς := List Outcome) (B := Machine.behaviour)).2.2.2 batch batch
    ⟨Store.empty⟩
  exact ⟨hreturns, hends hreturns .start⟩

end Evaluation

end Baseline

end BuildConfig
