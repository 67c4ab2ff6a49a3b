/-
What a step that does not complete leaves of an evaluation.

A step is suspended because something is missing, and then nothing has happened.  A step that
is interrupted has done nothing either, unless the evaluation holds a batch: a step is a run of
that batch then, and the flag can be raised in the middle of it.  What the batch has reached
until then it keeps.  The invariant is `HoldsLeft`, that the batch is one of those that a run
can leave; nothing else is ever held, so all there is to say about the next step is in
`Held.stops`.
-/
import BuildConfig.Proofs.Baseline.HeldBatch

namespace BuildConfig.Baseline

theorem Stage.batchFor_unique {phase other : Phase} {stage : Stage} {batch held : SingleBatch}
    (h : stage.batchFor phase = some batch) (hother : stage.batchFor other = some held) :
    held = batch := by
  cases stage <;> cases phase <;> cases h <;> cases other <;> cases hother <;> rfl

/-- The batch and its piece of work say which stage it is. -/
private theorem Stage.eq_of_batchFor {phase : Phase} {stage other : Stage} {batch : SingleBatch}
    (h : stage.batchFor phase = some batch) (hother : other.batchFor phase = some batch) :
    other = stage := by
  cases phase <;> cases stage <;> cases h <;> cases other <;> cases hother <;> rfl

namespace Evaluation

variable {ς σ : Type} [Environment σ] {evaluation : Evaluation ς}

/-! ### The batch that is held -/

theorem holdsLeft_begin (request : Request) (settings : Settings) (sink : ς) :
    HoldsLeft (begin request settings sink) := by
  intro phase batch hbatch
  cases phase <;> cases hbatch

theorem holdsLeft_of_follows {request : Request} {settings : Settings} {stage : Stage}
    {phase : Phase} (h : Follows request settings stage phase evaluation.stage) :
    HoldsLeft evaluation := by
  intro other batch hbatch
  obtain ⟨bundle, rfl⟩ := h.batchFor hbatch
  exact ⟨bundle, .fetching⟩

private theorem holdsLeft_of_finished (h : evaluation.stage = .finished) :
    HoldsLeft evaluation := by
  intro phase batch hbatch
  rw [h] at hbatch
  cases phase <;> cases hbatch

private theorem holdsLeft_of_stops {phase : Phase} {bundle : Bundle} {batch after : SingleBatch}
    {fetched : Mapping.Batch.Fetched} {ending : RunEnd} (hheld : Held bundle batch)
    (hstops : Stops fetched batch ending after) (hending : ending ≠ .done)
    (hafter : evaluation.stage.batchFor phase = some after) : HoldsLeft evaluation := by
  intro other found hfound
  obtain rfl := Stage.batchFor_unique hafter hfound
  cases hstops with
  | suspended _ _ => exact ⟨bundle, hheld⟩
  | interrupted hforward => exact ⟨bundle, hforward.held hheld⟩
  | done _ => exact absurd rfl hending

variable [Sink ς Outcome]

/-- **Every step keeps this of the batch that is held.** -/
theorem HoldsLeft.step (h : HoldsLeft evaluation) (world : σ) :
    HoldsLeft (evaluation.step world).machine := by
  obtain ⟨phase, batch, bundle, hbatch, hheld⟩ | hnone := h.exists_held_or
  · have hstops := hheld.stops world
    have hran := ranBatch_step hbatch world
    generalize evaluation.step world = stepped at hran
    cases hran with
    | stopped hending hstage => exact holdsLeft_of_stops hheld hstops hending hstage
    | mapped _ _ hfollows => exact holdsLeft_of_follows hfollows
    | failed _ _ => exact holdsLeft_of_finished rfl
  · have hkept := eq_of_stopped hnone world
    have htook := took_step evaluation world
    generalize evaluation.step world = stepped at hkept htook
    obtain ⟨ending, after, later⟩ := stepped
    cases htook with
    | moved hfollows => exact holdsLeft_of_follows hfollows
    | delivered _ _ => exact holdsLeft_of_finished rfl
    | suspended _ => exact (hkept rfl).symm ▸ h
    | interrupted _ => exact (hkept rfl).symm ▸ h
    | ended hfinished => exact holdsLeft_of_finished hfinished

theorem holdsLeft_along (request : Request) (settings : Settings) (sink : ς)
    (worlds : List World) : HoldsLeft (Machine.along (begin request settings sink) worlds) := by
  refine Machine.along_rule HoldsLeft ?_ worlds (holdsLeft_begin request settings sink)
  intro attempt h
  exact h.step attempt.world.state

/-! ### Steps that do not complete -/

/--
A step that is suspended leaves all as it was.  One that is interrupted does so too, or it
leaves all but the batch, which is held for the same piece of work and has gone forward.
-/
def Leaves (evaluation : Evaluation ς) (world : σ) (stepped : Stepped (Evaluation ς) σ) : Prop :=
  (stepped.ending = .suspended → stepped.machine = evaluation) ∧
  (stepped.ending = .interrupted → stepped.machine = evaluation ∨
    ∃ phase batch after stage, evaluation.stage.batchFor phase = some batch ∧
      stage.batchFor phase = some after ∧ Forward (fetchedIn batch world) batch after ∧
      stepped.machine = { evaluation with stage := stage })

private theorem leaves_of_batch {phase : Phase} {bundle : Bundle} {batch : SingleBatch}
    (hheld : Held bundle batch) (hbatch : evaluation.stage.batchFor phase = some batch)
    (world : σ) : Leaves evaluation world (evaluation.step world) := by
  have hstops := hheld.stops world
  have hran := ranBatch_step hbatch world
  generalize evaluation.step world = stepped at hran ⊢
  generalize Machine.run batch world = ran at hstops hran
  obtain ⟨ending, after, later⟩ := ran
  cases hran with
  | mapped _ _ _ => exact ⟨by simp, by simp⟩
  | failed _ _ => exact ⟨by simp, by simp⟩
  | @stopped stage hending hstage =>
      cases hstops with
      | done _ => exact absurd rfl hending
      | suspended _ _ =>
          obtain rfl := Stage.eq_of_batchFor hbatch hstage
          exact ⟨fun _ => rfl, by simp [RunEnd.toStep]⟩
      | interrupted hforward =>
          refine ⟨by simp [RunEnd.toStep], fun _ => .inr ?_⟩
          exact ⟨phase, batch, after, stage, hbatch, hstage, hforward, rfl⟩

theorem HoldsLeft.leaves (h : HoldsLeft evaluation) (world : σ) :
    Leaves evaluation world (evaluation.step world) := by
  obtain ⟨phase, batch, bundle, hbatch, hheld⟩ | hnone := h.exists_held_or
  · exact leaves_of_batch hheld hbatch world
  · have hkept := eq_of_stopped hnone world
    constructor
    · intro hending
      exact hkept (by rw [hending]; rfl)
    · intro hending
      exact .inl (hkept (by rw [hending]; rfl))

/--
**A step that does not complete leaves the evaluation to be resumed.**  In any evaluation that
can be reached, a step that is suspended leaves all of it as it was, the batch that it holds
included.  A step that is interrupted leaves all but the batch, which is held for the same
piece of work as before and has gone forward at most: the rules are there that the step was
told, or the outcome is in the slot, that of the bundle with these rules or the error that it
was told instead of rules.
-/
theorem stopped_step_leaves (request : Request) (settings : Settings) (sink : ς)
    (worlds : List World) (world : World) :
    let evaluation := Machine.along (begin request settings sink) worlds
    Leaves evaluation world.state (Machine.step evaluation world.state) :=
  (holdsLeft_along request settings sink worlds).leaves world.state

end Evaluation

end BuildConfig.Baseline
