/-
The guards of an evaluation never fail.

A piece of work looks for what it needs in the stage, so it could be begun in a stage that
does not have it; and a batch could be done without an outcome, which would count as an
error of its own.  `step?` is the step with these guards, and has no result when one of them
fails.

They do not fail, in whatever way an evaluation is worked forward, because a step begins the
piece of work of its stage, and a batch that is done has come past its delivery.  `Guarded`
says this of the steps that were taken: all of them passed the guards, the outcome of each
mapping was taken from the slot in one of them, the one that finished the mapping, and the
error of a missing configuration is not what was delivered.
-/
import BuildConfig.Proofs.Baseline.Stopping
import BuildConfig.Proofs.Bundle.Errors

namespace BuildConfig.Baseline

/-- The pieces of work that run a batch. -/
def Phase.Maps (phase : Phase) : Prop :=
  phase = .map ∨ phase = .remap

theorem Stage.phase?_of_batchFor {phase : Phase} {stage : Stage} {batch : SingleBatch}
    (h : stage.batchFor phase = some batch) : stage.phase? = some phase := by
  cases stage <;> cases phase <;> cases h <;> rfl

private theorem Stage.exists_batchFor {phase : Phase} {stage : Stage}
    (h : stage.phase? = some phase) (hmaps : phase.Maps) :
    ∃ batch, stage.batchFor phase = some batch := by
  obtain rfl | rfl := hmaps <;> cases stage <;> cases h <;> exact ⟨_, rfl⟩

private theorem Leads.not_mem {request : Request} {settings : Settings} {history : List Phase}
    {phase : Phase} (h : Leads request settings history phase) : phase ∉ history := by
  cases h <;> decide

theorem Stops.exists_outcome {fetched : Mapping.Batch.Fetched} {batch after : SingleBatch}
    (h : Stops fetched batch .done after) :
    ∃ outcome, after.sink.slot.outcome = some outcome ∧
      Forward fetched batch (settled batch outcome) := by
  cases h with
  | done hforward => exact ⟨_, rfl, hforward⟩

theorem Held.yields {bundle : Bundle} {batch : SingleBatch}
    {outcome : Except Mapping.Fault Configuration} (h : Held bundle batch)
    (houtcome : batch.sink.slot.outcome = some outcome) : Yields bundle outcome := by
  cases h with
  | fetching => cases houtcome
  | applying table => cases houtcome
  | settled hyields =>
      cases houtcome
      exact hyields

/-- Errors of options in what a batch comes to are errors of its bundle. -/
private theorem Yields.ofBundle {bundle : Bundle} {e : OptionsError}
    (h : Yields bundle (.error (.options e))) : e.OfBundle := by
  generalize houtcome : (Except.error (.options e) : Except Mapping.Fault Configuration) = outcome
    at h
  cases h with
  | refused cause => cases houtcome
  | mapped table =>
      unfold mappedWith at houtcome
      split at houtcome
      · cases houtcome
      · rename_i hone
        cases houtcome
        exact Mapping.Batch.ofBundle_of_mapOne hone

namespace Evaluation

variable {ς σ : Type}

/-! ### Outcomes that are taken -/

/-- What a step takes from the slot of the batch for a piece of work, if it does. -/
def takenFor (phase : Phase) (attempt : Attempt (Evaluation ς)) :
    Option (Option (Except Mapping.Fault Configuration)) :=
  match attempt.machine.stage.batchFor phase with
  | none => none
  | some batch =>
    let ran := Machine.run batch attempt.world.state
    if ran.ending = .done then some ran.machine.sink.slot.take.1 else none

private theorem takenFor_of_ne {phase done : Phase} {attempt : Attempt (Evaluation ς)}
    (hdone : attempt.machine.stage.phase? = some done) (hphase : phase ≠ done) :
    takenFor phase attempt = none := by
  unfold takenFor
  cases hbatch : attempt.machine.stage.batchFor phase with
  | none => rfl
  | some batch =>
      rw [Stage.phase?_of_batchFor hbatch] at hdone
      exact absurd (Option.some.inj hdone) hphase

/-! ### Evaluations that can be reached -/

/-- An evaluation of the request that has not delivered yet, or has nothing left to do. -/
structure Stands (request : Request) (settings : Settings) (sink : ς)
    (evaluation : Evaluation ς) : Prop where
  holds : HoldsLeft evaluation
  stands : Underway request settings sink evaluation ∨ evaluation.stage = .finished

theorem stands_begin (request : Request) (settings : Settings) (sink : ς) :
    Stands request settings sink (begin request settings sink) :=
  ⟨holdsLeft_begin request settings sink, .inl (underway_begin request settings sink)⟩

variable [Sink ς Outcome]

/-! ### Steps with guards -/

/-- What comes of the run of a batch; nothing if it is done and its slot is empty. -/
def settle? (evaluation : Evaluation ς) (phase : Phase) (hold : SingleBatch → Stage)
    (next : Configuration → Stage) (ran : Ran SingleBatch σ) : Option (Stepped (Evaluation ς) σ) :=
  match ran.ending with
  | .suspended => some ⟨.suspended, { evaluation with stage := hold ran.machine }, ran.world⟩
  | .interrupted => some ⟨.interrupted, { evaluation with stage := hold ran.machine }, ran.world⟩
  | .done =>
    match ran.machine.sink.slot.take.1 with
    | none => none
    | some (.ok configuration) =>
      some ⟨.next, evaluation.advance phase (next configuration), ran.world⟩
    | some (.error fault) => some ⟨.done, evaluation.fail phase (ofFault fault), ran.world⟩

variable [Environment σ]

/-- Runs the batch of the stage, whichever it is, if the stage has one. -/
def stepBatch? (evaluation : Evaluation ς) (phase : Phase) (next : Configuration → Stage)
    (world : σ) : Option (Stepped (Evaluation ς) σ) :=
  match evaluation.stage with
  | .mapping batch => evaluation.settle? phase .mapping next (Machine.run batch world)
  | .remapping batch => evaluation.settle? phase .remapping next (Machine.run batch world)
  | _ => none

/-- Loads the custom transition if that is what the stage is for. -/
def stepLoad? (evaluation : Evaluation ς) (world : σ) : Option (Stepped (Evaluation ς) σ) :=
  match evaluation.stage with
  | .loading mapped => some (evaluation.stepLoad mapped world)
  | _ => none

/-- Moves the configuration if the stage has one to be moved. -/
def stepMove? (evaluation : Evaluation ς) (world : σ) : Option (Stepped (Evaluation ς) σ) :=
  match evaluation.stage with
  | .moving mapped custom => some (evaluation.stepMove mapped custom world)
  | _ => none

/-- Delivers the configuration if the stage has one to be delivered. -/
def stepPublish? (evaluation : Evaluation ς) (world : σ) : Option (Stepped (Evaluation ς) σ) :=
  match evaluation.stage with
  | .publishing result => some (evaluation.stepPublish result world)
  | _ => none

/-- One step, with a guard before each piece of work and before each outcome. -/
def step? (evaluation : Evaluation ς) (world : σ) : Option (Stepped (Evaluation ς) σ) :=
  match evaluation.stage with
  | .starting => some (evaluation.stepStart world)
  | .mapping _ => evaluation.stepBatch? .map .loading world
  | .loading _ => evaluation.stepLoad? world
  | .moving _ _ => evaluation.stepMove? world
  | .remapping _ => evaluation.stepBatch? .remap .publishing world
  | .publishing _ => evaluation.stepPublish? world
  | .finished => some ⟨.done, evaluation, world⟩

variable {evaluation : Evaluation ς}

/-- The guard of the outcome passes whatever a run has made of the batch. -/
private theorem settle?_run {bundle : Bundle} {batch : SingleBatch} (hheld : Held bundle batch)
    (phase : Phase) (hold : SingleBatch → Stage) (next : Configuration → Stage) (world : σ) :
    evaluation.settle? phase hold next (Machine.run batch world) =
      some (evaluation.stepBatch phase hold next batch world) := by
  have hstops := hheld.stops world
  unfold settle? stepBatch Collector.outcome
  generalize Machine.run batch world = ran at hstops ⊢
  obtain ⟨ending, after, later⟩ := ran
  cases ending with
  | suspended => rfl
  | interrupted => rfl
  | done =>
      obtain ⟨outcome, houtcome, -⟩ := hstops.exists_outcome
      replace houtcome : after.sink.slot.outcome = some outcome := houtcome
      simp only [Slot.take, houtcome, Option.getD_some]
      cases outcome <;> rfl

/-- **All guards of a step pass** as long as the batch that is held is one that can be left. -/
theorem HoldsLeft.step?_eq (h : HoldsLeft evaluation) (world : σ) :
    evaluation.step? world = some (evaluation.step world) := by
  unfold step? Evaluation.step
  cases hstage : evaluation.stage with
  | starting => rfl
  | mapping batch =>
      obtain ⟨bundle, hheld⟩ := h .map batch (by rw [hstage]; rfl)
      simp only [stepBatch?, hstage]
      exact settle?_run hheld _ _ _ world
  | loading mapped => simp only [stepLoad?, hstage]
  | moving mapped custom => simp only [stepMove?, hstage]
  | remapping batch =>
      obtain ⟨bundle, hheld⟩ := h .remap batch (by rw [hstage]; rfl)
      simp only [stepBatch?, hstage]
      exact settle?_run hheld _ _ _ world
  | publishing result => simp only [stepPublish?, hstage]
  | finished => rfl

/-! ### Pieces of work that are finished -/

/-- What a step finishes, and that it takes an outcome when this is a mapping. -/
inductive Finishes (attempt : Attempt (Evaluation ς)) : Prop
  | nothing (hhistory : attempt.came.machine.history = attempt.machine.history)
      (htaken : ∀ phase, takenFor phase attempt = none)
  | one {done : Phase} (hdone : attempt.machine.stage.phase? = some done)
      (hhistory : attempt.came.machine.history = attempt.machine.history ++ [done])
      (htaken : done.Maps → ∃ outcome, takenFor done attempt = some (some outcome))
      (hothers : ∀ phase, phase ≠ done → takenFor phase attempt = none)

private theorem finishes_of_batch {phase : Phase} {bundle : Bundle} {batch : SingleBatch}
    {attempt : Attempt (Evaluation ς)} (hheld : Held bundle batch)
    (hbatch : attempt.machine.stage.batchFor phase = some batch) : Finishes attempt := by
  have hphase := Stage.phase?_of_batchFor hbatch
  have hstops := hheld.stops attempt.world.state
  have hran := ranBatch_step hbatch attempt.world.state
  have htaken : takenFor phase attempt =
      if (Machine.run batch attempt.world.state).ending = .done then
        some (Machine.run batch attempt.world.state).machine.sink.slot.outcome else none := by
    unfold takenFor
    rw [hbatch]
    rfl
  have hfinished : (Machine.run batch attempt.world.state).ending = .done →
      ∃ outcome, takenFor phase attempt = some (some outcome) := by
    intro hending
    rw [hending] at hstops
    obtain ⟨outcome, houtcome, -⟩ := hstops.exists_outcome
    exact ⟨outcome, by rw [htaken, if_pos hending, houtcome]⟩
  have hcame : attempt.machine.step attempt.world.state = attempt.came := rfl
  generalize attempt.machine.step attempt.world.state = stepped at hran hcame
  cases hran with
  | stopped hending hstage =>
      refine .nothing (by rw [← hcame]) ?_
      intro other
      by_cases hother : other = phase
      · rw [hother, htaken, if_neg hending]
      · exact takenFor_of_ne hphase hother
  | mapped hending _ _ =>
      exact .one hphase (by rw [← hcame]; rfl) (fun _ => hfinished hending)
        fun other hother => takenFor_of_ne hphase hother
  | failed hending _ =>
      exact .one hphase (by rw [← hcame]; rfl) (fun _ => hfinished hending)
        fun other hother => takenFor_of_ne hphase hother

theorem Follows.phase?_eq {request : Request} {settings : Settings} {stage next : Stage}
    {done : Phase} (h : Follows request settings stage done next) : stage.phase? = some done := by
  cases h <;> rfl

private theorem finishes_of_none {attempt : Attempt (Evaluation ς)}
    (hnone : ∀ phase, attempt.machine.stage.batchFor phase = none) : Finishes attempt := by
  have htaken : ∀ phase, takenFor phase attempt = none := by
    intro phase
    unfold takenFor
    rw [hnone]
  -- No mapping is at hand, so what is finished is something else.
  have hother : ∀ {done : Phase}, attempt.machine.stage.phase? = some done → done.Maps →
      ∃ outcome, takenFor done attempt = some (some outcome) := by
    intro done hdone hmaps
    obtain ⟨batch, hbatch⟩ := Stage.exists_batchFor hdone hmaps
    rw [hnone] at hbatch
    cases hbatch
  have htook := took_step attempt.machine attempt.world.state
  have hcame : attempt.machine.step attempt.world.state = attempt.came := rfl
  generalize attempt.machine.step attempt.world.state = stepped at htook hcame
  obtain ⟨ending, after, later⟩ := stepped
  cases htook with
  | moved hfollows =>
      exact .one hfollows.phase?_eq (by rw [← hcame]) (hother hfollows.phase?_eq)
        fun phase _ => htaken phase
  | delivered hphase _ =>
      exact .one hphase (by rw [← hcame]; rfl) (hother hphase) fun phase _ => htaken phase
  | suspended _ => exact .nothing (by rw [← hcame]) htaken
  | interrupted _ => exact .nothing (by rw [← hcame]) htaken
  | ended _ => exact .nothing (by rw [← hcame]) htaken

/-- **A step takes an outcome exactly when it finishes a mapping.** -/
theorem HoldsLeft.finishes {attempt : Attempt (Evaluation ς)} (h : HoldsLeft attempt.machine) :
    Finishes attempt := by
  obtain ⟨phase, batch, bundle, hbatch, hheld⟩ | hnone := h.exists_held_or
  · exact finishes_of_batch hheld hbatch
  · exact finishes_of_none hnone

/-! ### Errors that are delivered -/

/-- An outcome that is not the error of a batch without a configuration of some name. -/
def Proper (outcome : Outcome) : Prop :=
  ∀ e name, outcome = .error (.options e) → e.message ≠ (OptionsError.unmapped name).message

private theorem proper_ok (configuration : Configuration) : Proper (.ok configuration) := by
  intro e name h
  cases h

private theorem proper_load (cause : LoadError) : Proper (.error (.load cause)) := by
  intro e name h
  cases h

private theorem proper_options {cause : OptionsError} (h : cause.OfBundle) :
    Proper (.error (.options cause)) := by
  intro e name he
  cases he
  exact h.message_ne name

private theorem proper_of_yields {bundle : Bundle} {fault : Mapping.Fault}
    (h : Yields bundle (.error fault)) : Proper (.error (ofFault fault)) := by
  cases fault with
  | options cause => exact proper_options h.ofBundle
  | mapping cause =>
      intro e name he
      cases he

/-- What a step delivers, if it delivers at all. -/
def Delivers (evaluation after : Evaluation ς) : Prop :=
  after.sink = evaluation.sink ∨
    ∃ outcome, Proper outcome ∧ after.sink = Sink.accept evaluation.sink outcome

private theorem delivers_of_batch {phase : Phase} {bundle : Bundle} {batch : SingleBatch}
    (hheld : Held bundle batch) (hbatch : evaluation.stage.batchFor phase = some batch)
    (world : σ) : Delivers evaluation (evaluation.step world).machine := by
  have hstops := hheld.stops world
  have hran := ranBatch_step hbatch world
  generalize evaluation.step world = stepped at hran ⊢
  generalize Machine.run batch world = ran at hstops hran
  obtain ⟨ending, after, later⟩ := ran
  cases hran with
  | stopped _ _ => exact .inl rfl
  | mapped _ _ _ => exact .inl rfl
  | @failed fault hending houtcome =>
      obtain rfl : ending = .done := hending
      obtain ⟨outcome, hslot, hforward⟩ := hstops.exists_outcome
      replace hslot : after.sink.slot.outcome = some outcome := hslot
      have hfault : outcome = .error fault := by
        simpa [Collector.outcome, Slot.take, hslot] using houtcome
      have hyields : Yields bundle outcome := (hforward.held hheld).yields rfl
      rw [hfault] at hyields
      exact .inr ⟨_, proper_of_yields hyields, rfl⟩

private theorem delivers_of_none (hnone : ∀ phase, evaluation.stage.batchFor phase = none)
    (world : σ) : Delivers evaluation (evaluation.step world).machine := by
  unfold step
  cases hstage : evaluation.stage with
  | starting =>
      dsimp only
      unfold stepStart
      split
      · exact .inl rfl
      · split
        · exact .inl rfl
        · exact .inl rfl
        · rename_i e _ _
          exact nomatch e
        · exact .inl rfl
  | mapping batch => exact absurd (hnone .map) (by simp [hstage, Stage.batchFor])
  | loading mapped =>
      dsimp only
      unfold stepLoad
      split
      · exact .inl rfl
      · exact .inl rfl
      · exact .inr ⟨_, proper_load _, rfl⟩
      · exact .inl rfl
  | moving mapped custom =>
      dsimp only
      unfold stepMove
      split
      · exact .inl rfl
      · rename_i e hmove
        exact .inr ⟨_, proper_options (ofBundle_of_move hmove), rfl⟩
  | remapping batch => exact absurd (hnone .remap) (by simp [hstage, Stage.batchFor])
  | publishing result => exact .inr ⟨_, proper_ok result, rfl⟩
  | finished => exact .inl rfl

theorem HoldsLeft.delivers (h : HoldsLeft evaluation) (world : σ) :
    Delivers evaluation (evaluation.step world).machine := by
  obtain ⟨phase, batch, bundle, hbatch, hheld⟩ | hnone := h.exists_held_or
  · exact delivers_of_batch hheld hbatch world
  · exact delivers_of_none hnone world

/-! ### All steps -/

theorem Stands.step {request : Request} {settings : Settings} {sink : ς}
    (h : Stands request settings sink evaluation) (world : σ) :
    Stands request settings sink (evaluation.step world).machine := by
  refine ⟨h.holds.step world, ?_⟩
  obtain hunderway | hfinished := h.stands
  · have hmeets := hunderway.step world
    replace hmeets : (evaluation.step world).Meets _ _ := hmeets
    unfold Stepped.Meets at hmeets
    split at hmeets
    · exact .inl hmeets
    · exact .inl hmeets
    · exact .inr hmeets.stage_eq
    · exact .inl hmeets
  · rw [show evaluation.step world = _ from step_of_finished hfinished world]
    exact .inr hfinished

/-- What the guards promise of the steps of an evaluation, and of what it has delivered. -/
structure Guarded (sink : ς) (taken : List (Attempt (Evaluation ς))) (evaluation : Evaluation ς) :
    Prop where
  /-- Every step has passed its guards. -/
  passed : ∀ attempt ∈ taken, attempt.machine.step? attempt.world.state = some attempt.came
  /-- An outcome was taken once for each mapping that is finished, and none for any other. -/
  taken_once : ∀ phase, phase.Maps →
    (phase ∉ evaluation.history ∧ taken.filterMap (takenFor phase) = []) ∨
    (phase ∈ evaluation.history ∧
      ∃ outcome, taken.filterMap (takenFor phase) = [some outcome])
  /-- If there was a delivery, it was not the error of a missing configuration. -/
  delivered : evaluation.sink = sink ∨
    ∃ outcome, Proper outcome ∧ evaluation.sink = Sink.accept sink outcome

variable {request : Request} {settings : Settings} {sink : ς}
  {taken : List (Attempt (Evaluation ς))} {attempt : Attempt (Evaluation ς)}

theorem guarded_begin (request : Request) (settings : Settings) (sink : ς) :
    Guarded sink [] (begin request settings sink) :=
  ⟨by simp, fun _ _ => .inl ⟨List.not_mem_nil, rfl⟩, .inl rfl⟩

theorem Guarded.taken_once_step (h : Guarded sink taken attempt.machine)
    (hstands : Stands request settings sink attempt.machine) {phase : Phase} (hmaps : phase.Maps) :
    (phase ∉ attempt.came.machine.history ∧
      (taken ++ [attempt]).filterMap (takenFor phase) = []) ∨
    (phase ∈ attempt.came.machine.history ∧
      ∃ outcome, (taken ++ [attempt]).filterMap (takenFor phase) = [some outcome]) := by
  have hbefore := h.taken_once phase hmaps
  rw [List.filterMap_append]
  cases hstands.holds.finishes with
  | nothing hhistory htaken =>
      rw [hhistory]
      simpa [htaken phase] using hbefore
  | @one done hdone hhistory htaken hothers =>
      rw [hhistory]
      by_cases hphase : phase = done
      · subst hphase
        -- What is at hand is not finished yet, so nothing was taken for it before.
        have hnot : phase ∉ attempt.machine.history := by
          obtain hunderway | hfinished := hstands.stands
          · obtain ⟨other, hother, hleads⟩ := hunderway.leads
            rw [hdone] at hother
            cases hother
            exact hleads.not_mem
          · rw [hfinished] at hdone
            cases hdone
        obtain ⟨-, hnone⟩ | ⟨hmem, -⟩ := hbefore
        · obtain ⟨outcome, houtcome⟩ := htaken hmaps
          exact .inr ⟨by simp, outcome, by simp [hnone, houtcome]⟩
        · exact absurd hmem hnot
      · simpa [hothers phase hphase, hphase] using hbefore

theorem Guarded.delivered_step (h : Guarded sink taken attempt.machine)
    (hstands : Stands request settings sink attempt.machine) :
    attempt.came.machine.sink = sink ∨
      ∃ outcome, Proper outcome ∧ attempt.came.machine.sink = Sink.accept sink outcome := by
  obtain hunderway | hfinished := hstands.stands
  · have hdelivers := hstands.holds.delivers attempt.world.state
    unfold Delivers at hdelivers
    rw [hunderway.sink_eq] at hdelivers
    exact hdelivers
  · have hcame : attempt.came = ⟨.done, attempt.machine, attempt.world.state⟩ :=
      step_of_finished hfinished attempt.world.state
    rw [hcame]
    exact h.delivered

/-- **What the guards promise, every step keeps.** -/
theorem Guarded.step (h : Guarded sink taken attempt.machine)
    (hstands : Stands request settings sink attempt.machine) :
    Guarded sink (taken ++ [attempt]) attempt.came.machine := by
  refine ⟨?_, fun phase hmaps => h.taken_once_step hstands hmaps, h.delivered_step hstands⟩
  rw [List.forall_mem_append, List.forall_mem_singleton]
  exact ⟨h.passed, hstands.holds.step?_eq attempt.world.state⟩

/-- **The guards of an evaluation never fail**, whatever chain of steps it takes. -/
theorem guarded_of_chain (h : Machine.Chain (begin request settings sink) taken evaluation) :
    Guarded sink taken evaluation := by
  have hbegin : Stands request settings sink (begin request settings sink) ∧
      Guarded sink [] (begin request settings sink) :=
    ⟨stands_begin request settings sink, guarded_begin request settings sink⟩
  refine (h.rule (fun taken evaluation => Stands request settings sink evaluation ∧
    Guarded sink taken evaluation) ?_ hbegin).2
  rintro taken attempt ⟨hstands, hguarded⟩
  exact ⟨hstands.step attempt.world.state, hguarded.step hstands⟩

end Evaluation

end BuildConfig.Baseline
