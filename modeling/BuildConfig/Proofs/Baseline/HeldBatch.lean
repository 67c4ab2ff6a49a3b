/-
The batch that an evaluation holds.

A run of the batch can be stopped between any two of its steps, and the evaluation keeps what
is left of it.  There is little that can be left: a batch that has not asked for the rules of
its bundle yet, one that has them, or one that keeps an outcome in the slot of its sink.
`Held` are these, `Forward` says how a run brings the batch from one to a later one, and
`Stops` how the run ends.  It never ends with nothing left to do before there is an outcome.
-/
import BuildConfig.Proofs.Baseline.SingleBatch
import BuildConfig.Proofs.Baseline.Termination

namespace BuildConfig.Baseline

open Mapping.Batch (Fetched fetch locations mapOne outcome run_of_continuing step_of_fetching)

/-- What the one bundle of a batch is mapped to with the rules of a table. -/
def mappedWith (table : Mapping.Table) (bundle : Bundle) : Except Mapping.Fault Configuration :=
  match mapOne table bundle with
  | .ok result => .ok result
  | .error e => .error (.options e)

/-- The batch with an outcome in the slot of its sink. -/
def settled (batch : SingleBatch) (outcome : Except Mapping.Fault Configuration) : SingleBatch :=
  { batch with stage := .continuing, sink := ⟨⟨some outcome⟩⟩ }

theorem deliver_outcome (bundle : Bundle) (table : Mapping.Table) (stage : Mapping.Batch.Stage) :
    { single bundle with stage := stage }.deliver (outcome (single bundle).request table) =
      settled (single bundle) (mappedWith table bundle) := by
  rw [outcome_single]
  unfold mappedWith
  cases mapOne table bundle <;> rfl

/-- The outcomes that a batch of the bundle can come to. -/
inductive Yields (bundle : Bundle) : Except Mapping.Fault Configuration → Prop
  | refused (e : MappingError) : Yields bundle (.error (.mapping e))
  | mapped (table : Mapping.Table) : Yields bundle (mappedWith table bundle)

/-- What can be left of the batch of a bundle when its run was stopped. -/
inductive Held (bundle : Bundle) : SingleBatch → Prop
  | fetching : Held bundle (single bundle)
  | applying (table : Mapping.Table) :
      Held bundle { single bundle with stage := .applying table }
  | settled {outcome : Except Mapping.Fault Configuration} (h : Yields bundle outcome) :
      Held bundle (settled (single bundle) outcome)

/--
How far a run can bring a batch; `fetched` is what comes of asking for the rules in it.  The
rules are kept once they are there, and so is an outcome.
-/
inductive Forward (fetched : Fetched) (batch : SingleBatch) : SingleBatch → Prop
  | kept : Forward fetched batch batch
  | fetched {table : Mapping.Table} (hstage : batch.stage = .fetching)
      (h : fetched = .complete table) :
      Forward fetched batch { batch with stage := .applying table }
  | refused {e : MappingError} (hstage : batch.stage = .fetching) (h : fetched = .refused e) :
      Forward fetched batch (settled batch (.error (.mapping e)))
  | mapped {table : Mapping.Table} {bundle : Bundle}
      (hrequest : batch.request = (single bundle).request)
      (h : batch.stage = .applying table ∨ batch.stage = .fetching ∧ fetched = .complete table) :
      Forward fetched batch (settled batch (mappedWith table bundle))

/-- How a run of a batch ends, and what it leaves. -/
inductive Stops (fetched : Fetched) (batch : SingleBatch) : RunEnd → SingleBatch → Prop
  | suspended (hstage : batch.stage = .fetching) (h : fetched = .lacking) :
      Stops fetched batch .suspended batch
  | interrupted {after : SingleBatch} (h : Forward fetched batch after) :
      Stops fetched batch .interrupted after
  | done {outcome : Except Mapping.Fault Configuration}
      (h : Forward fetched batch (settled batch outcome)) :
      Stops fetched batch .done { settled batch outcome with stage := .finished }

variable {σ : Type} [Environment σ] {bundle : Bundle} {batch : SingleBatch}

/-- What comes of asking for the rules of a batch in a run that is not stopped before. -/
def fetchedIn (batch : SingleBatch) (world : σ) : Fetched :=
  (fetch [] false (locations batch.request) (Environment.raised world).2).1

/-! ### Runs -/

/-- A batch with an outcome is done, unless its run is stopped first. -/
private theorem stops_settled {fetched : Fetched} {outcome : Except Mapping.Fault Configuration}
    (h : Forward fetched batch (settled batch outcome)) (world : σ) :
    Stops fetched batch (Machine.run (settled batch outcome) world).ending
      (Machine.run (settled batch outcome) world).machine := by
  cases hflag : (Environment.raised world).1 with
  | true =>
      rw [Machine.run_of_raised hflag]
      exact .interrupted h
  | false =>
      -- The machine that the batch goes on with looks at the flag before it does nothing.
      cases hagain : (Environment.raised (Environment.raised world).2).1 with
      | true =>
          rw [run_of_continuing rfl hflag (Machine.run_of_raised hagain)]
          exact .interrupted h
      | false =>
          rw [run_of_continuing rfl hflag (Machine.run_of_last .done hagain rfl)]
          exact .done h

/-- A batch that has its rules maps its bundle, unless its run is stopped first. -/
private theorem stops_applying {fetched : Fetched} {table : Mapping.Table}
    {stage : Mapping.Batch.Stage}
    (h : stage = .applying table ∨ stage = .fetching ∧ fetched = .complete table) (world : σ) :
    Stops fetched { single bundle with stage := stage }
      (Machine.run { single bundle with stage := .applying table } world).ending
      (Machine.run { single bundle with stage := .applying table } world).machine := by
  cases hflag : (Environment.raised world).1 with
  | true =>
      rw [Machine.run_of_raised hflag]
      refine .interrupted ?_
      obtain rfl | ⟨rfl, hfetched⟩ := h
      · exact .kept
      · exact .fetched rfl hfetched
  | false =>
      have hstep : Machine.step { single bundle with stage := .applying table }
          (Environment.raised world).2 =
          ⟨.next, settled (single bundle) (mappedWith table bundle),
            (Environment.raised world).2⟩ := by
        rw [← deliver_outcome bundle table (.applying table)]
        rfl
      rw [Machine.run_of_next hflag hstep]
      have hmapped : Forward fetched { single bundle with stage := stage }
          (settled { single bundle with stage := stage } (mappedWith table bundle)) :=
        .mapped rfl h
      exact stops_settled hmapped _

private theorem stops_fetching (world : σ) :
    Stops (fetchedIn (single bundle) world) (single bundle)
      (Machine.run (single bundle) world).ending (Machine.run (single bundle) world).machine := by
  cases hflag : (Environment.raised world).1 with
  | true =>
      rw [Machine.run_of_raised hflag]
      exact .interrupted .kept
  | false =>
      unfold fetchedIn
      cases hfetch : fetch [] false (locations (single bundle).request)
          (Environment.raised world).2 with
      | mk fetched later =>
          have hstep : Machine.step (single bundle) (Environment.raised world).2 = _ :=
            step_of_fetching rfl hfetch
          cases fetched with
          | complete table =>
              rw [Machine.run_of_next hflag hstep]
              exact stops_applying (.inr ⟨rfl, rfl⟩) later
          | lacking =>
              rw [Machine.run_of_last .suspended hflag hstep]
              exact .suspended rfl rfl
          | refused e =>
              rw [Machine.run_of_next hflag hstep]
              exact stops_settled (.refused rfl rfl) later
          | interrupted =>
              rw [Machine.run_of_last .interrupted hflag hstep]
              exact .interrupted .kept

/-- **All that a run can make of a batch.** -/
theorem Held.stops (h : Held bundle batch) (world : σ) :
    Stops (fetchedIn batch world) batch (Machine.run batch world).ending
      (Machine.run batch world).machine := by
  cases h with
  | fetching => exact stops_fetching world
  | applying table => exact stops_applying (.inl rfl) world
  | settled hyields => exact stops_settled .kept world

theorem Forward.held {fetched : Fetched} {after : SingleBatch}
    (hforward : Forward fetched batch after) (h : Held bundle batch) : Held bundle after := by
  cases hforward with
  | kept => exact h
  | fetched hstage hfetched =>
      cases h with
      | fetching => exact .applying _
      | applying table => cases hstage
      | settled hyields => cases hstage
  | refused hstage hfetched =>
      cases h with
      | fetching => exact .settled (.refused _)
      | applying table => cases hstage
      | settled hyields => cases hstage
  | @mapped table other hrequest hneeds =>
      have hbundle : batch.request = (single bundle).request := by
        cases h <;> rfl
      have hsame : other = bundle := by
        have hentries := congrArg SortedMap.entries (hrequest.symm.trans hbundle)
        have hlist : [(batchName, other)] = [(batchName, bundle)] := hentries
        simpa using hlist
      subst hsame
      cases h with
      | fetching => exact .settled (.mapped _)
      | applying table => exact .settled (.mapped _)
      | settled hyields => simp [settled] at hneeds

/-! ### Steps of an evaluation -/

namespace Evaluation

variable {ς : Type} {evaluation : Evaluation ς} {phase : Phase}

/-- Any batch that the evaluation holds is one that can be left of the batch of a bundle. -/
def HoldsLeft (evaluation : Evaluation ς) : Prop :=
  ∀ phase batch, evaluation.stage.batchFor phase = some batch → ∃ bundle, Held bundle batch

theorem HoldsLeft.exists_held_or (h : HoldsLeft evaluation) :
    (∃ phase batch bundle, evaluation.stage.batchFor phase = some batch ∧ Held bundle batch) ∨
      ∀ phase, evaluation.stage.batchFor phase = none := by
  by_cases hbatch : ∃ phase batch, evaluation.stage.batchFor phase = some batch
  · obtain ⟨phase, batch, hbatch⟩ := hbatch
    obtain ⟨bundle, hheld⟩ := h phase batch hbatch
    exact .inl ⟨phase, batch, bundle, hbatch, hheld⟩
  · right
    intro phase
    exact Option.eq_none_iff_forall_ne_some.mpr fun batch hsome => hbatch ⟨phase, batch, hsome⟩

/-- A stage that is led to begins with the batch of its bundle. -/
theorem Follows.batchFor {request : Request} {settings : Settings} {stage next : Stage}
    {done : Phase} (h : Follows request settings stage done next)
    (hbatch : next.batchFor phase = some batch) : ∃ bundle, batch = single bundle := by
  cases h with
  | start bundle =>
      unfold afterStart at hbatch
      split at hbatch <;> cases phase <;> cases hbatch
      exact ⟨bundle, rfl⟩
  | map _ _ => cases phase <;> cases hbatch
  | load _ _ => cases phase <;> cases hbatch
  | @move _ _ moved _ =>
      cases moved with
      | none => cases phase <;> cases hbatch
      | some bundle =>
          rw [afterMove_some] at hbatch
          split at hbatch <;> cases phase <;> cases hbatch
          exact ⟨bundle, rfl⟩
  | remap _ _ => cases phase <;> cases hbatch

/-! ### Steps that do not complete -/

private theorem stepStart_of_stopped (world : σ) :
    (evaluation.stepStart world).ending.completes = false →
      (evaluation.stepStart world).machine = evaluation := by
  unfold stepStart
  split
  · intro h
    cases h
  · split
    · intro h
      cases h
    · exact fun _ => rfl
    · rename_i e _ _
      exact nomatch e
    · exact fun _ => rfl

variable [Sink ς Outcome]

private theorem stepLoad_of_stopped {mapped : Configuration} (world : σ) :
    (evaluation.stepLoad mapped world).ending.completes = false →
      (evaluation.stepLoad mapped world).machine = evaluation := by
  unfold stepLoad
  split
  · intro h
    cases h
  · exact fun _ => rfl
  · intro h
    cases h
  · exact fun _ => rfl

theorem eq_of_stopped (h : ∀ phase, evaluation.stage.batchFor phase = none) (world : σ) :
    (evaluation.step world).ending.completes = false →
      (evaluation.step world).machine = evaluation := by
  unfold step
  cases hstage : evaluation.stage with
  | starting => exact stepStart_of_stopped world
  | mapping batch => exact absurd (h .map) (by simp [hstage, Stage.batchFor])
  | loading mapped => exact stepLoad_of_stopped world
  | moving mapped custom =>
      dsimp only
      unfold stepMove
      split <;> intro hending <;> cases hending
  | remapping batch => exact absurd (h .remap) (by simp [hstage, Stage.batchFor])
  | publishing result =>
      intro hending
      cases hending
  | finished => exact fun _ => rfl

/-! ### Steps that run a batch -/

/-- What becomes of the evaluation in a step that runs the batch of a piece of work. -/
inductive RanBatch (evaluation : Evaluation ς) (phase : Phase) (ran : Ran SingleBatch σ) :
    Stepped (Evaluation ς) σ → Prop
  | stopped {stage : Stage} (hending : ran.ending ≠ .done)
      (hstage : stage.batchFor phase = some ran.machine) :
      RanBatch evaluation phase ran
        ⟨ran.ending.toStep, { evaluation with stage := stage }, ran.world⟩
  | mapped {configuration : Configuration} {stage : Stage} (hending : ran.ending = .done)
      (houtcome : ran.machine.sink.outcome = .ok configuration)
      (hfollows : Follows evaluation.request evaluation.settings evaluation.stage phase stage) :
      RanBatch evaluation phase ran ⟨.next, evaluation.advance phase stage, ran.world⟩
  | failed {fault : Mapping.Fault} (hending : ran.ending = .done)
      (houtcome : ran.machine.sink.outcome = .error fault) :
      RanBatch evaluation phase ran ⟨.done, evaluation.fail phase (ofFault fault), ran.world⟩

theorem ranBatch_stepBatch {hold : SingleBatch → Stage} {next : Configuration → Stage}
    (hhold : ∀ batch, (hold batch).batchFor phase = some batch)
    (hnext : ∀ configuration, Follows evaluation.request evaluation.settings evaluation.stage phase
      (next configuration)) (world : σ) :
    RanBatch evaluation phase (Machine.run batch world)
      (evaluation.stepBatch phase hold next batch world) := by
  unfold stepBatch
  generalize Machine.run batch world = ran
  obtain ⟨ending, after, later⟩ := ran
  cases ending with
  | suspended => exact .stopped (by simp) (hhold after)
  | interrupted => exact .stopped (by simp) (hhold after)
  | done =>
      dsimp only
      cases houtcome : after.sink.outcome with
      | ok configuration => exact .mapped rfl houtcome (hnext configuration)
      | error fault => exact .failed rfl houtcome

/-- **A step of an evaluation that holds a batch is a run of it.** -/
theorem ranBatch_step (h : evaluation.stage.batchFor phase = some batch) (world : σ) :
    RanBatch evaluation phase (Machine.run batch world) (evaluation.step world) := by
  unfold step
  cases hstage : evaluation.stage with
  | mapping held =>
      rw [hstage] at h
      cases phase <;> cases h
      exact ranBatch_stepBatch (fun _ => rfl) (fun mapped => hstage ▸ .map batch mapped) world
  | remapping held =>
      rw [hstage] at h
      cases phase <;> cases h
      exact ranBatch_stepBatch (fun _ => rfl) (fun result => hstage ▸ .remap batch result) world
  | _ =>
      rw [hstage] at h
      cases phase <;> cases h

end Evaluation

end BuildConfig.Baseline
