/-
The evaluation of one baseline.

The options that a request starts from are mapped, moved onto an execution platform or the
requested platform when the request asks for that, and mapped again once a requested
platform is in place.  A custom transition that the mapped options name is loaded in any
case, so one that is broken fails every request.

The evaluation is a machine whose stages are these pieces of work; each stage holds all
that the later ones need.  A mapping is a machine of its own inside a stage, a batch of
the one bundle, and delivers to a sink of its own.  Whatever comes of the evaluation goes
to the evaluation's sink: the configuration, or the error of the stage that failed.
-/
import BuildConfig.Baseline.Request
import BuildConfig.Mapping.Batch
import BuildConfig.Settings
import BuildConfig.Transition.Exec
import BuildConfig.Transition.Loading

namespace BuildConfig.Baseline

/-- The pieces of work, in the order in which they are done. -/
inductive Phase
  | start
  | map
  | load
  | move
  | remap
  | publish
  deriving DecidableEq

/-- The name of a piece of work. -/
def Phase.name : Phase → String
  | start => "Init"
  | map => "MapInitial"
  | load => "LoadDynamicTransition"
  | move => "ApplyTransition"
  | remap => "RemapIfPlatformChanged"
  | publish => "Publish"

/-! ### Mapping one bundle -/

/-- The name of the one bundle in its batch. -/
def batchName : String :=
  "baseline"

/-- The sink of a batch of one bundle: it keeps the configuration of that bundle. -/
structure Collector where
  slot : Slot Mapping.Fault Configuration

namespace Collector

/-- The collector to which nothing was delivered. -/
def empty : Collector :=
  ⟨.empty⟩

/-- The fault of a batch that delivers no configuration of the bundle. -/
def unmapped : Mapping.Fault :=
  .options (.unmapped batchName)

instance : Sink Collector Mapping.Delivery where
  accept collector
    | .error fault => ⟨collector.slot.setError fault⟩
    | .ok configurations =>
      match configurations.get? batchName with
      | some configuration => ⟨collector.slot.setValue configuration⟩
      | none => ⟨collector.slot.setError unmapped⟩

/-- What the batch came to once it is done. -/
def outcome (collector : Collector) : Except Mapping.Fault Configuration :=
  collector.slot.take.1.getD (.error unmapped)

end Collector

/-- The mapping of one bundle. -/
abbrev SingleBatch : Type :=
  Mapping.Batch Collector Idle

/-- The batch of one bundle. -/
def single (bundle : Bundle) : SingleBatch :=
  .start (SortedMap.empty.insert batchName bundle) .empty ⟨⟩

/-! ### Stages -/

/-- How far an evaluation is. -/
inductive Stage
  /-- The options are needed. -/
  | starting
  /-- The options are being mapped. -/
  | mapping (batch : SingleBatch)
  /-- The custom transition is needed. -/
  | loading (mapped : Configuration)
  /-- The configuration can be moved. -/
  | moving (mapped : Configuration) (custom : Option Transition.Custom)
  /-- The configuration is being mapped for the requested platform. -/
  | remapping (batch : SingleBatch)
  /-- The configuration is final. -/
  | publishing (result : Configuration)
  /-- The outcome is delivered. -/
  | finished

/-- The number of stages still ahead. -/
def Stage.rank : Stage → Nat
  | .starting => 6
  | .mapping _ => 5
  | .loading _ => 4
  | .moving _ _ => 3
  | .remapping _ => 2
  | .publishing _ => 1
  | .finished => 0

/-- What an evaluation delivers. -/
abbrev Outcome : Type :=
  Except EvaluationError Configuration

/-- The error that a fault of a mapping is to the evaluation. -/
def ofFault : Mapping.Fault → EvaluationError
  | .options e => .options e
  | .mapping e => .mapping e

/-- An evaluation: what is asked for, where to deliver it, and how far it is. -/
structure Evaluation (ς : Type) where
  request : Request
  settings : Settings
  sink : ς
  stage : Stage
  /-- The pieces of work that are finished. -/
  history : List Phase

namespace Evaluation

variable {ς σ : Type}

/-- The evaluation of which nothing has been done. -/
def begin (request : Request) (settings : Settings) (sink : ς) : Evaluation ς :=
  ⟨request, settings, sink, .starting, []⟩

/-- A piece of work is finished, and the evaluation moves on. -/
def advance (evaluation : Evaluation ς) (phase : Phase) (stage : Stage) : Evaluation ς :=
  { evaluation with stage := stage, history := evaluation.history ++ [phase] }

/-- Something is delivered. -/
def deliver [Sink ς Outcome] (evaluation : Evaluation ς) (outcome : Outcome) : Evaluation ς :=
  { evaluation with sink := Sink.accept evaluation.sink outcome }

/-- A piece of work is finished with an error, and nothing is left to do. -/
def fail [Sink ς Outcome] (evaluation : Evaluation ς) (phase : Phase) (error : EvaluationError) :
    Evaluation ς :=
  (evaluation.deliver (.error error)).advance phase .finished

/-! ### The pieces of work -/

/-- The stage after the options are there: without a configuration they are final. -/
def afterStart (bundle : Bundle) : Stage :=
  if bundle.lacksConfiguration then .publishing ⟨bundle⟩ else .mapping (single bundle)

/-- Gets the options. -/
def stepStart [Environment σ] (evaluation : Evaluation ς) (world : σ) : Stepped (Evaluation ς) σ :=
  match evaluation.request.source with
  | .inline bundle => ⟨.next, evaluation.advance .start (afterStart bundle), world⟩
  | .precomputed =>
    match Environment.request Empty .baseline world with
    | (.value bundle, world) => ⟨.next, evaluation.advance .start (afterStart bundle), world⟩
    | (.missing, world) => ⟨.suspended, evaluation, world⟩
    | (.refused e, _) => nomatch e
    | (.interrupted, world) => ⟨.interrupted, evaluation, world⟩

/-- Runs a mapping; `hold` is the stage that it belongs to and `next` the stage after it. -/
def stepBatch [Sink ς Outcome] [Environment σ] (evaluation : Evaluation ς) (phase : Phase)
    (hold : SingleBatch → Stage) (next : Configuration → Stage) (batch : SingleBatch) (world : σ) :
    Stepped (Evaluation ς) σ :=
  let ran := Machine.run batch world
  match ran.ending with
  | .suspended => ⟨.suspended, { evaluation with stage := hold ran.machine }, ran.world⟩
  | .interrupted => ⟨.interrupted, { evaluation with stage := hold ran.machine }, ran.world⟩
  | .done =>
    match ran.machine.sink.outcome with
    | .ok configuration => ⟨.next, evaluation.advance phase (next configuration), ran.world⟩
    | .error fault => ⟨.done, evaluation.fail phase (ofFault fault), ran.world⟩

/-- Loads the custom transition. -/
def stepLoad [Sink ς Outcome] [Environment σ] (evaluation : Evaluation ς) (mapped : Configuration)
    (world : σ) : Stepped (Evaluation ς) σ :=
  match Transition.load mapped.bundle world with
  | (.value custom, world) => ⟨.next, evaluation.advance .load (.moving mapped custom), world⟩
  | (.missing, world) => ⟨.suspended, evaluation, world⟩
  | (.refused e, world) => ⟨.done, evaluation.fail .load (.load e), world⟩
  | (.interrupted, world) => ⟨.interrupted, evaluation, world⟩

/-- The bundle moved as the request asks for; none when it asks for no move. -/
def move (request : Request) (settings : Settings) (custom : Option Transition.Custom)
    (bundle : Bundle) : Except OptionsError (Option Bundle) :=
  if request.exec then
    let exec : Transition.Exec := ⟨request.platform.getD settings.placeholder, custom⟩
    (exec.patch.applyWithin bundle).map some
  else
    match request.platform with
    | some platform => (bundle.withPlatforms [platform]).map some
    | none => .ok none

/-- The stage after a move: a bundle on a requested platform is mapped again. -/
def afterMove (request : Request) (settings : Settings) (mapped : Configuration) :
    Option Bundle → Stage
  | none => .publishing mapped
  | some bundle =>
    if request.platform.isSome && settings.remap then .remapping (single bundle)
    else .publishing ⟨bundle⟩

/-- Moves the configuration. -/
def stepMove [Sink ς Outcome] (evaluation : Evaluation ς) (mapped : Configuration)
    (custom : Option Transition.Custom) (world : σ) : Stepped (Evaluation ς) σ :=
  match move evaluation.request evaluation.settings custom mapped.bundle with
  | .ok moved =>
    let stage := afterMove evaluation.request evaluation.settings mapped moved
    ⟨.next, evaluation.advance .move stage, world⟩
  | .error e => ⟨.done, evaluation.fail .move (.options e), world⟩

/-- Delivers the configuration. -/
def stepPublish [Sink ς Outcome] (evaluation : Evaluation ς) (result : Configuration) (world : σ) :
    Stepped (Evaluation ς) σ :=
  ⟨.done, (evaluation.deliver (.ok result)).advance .publish .finished, world⟩

/-- One step: the piece of work at hand. -/
def step [Sink ς Outcome] [Environment σ] (evaluation : Evaluation ς) (world : σ) :
    Stepped (Evaluation ς) σ :=
  match evaluation.stage with
  | .starting => evaluation.stepStart world
  | .mapping batch => evaluation.stepBatch .map .mapping .loading batch world
  | .loading mapped => evaluation.stepLoad mapped world
  | .moving mapped custom => evaluation.stepMove mapped custom world
  | .remapping batch => evaluation.stepBatch .remap .remapping .publishing batch world
  | .publishing result => evaluation.stepPublish result world
  | .finished => ⟨.done, evaluation, world⟩

/-! ### Every step that goes on comes closer to the end -/

private theorem rank_afterStart (bundle : Bundle) : (afterStart bundle).rank < 6 := by
  unfold afterStart
  split <;> simp [Stage.rank]

private theorem rank_afterMove (request : Request) (settings : Settings) (mapped : Configuration)
    (moved : Option Bundle) : (afterMove request settings mapped moved).rank < 3 := by
  cases moved with
  | none => simp [afterMove, Stage.rank]
  | some bundle =>
    rw [afterMove]
    split <;> simp [Stage.rank]

private theorem rank_stepStart [Environment σ] (evaluation : Evaluation ς) (world : σ) :
    (evaluation.stepStart world).ending = .next →
      (evaluation.stepStart world).machine.stage.rank < 6 := by
  unfold stepStart
  split
  · exact fun _ => rank_afterStart _
  · split
    · exact fun _ => rank_afterStart _
    · exact fun h => nomatch h
    · rename_i e _ _
      exact nomatch e
    · exact fun h => nomatch h

private theorem rank_stepBatch [Sink ς Outcome] [Environment σ] {evaluation : Evaluation ς}
    {phase : Phase} {hold : SingleBatch → Stage} {next : Configuration → Stage}
    {batch : SingleBatch} {world : σ} {bound : Nat}
    (hnext : ∀ configuration, (next configuration).rank < bound) :
    (evaluation.stepBatch phase hold next batch world).ending = .next →
      (evaluation.stepBatch phase hold next batch world).machine.stage.rank < bound := by
  unfold stepBatch
  dsimp only
  split
  · exact fun h => nomatch h
  · exact fun h => nomatch h
  · split
    · exact fun _ => hnext _
    · exact fun h => nomatch h

private theorem rank_stepLoad [Sink ς Outcome] [Environment σ] (evaluation : Evaluation ς)
    (mapped : Configuration) (world : σ) :
    (evaluation.stepLoad mapped world).ending = .next →
      (evaluation.stepLoad mapped world).machine.stage.rank < 4 := by
  unfold stepLoad
  split
  · exact fun _ => by simp [advance, Stage.rank]
  · exact fun h => nomatch h
  · exact fun h => nomatch h
  · exact fun h => nomatch h

private theorem rank_stepMove [Sink ς Outcome] (evaluation : Evaluation ς) (mapped : Configuration)
    (custom : Option Transition.Custom) (world : σ) :
    (evaluation.stepMove mapped custom world).ending = .next →
      (evaluation.stepMove mapped custom world).machine.stage.rank < 3 := by
  unfold stepMove
  split
  · exact fun _ => rank_afterMove _ _ _ _
  · exact fun h => nomatch h

theorem rank_step [Sink ς Outcome] [Environment σ] (evaluation : Evaluation ς) (world : σ) :
    (evaluation.step world).ending = .next →
      (evaluation.step world).machine.stage.rank < evaluation.stage.rank := by
  unfold step
  cases evaluation.stage with
  | starting => exact rank_stepStart _ _
  | mapping batch => exact rank_stepBatch fun _ => by simp [Stage.rank]
  | loading mapped => exact rank_stepLoad _ _ _
  | moving mapped custom => exact rank_stepMove _ _ _ _
  | remapping batch => exact rank_stepBatch fun _ => by simp [Stage.rank]
  | publishing result => exact fun h => nomatch h
  | finished => exact fun h => nomatch h

instance [Sink ς Outcome] : Machine (Evaluation ς) :=
  ⟨step⟩

instance [Sink ς Outcome] : Machine.Ends (Evaluation ς) :=
  .ofRank (·.stage.rank) rank_step

-- By name for the two sinks that are used, so that all definitions that run an evaluation
-- share one proof.

instance : Machine.Ends (Evaluation (List Outcome)) :=
  inferInstance

instance : Machine.Ends (Evaluation (Slot EvaluationError Configuration)) :=
  inferInstance

end Evaluation

end BuildConfig.Baseline
