/-
Environments that say the same.

An environment may hold more than anybody asks it for: what it was asked before, a
proof about its state, or the state of another one.  `Environment.View` is a map that
forgets such things, so the two environments raise the same flag and give the same
answers.  A machine is `Uniform` when its steps do not depend on what is forgotten.  All
machines of the library are, because a step gets to know an environment by its two
questions only.

Two things follow, and the runs are where they are used.  Writing down what a machine
asks for does not change what it does.  And whatever both questions keep of an
environment, a run keeps: the environments with a proof of it are environments
themselves, and forgetting the proof is a view.
-/
import BuildConfig.Baseline.Evaluation
import BuildConfig.Proofs.Evaluation.Runs

namespace BuildConfig

namespace Environment

variable {σ τ : Type} [Environment σ] [Environment τ] {view : σ → τ}

/-- A map to an environment that says the same. -/
structure View (view : σ → τ) : Prop where
  raised : ∀ world, raised (view world) = ((raised world).1, view (raised world).2)
  ask : ∀ key world, ask key (view world) = ((ask key world).1, view (ask key world).2)

theorem View.request {ε : Type} [Declared ε] (h : View view) (key : Key) (world : σ) :
    request ε key (view world) = ((request ε key world).1, view (request ε key world).2) := by
  unfold Environment.request
  rw [h.raised]
  cases Environment.raised world with
  | mk flag later =>
      cases flag with
      | true => rfl
      | false =>
          dsimp only
          rw [h.ask]

end Environment

open Environment (View)

/-! ### Steps and runs in a view -/

/-- A step seen in another environment. -/
def Stepped.inView {μ σ τ : Type} (view : σ → τ) (stepped : Stepped μ σ) : Stepped μ τ :=
  ⟨stepped.ending, stepped.machine, view stepped.world⟩

/-- A run seen in another environment. -/
def Ran.inView {μ σ τ : Type} (view : σ → τ) (ran : Ran μ σ) : Ran μ τ :=
  ⟨ran.ending, ran.machine, view ran.world⟩

/-- Machines whose steps depend on what an environment says and on nothing else. -/
class Machine.Uniform (μ : Type) [Machine μ] : Prop where
  step_view : ∀ {σ τ : Type} [Environment σ] [Environment τ] {view : σ → τ}, View view →
    ∀ (machine : μ) (world : σ), step machine (view world) = (step machine world).inView view

namespace Machine

variable {μ σ τ : Type} [Machine μ] [Ends μ] [Uniform μ] [Environment σ] [Environment τ]

/-- **A run in a view is the view of the run.** -/
theorem run_view {view : σ → τ} (h : View view) (machine : μ) (world : σ) :
    run machine (view world) = (run machine world).inView view := by
  induction machine using (Ends.wellFounded : WellFounded (Moves : μ → μ → Prop)).induction
    generalizing world with
  | _ machine ih =>
      have hraised := h.raised world
      cases hflag : (Environment.raised world).1 with
      | true =>
          rw [hflag] at hraised
          rw [run_of_raised hflag, run_of_raised (by rw [hraised]), hraised]
          rfl
      | false =>
          rw [hflag] at hraised
          rw [run_of_lowered hflag, run_of_lowered (by rw [hraised]), hraised]
          dsimp only
          rw [Uniform.step_view h]
          dsimp only [Stepped.inView]
          cases hending : (step machine (Environment.raised world).2).ending with
          | next => exact ih _ ⟨σ, inferInstance, _, hending, rfl⟩ _
          | suspended => rfl
          | done => rfl
          | interrupted => rfl

/-- What both questions keep of an environment, a run keeps. -/
theorem run_world (kept : σ → Prop)
    (hraised : ∀ world, kept world → kept (Environment.raised world).2)
    (hask : ∀ key world, kept world → kept (Environment.ask key world).2)
    (machine : μ) {world : σ} (h : kept world) : kept (run machine world).world := by
  let _ : Environment { world : σ // kept world } :=
    { raised := fun world => ((Environment.raised world.1).1, ⟨_, hraised world.1 world.2⟩)
      ask := fun key world => ((Environment.ask key world.1).1, ⟨_, hask key world.1 world.2⟩) }
  have hview : View (Subtype.val : { world : σ // kept world } → σ) :=
    ⟨fun _ => rfl, fun _ _ => rfl⟩
  have hrun := run_view hview machine ⟨world, h⟩
  rw [show run machine world = _ from hrun]
  exact (run machine (⟨world, h⟩ : { world : σ // kept world })).world.2

end Machine

/-! ### The machines of the library -/

instance : Machine.Uniform Idle :=
  ⟨fun _ _ _ => rfl⟩

section Batch

variable {σ τ : Type} [Environment σ] [Environment τ] {view : σ → τ}

theorem Mapping.Batch.fetch_view (h : View view) (locations : List Location) (table : Table)
    (lacking : Bool) (world : σ) :
    fetch table lacking locations (view world) =
      ((fetch table lacking locations world).1, view (fetch table lacking locations world).2) := by
  induction locations generalizing table lacking world with
  | nil => rfl
  | cons location rest ih =>
      unfold fetch
      rw [h.request]
      cases Environment.request MappingError (.rules location) world with
      | mk reply later =>
          cases reply with
          | value rules => exact ih _ _ later
          | missing => exact ih _ _ later
          | refused e => rfl
          | interrupted => rfl

instance {ς ν : Type} [Sink ς Mapping.Delivery] [Machine ν] [Machine.Ends ν] [Machine.Uniform ν] :
    Machine.Uniform (Mapping.Batch ς ν) where
  step_view {σ τ} _ _ view h batch world := by
    show Mapping.Batch.step batch (view world) = (Mapping.Batch.step batch world).inView view
    obtain ⟨request, sink, after, stage⟩ := batch
    cases stage with
    | fetching =>
        simp only [Mapping.Batch.step]
        rw [Mapping.Batch.fetch_view h]
        cases Mapping.Batch.fetch [] false (Mapping.Batch.locations request) world with
        | mk fetched later => cases fetched <;> rfl
    | applying table => rfl
    | continuing =>
        simp only [Mapping.Batch.step]
        rw [Machine.run_view h]
        cases Machine.run after world with
        | mk ending machine later => cases ending <;> rfl
    | finished => rfl

end Batch

section Evaluation

variable {σ τ : Type} [Environment σ] [Environment τ] {view : σ → τ}

private theorem Transition.load_view (h : View view) (bundle : Bundle) (world : σ) :
    load bundle (view world) = ((load bundle world).1, view (load bundle world).2) := by
  unfold load
  cases Reference.ofBundle bundle with
  | error e => rfl
  | ok named =>
      cases named with
      | none => rfl
      | some reference =>
          dsimp only
          rw [h.request]
          cases Environment.request LoadError (.book reference.book) world with
          | mk reply later => cases reply <;> rfl

namespace Baseline.Evaluation

variable {ς : Type} (evaluation : Evaluation ς) (world : σ)

private theorem stepStart_view (h : View view) :
    evaluation.stepStart (view world) = (evaluation.stepStart world).inView view := by
  unfold stepStart
  cases evaluation.request.source with
  | inline bundle => rfl
  | precomputed =>
      dsimp only
      rw [h.request]
      cases Environment.request Empty .baseline world with
      | mk reply later =>
          cases reply with
          | value bundle => rfl
          | missing => rfl
          | refused e => cases e
          | interrupted => rfl

variable [Sink ς Outcome]

private theorem stepBatch_view (h : View view) (phase : Phase) (hold : SingleBatch → Stage)
    (next : Configuration → Stage) (batch : SingleBatch) :
    evaluation.stepBatch phase hold next batch (view world) =
      (evaluation.stepBatch phase hold next batch world).inView view := by
  unfold stepBatch
  rw [Machine.run_view h]
  cases Machine.run batch world with
  | mk ending machine later =>
      cases ending with
      | suspended => rfl
      | interrupted => rfl
      | done =>
          dsimp only [Ran.inView]
          cases machine.sink.outcome <;> rfl

private theorem stepLoad_view (h : View view) (mapped : Configuration) :
    evaluation.stepLoad mapped (view world) = (evaluation.stepLoad mapped world).inView view := by
  unfold stepLoad
  rw [Transition.load_view h]
  cases Transition.load mapped.bundle world with
  | mk reply later => cases reply <;> rfl

instance : Machine.Uniform (Evaluation ς) where
  step_view {_ _} _ _ view h evaluation world := by
    show evaluation.step (view world) = (evaluation.step world).inView view
    unfold step
    cases evaluation.stage with
    | starting => exact stepStart_view evaluation world h
    | mapping batch => exact stepBatch_view evaluation world h _ _ _ batch
    | loading mapped => exact stepLoad_view evaluation world h mapped
    | moving mapped custom =>
        dsimp only [stepMove]
        cases move evaluation.request evaluation.settings custom mapped.bundle <;> rfl
    | remapping batch => exact stepBatch_view evaluation world h _ _ _ batch
    | publishing result => rfl
    | finished => rfl

end Baseline.Evaluation

end Evaluation

end BuildConfig
