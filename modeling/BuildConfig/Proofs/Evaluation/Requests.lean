/-
Machines that ask by requests.

A request looks at the flag before it asks, and a bare question does not.  A machine that
never asks but by requests keeps whatever is kept by requests and by looks at the flag:
`Kept` is such a property of environments, and `Machine.Requests` says of a type of machines
that their steps keep every one of them.  All machines of the library are of this sort.

A property of this kind need not survive a bare question, which is what sets it apart from
the ones that `Machine.run_world` is about.
-/
import BuildConfig.Proofs.Evaluation.Answers
import BuildConfig.Proofs.Evaluation.Views

namespace BuildConfig

/-- A property of environments that requests and looks at the flag do not end. -/
structure Environment.Kept {σ : Type} [Environment σ] (kept : σ → Prop) : Prop where
  raised : ∀ world, kept world → kept (Environment.raised world).2
  request : ∀ {ε : Type} [Declared ε] (key : Key) (world : σ), kept world →
    kept (Environment.request ε key world).2

open Environment (Kept Later)

/-- What an environment can become is kept like this. -/
theorem Environment.kept_later {σ : Type} [Environment σ] (start : σ) : Kept (Later start) where
  raised world h := .raised h
  request {ε} _ key world h := by
    cases hraised : (Environment.raised world).1 with
    | true =>
        rw [Environment.request_of_raised hraised]
        exact .raised h
    | false =>
        rw [Environment.request_of_lowered hraised]
        exact .ask (.raised h) key

/-- Machines that ask by requests only. -/
class Machine.Requests (μ : Type) [Machine μ] : Prop where
  step_kept : ∀ {σ : Type} [Environment σ] {kept : σ → Prop}, Kept kept →
    ∀ (machine : μ) (world : σ), kept world → kept (step machine world).world

/-- **What requests keep, a run keeps.** -/
private theorem Machine.run_kept {μ σ : Type} [Machine μ] [Ends μ] [Requests μ] [Environment σ]
    {kept : σ → Prop} (h : Kept kept) (machine : μ) {world : σ} (hworld : kept world) :
    kept (run machine world).world := by
  refine run_rule (fun _ later => kept later) (fun _ _ later => kept later) ?_ ?_ ?_ hworld
  · intro machine world hworld _
    exact h.raised world hworld
  · intro machine world hworld _
    exact h.raised world hworld
  · intro machine world hworld
    have hstep := Requests.step_kept h machine world hworld
    unfold Stepped.Meets
    split <;> exact hstep

/-! ### The machines of the library -/

instance : Machine.Requests Idle :=
  ⟨fun _ _ _ hworld => hworld⟩

section Batch

open Mapping.Batch

variable {ς ν σ : Type} [Sink ς Mapping.Delivery] [Machine ν] [Machine.Ends ν] [Environment σ]

theorem Mapping.Batch.fetch_kept {kept : σ → Prop} (h : Kept kept) (table : Mapping.Table)
    (lacking : Bool) (locations : List Mapping.Location) {world : σ} (hworld : kept world) :
    kept (fetch table lacking locations world).2 := by
  induction locations generalizing table lacking world with
  | nil => exact hworld
  | cons location rest ih =>
      have hasked := h.request (ε := MappingError) (.rules location) world hworld
      unfold fetch
      generalize Environment.request MappingError (.rules location) world = asked at hasked ⊢
      obtain ⟨reply, later⟩ := asked
      cases reply with
      | value rules => exact ih _ _ hasked
      | missing => exact ih _ _ hasked
      | refused e => exact hasked
      | interrupted => exact hasked

/-- The world after a step is one of these three. -/
theorem Mapping.Batch.world_step (batch : Mapping.Batch ς ν) (world : σ) :
    (batch.step world).world = (fetch [] false (locations batch.request) world).2 ∨
      (batch.step world).world = world ∨
      (batch.step world).world = (Machine.run batch.after world).world := by
  unfold step
  cases batch.stage with
  | fetching =>
      dsimp only
      left
      split <;> rename_i hfetch <;> rw [hfetch]
  | applying table => exact Or.inr (Or.inl rfl)
  | continuing =>
      dsimp only
      right
      right
      split <;> rfl
  | finished => exact Or.inr (Or.inl rfl)

instance [Machine.Requests ν] : Machine.Requests (Mapping.Batch ς ν) where
  step_kept h batch world hworld := by
    rcases Mapping.Batch.world_step batch world with hfetch | hsame | hrun
    · exact hfetch.symm ▸ fetch_kept h [] false _ hworld
    · exact hsame.symm ▸ hworld
    · exact hrun.symm ▸ Machine.run_kept h batch.after hworld

end Batch

section Evaluation

variable {σ : Type} [Environment σ] {kept : σ → Prop}

private theorem Transition.load_kept (h : Kept kept) (bundle : Bundle) {world : σ}
    (hworld : kept world) : kept (load bundle world).2 := by
  unfold load
  cases Reference.ofBundle bundle with
  | error e => exact hworld
  | ok named =>
      cases named with
      | none => exact hworld
      | some reference =>
          dsimp only
          have hasked := h.request (ε := LoadError) (.book reference.book) world hworld
          generalize Environment.request LoadError (.book reference.book) world = asked at hasked ⊢
          obtain ⟨reply, later⟩ := asked
          cases reply <;> exact hasked

namespace Baseline.Evaluation

variable {ς : Type} (evaluation : Evaluation ς) {world : σ}

private theorem stepStart_kept (h : Kept kept) (hworld : kept world) :
    kept (evaluation.stepStart world).world := by
  unfold stepStart
  cases evaluation.request.source with
  | inline bundle => exact hworld
  | precomputed =>
      dsimp only
      have hasked := h.request (ε := Empty) .baseline world hworld
      generalize Environment.request Empty .baseline world = asked at hasked ⊢
      obtain ⟨reply, later⟩ := asked
      cases reply with
      | value bundle => exact hasked
      | missing => exact hasked
      | refused e => exact nomatch e
      | interrupted => exact hasked

variable [Sink ς Outcome]

private theorem stepBatch_kept (h : Kept kept) (phase : Phase) (hold : SingleBatch → Stage)
    (next : Configuration → Stage) (batch : SingleBatch) (hworld : kept world) :
    kept (evaluation.stepBatch phase hold next batch world).world := by
  unfold stepBatch
  have hran := Machine.run_kept h batch hworld
  generalize Machine.run batch world = ran at hran ⊢
  obtain ⟨ending, machine, later⟩ := ran
  cases ending with
  | suspended => exact hran
  | interrupted => exact hran
  | done =>
      dsimp only
      cases machine.sink.outcome <;> exact hran

private theorem stepLoad_kept (h : Kept kept) (mapped : Configuration) (hworld : kept world) :
    kept (evaluation.stepLoad mapped world).world := by
  unfold stepLoad
  have hloaded := Transition.load_kept h mapped.bundle hworld
  generalize Transition.load mapped.bundle world = loaded at hloaded ⊢
  obtain ⟨reply, later⟩ := loaded
  cases reply <;> exact hloaded

instance : Machine.Requests (Evaluation ς) where
  step_kept {_} _ kept h evaluation world hworld := by
    show kept (evaluation.step world).world
    unfold step
    cases evaluation.stage with
    | starting => exact stepStart_kept evaluation h hworld
    | mapping batch => exact stepBatch_kept evaluation h _ _ _ batch hworld
    | loading mapped => exact stepLoad_kept evaluation h mapped hworld
    | moving mapped custom =>
        dsimp only [stepMove]
        cases move evaluation.request evaluation.settings custom mapped.bundle <;> exact hworld
    | remapping batch => exact stepBatch_kept evaluation h _ _ _ batch hworld
    | publishing result => exact hworld
    | finished => exact hworld

end Baseline.Evaluation

end Evaluation

end BuildConfig
