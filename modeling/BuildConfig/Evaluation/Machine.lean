/-
Machines, the evaluations that can be suspended and resumed.

A machine holds its own state and is worked forward in steps.  A step either finishes a
piece of work and moves the machine on, or leaves it where it is because something is
missing or the evaluation is being abandoned.  `run` takes steps until one of them does
not say that there is more to do, and looks at the flag of the environment before each.

`run` is for machines that cannot be moved on for ever, whatever the environments answer:
that the steps which move such a machine on are well founded is what `run` recurses on.
A machine usually shows this by a rank, a number that each of these steps makes smaller.
-/
import BuildConfig.Evaluation.Environment

namespace BuildConfig

/-- How a step ends. -/
inductive StepEnd
  /-- The machine moved on and has more to do. -/
  | next
  /-- Something is missing. -/
  | suspended
  /-- There is nothing left to do. -/
  | done
  /-- The evaluation is being abandoned. -/
  | interrupted
  deriving DecidableEq

/-- How a run ends. -/
inductive RunEnd
  | suspended
  | done
  | interrupted
  deriving DecidableEq

/-- A machine and its environment after a step. -/
structure Stepped (μ σ : Type) where
  ending : StepEnd
  machine : μ
  world : σ

/-- A machine and its environment after a run. -/
structure Ran (μ σ : Type) where
  ending : RunEnd
  machine : μ
  world : σ

/-- A type of machines. -/
class Machine (μ : Type) where
  /-- One step. -/
  step : {σ : Type} → [Environment σ] → μ → σ → Stepped μ σ

namespace Machine

/-- Some step moves the machine on and makes it the next one. -/
def Moves {μ : Type} [Machine μ] (next machine : μ) : Prop :=
  ∃ (σ : Type) (_ : Environment σ) (world : σ),
    (step machine world).ending = .next ∧ (step machine world).machine = next

/-- No machine of the type can be moved on for ever. -/
class Ends (μ : Type) [Machine μ] : Prop where
  wellFounded : WellFounded (Moves : μ → μ → Prop)

/-- Machines cannot be moved on for ever when every step that does so makes a rank smaller. -/
theorem Ends.ofRank {μ : Type} [Machine μ] (rank : μ → Nat)
    (h : ∀ {σ : Type} [Environment σ] (machine : μ) (world : σ),
      (step machine world).ending = .next → rank (step machine world).machine < rank machine) :
    Ends μ where
  wellFounded := by
    refine Subrelation.wf ?_ (measure rank).wf
    rintro next machine ⟨σ, _, world, hnext, rfl⟩
    exact h machine world hnext

/-- Takes steps until the machine has nothing left to do or cannot go on. -/
def run {μ σ : Type} [Machine μ] [Ends μ] [Environment σ] (machine : μ) (world : σ) : Ran μ σ :=
  match Environment.raised world with
  | (true, world) => ⟨.interrupted, machine, world⟩
  | (false, world) =>
    let stepped := step machine world
    match _h : stepped.ending with
    | .next => run stepped.machine stepped.world
    | .suspended => ⟨.suspended, stepped.machine, stepped.world⟩
    | .done => ⟨.done, stepped.machine, stepped.world⟩
    | .interrupted => ⟨.interrupted, stepped.machine, stepped.world⟩
termination_by (Ends.wellFounded : WellFounded (Moves : μ → μ → Prop)).wrap machine
decreasing_by exact ⟨σ, _, world, _h, rfl⟩

end Machine

/-- The machine that has nothing to do. -/
structure Idle where
  deriving DecidableEq

instance : Machine Idle where
  step machine world := ⟨.done, machine, world⟩

instance : Machine.Ends Idle :=
  .ofRank (fun _ => 0) fun _ _ h => nomatch h

end BuildConfig
