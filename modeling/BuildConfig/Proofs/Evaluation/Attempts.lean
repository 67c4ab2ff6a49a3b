/-
The steps that runs are made of.

`Machine.run` tells how a run ends and nothing about the way there.  `Machine.attempts`
are the steps that it takes, each with the machine and the world that it starts from.  A run
that finds the flag raised before its first step takes none.

`attempts_rule` is the rule for what holds of a machine together with all the steps that
were taken so far: whatever one more step keeps, every run keeps.
-/
import BuildConfig.Proofs.Evaluation.Runs

namespace BuildConfig

/-- A machine, and the world that it takes a step in. -/
structure Attempt (μ : Type) where
  machine : μ
  world : World

/-- What came of the step. -/
def Attempt.came {μ : Type} [Machine μ] (attempt : Attempt μ) : Stepped μ attempt.world.σ :=
  Machine.step attempt.machine attempt.world.state

namespace Machine

/-- The steps of a run. -/
def attempts {μ σ : Type} [Machine μ] [Ends μ] [Environment σ] (machine : μ) (world : σ) :
    List (Attempt μ) :=
  match Environment.raised world with
  | (true, _) => []
  | (false, world) =>
    let stepped := step machine world
    ⟨machine, ⟨world⟩⟩ ::
      match _h : stepped.ending with
      | .next => attempts stepped.machine stepped.world
      | .suspended => []
      | .done => []
      | .interrupted => []
termination_by (Ends.wellFounded : WellFounded (Moves : μ → μ → Prop)).wrap machine
decreasing_by exact ⟨σ, _, world, _h, rfl⟩

variable {μ σ : Type} [Machine μ] [Ends μ] [Environment σ]

theorem attempts_of_raised {machine : μ} {world : σ} (h : (Environment.raised world).1 = true) :
    attempts machine world = [] := by
  rw [attempts]
  split
  · rfl
  · rename_i later hraised
    rw [hraised] at h
    cases h

theorem attempts_of_lowered {machine : μ} {world : σ} (h : (Environment.raised world).1 = false) :
    attempts machine world =
      let stepped := step machine (Environment.raised world).2
      ⟨machine, ⟨(Environment.raised world).2⟩⟩ ::
        match stepped.ending with
        | .next => attempts stepped.machine stepped.world
        | .suspended => []
        | .done => []
        | .interrupted => [] := by
  rw [attempts]
  split
  · rename_i later hraised
    rw [hraised] at h
    cases h
  · rename_i later hraised
    rw [hraised]
    dsimp only
    split <;> rename_i hending <;> rw [hending]

/-! ### What every step keeps -/

/-- The rule for one run; the steps of earlier runs come before its own. -/
theorem attempts_rule (invariant : List (Attempt μ) → μ → Prop)
    (hstep : ∀ taken (attempt : Attempt μ), invariant taken attempt.machine →
      invariant (taken ++ [attempt]) attempt.came.machine)
    {taken : List (Attempt μ)} {machine : μ} (world : σ) (h : invariant taken machine) :
    invariant (taken ++ attempts machine world) (run machine world).machine := by
  -- `run` and `attempts` recurse alike, so one induction on the moves opens both.
  induction machine using (Ends.wellFounded : WellFounded (Moves : μ → μ → Prop)).induction
    generalizing taken world with
  | _ machine ih =>
      cases hflag : (Environment.raised world).1 with
      | true =>
          rw [run_of_raised hflag, attempts_of_raised hflag, List.append_nil]
          exact h
      | false =>
          have hfirst := hstep taken ⟨machine, ⟨(Environment.raised world).2⟩⟩ h
          rw [run_of_lowered hflag, attempts_of_lowered hflag]
          dsimp only
          cases hending : (step machine (Environment.raised world).2).ending with
          | next =>
              have hrest := ih _ ⟨σ, inferInstance, _, hending, rfl⟩
                (step machine (Environment.raised world).2).world hfirst
              rw [List.append_assoc] at hrest
              exact hrest
          | suspended => exact hfirst
          | done => exact hfirst
          | interrupted => exact hfirst

end Machine

end BuildConfig
