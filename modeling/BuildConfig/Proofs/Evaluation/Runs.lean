/-
Runs of a machine, one after the other.

A machine is resumed as often as it takes, and each time it may meet another
environment: `World` is an environment of any type in any state, and `Machine.runs`
resumes a machine in one world after the other.  Nothing is assumed about the worlds,
so whatever is proved of all lists of worlds holds under every schedule.

`run_rule` is how a property of single steps becomes one of whole runs.  A run looks
at the flag before each step, so besides the steps an invariant has to get past that.
The induction is on the moves of the machine, which are well founded for every
machine that can be run at all.
-/
import BuildConfig.Evaluation.Machine

namespace BuildConfig

/-- An environment of some type, in some state. -/
structure World where
  {σ : Type}
  [environment : Environment σ]
  state : σ

attribute [instance] World.environment

/-- What a step has to establish: the invariant when it goes on, and the result when it ends. -/
def Stepped.Meets {μ σ : Type} (invariant : μ → σ → Prop) (result : RunEnd → μ → σ → Prop)
    (stepped : Stepped μ σ) : Prop :=
  match stepped.ending with
  | .next => invariant stepped.machine stepped.world
  | .suspended => result .suspended stepped.machine stepped.world
  | .done => result .done stepped.machine stepped.world
  | .interrupted => result .interrupted stepped.machine stepped.world

/-- How a step ends after which a run ends like this. -/
def RunEnd.toStep : RunEnd → StepEnd
  | suspended => .suspended
  | done => .done
  | interrupted => .interrupted

theorem Stepped.meets_toStep_iff {μ σ : Type} {invariant : μ → σ → Prop}
    {result : RunEnd → μ → σ → Prop} {ending : RunEnd} {machine : μ} {world : σ} :
    Meets invariant result ⟨ending.toStep, machine, world⟩ ↔ result ending machine world := by
  cases ending <;> exact Iff.rfl

namespace Machine

variable {μ σ : Type} [Machine μ] [Ends μ] [Environment σ]

theorem run_of_raised {machine : μ} {world : σ} (h : (Environment.raised world).1 = true) :
    run machine world = ⟨.interrupted, machine, (Environment.raised world).2⟩ := by
  rw [run]
  split
  · rename_i later hraised
    rw [hraised]
  · rename_i later hraised
    rw [hraised] at h
    cases h

theorem run_of_lowered {machine : μ} {world : σ} (h : (Environment.raised world).1 = false) :
    run machine world =
      let stepped := step machine (Environment.raised world).2
      match stepped.ending with
      | .next => run stepped.machine stepped.world
      | .suspended => ⟨.suspended, stepped.machine, stepped.world⟩
      | .done => ⟨.done, stepped.machine, stepped.world⟩
      | .interrupted => ⟨.interrupted, stepped.machine, stepped.world⟩ := by
  rw [run]
  split
  · rename_i later hraised
    rw [hraised] at h
    cases h
  · rename_i later hraised
    rw [hraised]
    dsimp only
    split <;> rename_i hending <;> rw [hending]

theorem run_of_next {machine next : μ} {world later : σ}
    (hflag : (Environment.raised world).1 = false)
    (hstep : step machine (Environment.raised world).2 = ⟨.next, next, later⟩) :
    run machine world = run next later := by
  rw [run_of_lowered hflag, hstep]

theorem run_of_last {machine last : μ} {world later : σ} (ending : RunEnd)
    (hflag : (Environment.raised world).1 = false)
    (hstep : step machine (Environment.raised world).2 = ⟨ending.toStep, last, later⟩) :
    run machine world = ⟨ending, last, later⟩ := by
  rw [run_of_lowered hflag, hstep]
  cases ending <;> rfl

/--
**What every step keeps, a run keeps.**  The invariant holds before every look at the
flag, and is what a step starts from; the result is what holds when the run ends.
-/
theorem run_rule (invariant : μ → σ → Prop) (result : RunEnd → μ → σ → Prop)
    (hraised : ∀ machine world, invariant machine world → (Environment.raised world).1 = true →
      result .interrupted machine (Environment.raised world).2)
    (hlowered : ∀ machine world, invariant machine world → (Environment.raised world).1 = false →
      invariant machine (Environment.raised world).2)
    (hstep : ∀ machine world, invariant machine world →
      (step machine world).Meets invariant result)
    {machine : μ} {world : σ} (h : invariant machine world) :
    result (run machine world).ending (run machine world).machine (run machine world).world := by
  induction machine using (Ends.wellFounded : WellFounded (Moves : μ → μ → Prop)).induction
    generalizing world with
  | _ machine ih =>
      cases hflag : (Environment.raised world).1 with
      | true =>
          rw [run_of_raised hflag]
          exact hraised machine world h hflag
      | false =>
          have hmeets := hstep machine _ (hlowered machine world h hflag)
          rw [run_of_lowered hflag]
          unfold Stepped.Meets at hmeets
          dsimp only
          split at hmeets
          · rename_i hnext
            exact ih _ ⟨σ, inferInstance, _, hnext, rfl⟩ hmeets
          · exact hmeets
          · exact hmeets
          · exact hmeets

/-- The rule for what a machine keeps in any environment: the flag does not matter then. -/
theorem run_keeps (invariant : μ → Prop) (result : RunEnd → μ → Prop)
    (hinterrupted : ∀ machine, invariant machine → result .interrupted machine)
    (hstep : ∀ machine (world : σ), invariant machine →
      (step machine world).Meets (fun after _ => invariant after)
        (fun ending after _ => result ending after))
    {machine : μ} (world : σ) (h : invariant machine) :
    result (run machine world).ending (run machine world).machine := by
  refine run_rule (fun after _ => invariant after) (fun ending after _ => result ending after)
    ?_ ?_ hstep h
  · intro machine world h _
    exact hinterrupted machine h
  · intro machine world h _
    exact h

/-! ### One run after the other -/

/-- How the runs ended, and the machine after them. -/
structure Runs (μ : Type) where
  endings : List RunEnd
  machine : μ

/-- Runs the machine in one world after the other. -/
def runs (machine : μ) : List World → Runs μ
  | [] => ⟨[], machine⟩
  | world :: worlds =>
    let ran := run machine world.state
    let rest := runs ran.machine worlds
    ⟨ran.ending :: rest.endings, rest.machine⟩

/-- Where a machine stands after a run that ended like this. -/
def Stands (going ended : μ → Prop) : RunEnd → μ → Prop
  | .done => ended
  | .suspended => going
  | .interrupted => going

theorem ended_runs (ended : μ → Prop) {worlds : List World}
    (hended : ∀ world ∈ worlds, ∀ machine, ended machine → ended (run machine world.state).machine)
    {machine : μ} (h : ended machine) : ended (runs machine worlds).machine := by
  induction worlds generalizing machine with
  | nil => exact h
  | cons world rest ih =>
      obtain ⟨hfirst, hrest⟩ := List.forall_mem_cons.mp hended
      exact ih hrest (hfirst machine h)

/--
**What every run keeps, any number of runs keeps.**  A machine is over from the first
run on that says so.
-/
theorem runs_rule (going ended : μ → Prop) {worlds : List World}
    (hgoing : ∀ world ∈ worlds, ∀ machine, going machine →
      Stands going ended (run machine world.state).ending (run machine world.state).machine)
    (hended : ∀ world ∈ worlds, ∀ machine, ended machine → ended (run machine world.state).machine)
    {machine : μ} (h : going machine) :
    (.done ∉ (runs machine worlds).endings ∧ going (runs machine worlds).machine) ∨
    (.done ∈ (runs machine worlds).endings ∧ ended (runs machine worlds).machine) := by
  induction worlds generalizing machine with
  | nil => exact Or.inl ⟨List.not_mem_nil, h⟩
  | cons world rest ih =>
      obtain ⟨hfirst, hrest⟩ := List.forall_mem_cons.mp hgoing
      have hstands := hfirst machine h
      have hended' := (List.forall_mem_cons.mp hended).2
      rw [runs]
      dsimp only
      cases hending : (run machine world.state).ending with
      | done =>
          rw [hending] at hstands
          exact Or.inr ⟨List.mem_cons_self, ended_runs ended hended' hstands⟩
      | suspended =>
          rw [hending] at hstands
          obtain ⟨hnot, hgoes⟩ | ⟨hdone, hends⟩ := ih hrest hended' hstands
          · exact Or.inl ⟨by simpa using hnot, hgoes⟩
          · exact Or.inr ⟨List.mem_cons_of_mem _ hdone, hends⟩
      | interrupted =>
          rw [hending] at hstands
          obtain ⟨hnot, hgoes⟩ | ⟨hdone, hends⟩ := ih hrest hended' hstands
          · exact Or.inl ⟨by simpa using hnot, hgoes⟩
          · exact Or.inr ⟨List.mem_cons_of_mem _ hdone, hends⟩

theorem machine_runs_append (machine : μ) (worlds more : List World) :
    (runs machine (worlds ++ more)).machine =
      (runs (runs machine worlds).machine more).machine := by
  induction worlds generalizing machine with
  | nil => rfl
  | cons world rest ih => exact ih _

end Machine

end BuildConfig
