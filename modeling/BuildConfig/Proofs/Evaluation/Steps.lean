/-
One step after the other.

Whoever runs a machine, keeps it in a session or answers requests with it does nothing to it
but take steps, and each step may be taken in another world.  `Machine.along` is the machine
after one step in each of some worlds, so what holds along all lists of worlds holds of every
machine that can be reached.  `Chain` says of steps that were taken in the end that each of
them began where the one before it had stopped.

A run is such a chain.  `Loops` is the loop of a run with the steps that it takes.  It does not
ask that the machine ends: a loop that goes on for ever comes to nothing.  That a loop ends is
shown by a rank, `exists_loops`, and `length_le` says how soon.
-/
import BuildConfig.Proofs.Evaluation.Attempts

namespace BuildConfig

/-- Whether a step that ends like this has finished a piece of work. -/
def StepEnd.completes : StepEnd → Bool
  | next => true
  | suspended => false
  | done => true
  | interrupted => false

namespace Machine

variable {μ ν σ : Type} [Machine μ]

/-! ### Steps in any worlds -/

/-- The machine after one step in each of the worlds. -/
def along (machine : μ) : List World → μ
  | [] => machine
  | world :: worlds => along (step machine world.state).machine worlds

theorem along_append (machine : μ) (worlds more : List World) :
    along machine (worlds ++ more) = along (along machine worlds) more := by
  induction worlds generalizing machine with
  | nil => rfl
  | cons world rest ih => exact ih _

/-- **What every step keeps is kept along any worlds.** -/
theorem along_rule (invariant : μ → Prop)
    (hstep : ∀ attempt : Attempt μ, invariant attempt.machine → invariant attempt.came.machine)
    {machine : μ} (worlds : List World) (h : invariant machine) :
    invariant (along machine worlds) := by
  induction worlds generalizing machine with
  | nil => exact h
  | cons world rest ih => exact ih (hstep ⟨machine, world⟩ h)

/-! ### Chains -/

/-- The steps lead from one machine to another, each beginning where the one before it stopped. -/
def Chain (machine : μ) : List (Attempt μ) → μ → Prop
  | [], last => last = machine
  | attempt :: rest, last => attempt.machine = machine ∧ Chain attempt.came.machine rest last

theorem Chain.append {first middle last : μ} {taken more : List (Attempt μ)}
    (h : Chain first taken middle) (hmore : Chain middle more last) :
    Chain first (taken ++ more) last := by
  induction taken generalizing first with
  | nil =>
      cases h
      exact hmore
  | cons attempt rest ih => exact ⟨h.1, ih h.2⟩

theorem Chain.single (attempt : Attempt μ) :
    Chain attempt.machine [attempt] attempt.came.machine :=
  ⟨rfl, rfl⟩

theorem Chain.eq_along {first last : μ} {taken : List (Attempt μ)} (h : Chain first taken last) :
    last = along first (taken.map Attempt.world) := by
  induction taken generalizing first with
  | nil => exact h
  | cons attempt rest ih =>
      obtain ⟨rfl, hrest⟩ := h
      exact ih hrest

/-- What every step keeps is kept along a chain. -/
theorem Chain.rule (invariant : List (Attempt μ) → μ → Prop)
    (hstep : ∀ taken (attempt : Attempt μ), invariant taken attempt.machine →
      invariant (taken ++ [attempt]) attempt.came.machine)
    {first last : μ} {before taken : List (Attempt μ)} (h : Chain first taken last)
    (hfirst : invariant before first) : invariant (before ++ taken) last := by
  induction taken generalizing before first with
  | nil =>
      cases h
      rwa [List.append_nil]
  | cons attempt rest ih =>
      obtain ⟨rfl, hrest⟩ := h
      rw [List.append_cons]
      exact ih hrest (hstep before attempt hfirst)

/-- **A run is a chain of steps.** -/
theorem chain_attempts [Ends μ] [Environment σ] (machine : μ) (world : σ) :
    Chain machine (attempts machine world) (run machine world).machine := by
  have hstart : Chain machine [] machine := rfl
  exact attempts_rule (Chain machine) (fun taken attempt h => h.append (.single attempt)) world
    hstart

/-! ### The loop of a run -/

/--
A run takes these steps and comes to this, when steps come to what `steps` says.  Some of
them may come to nothing at all, like a step that waits for another run.
-/
inductive Loops [Environment σ] (steps : ν → σ → Stepped ν σ → Prop) :
    ν → σ → List (Attempt ν) → Ran ν σ → Prop
  | raised {machine : ν} {world : σ} (hflag : (Environment.raised world).1 = true) :
      Loops steps machine world [] ⟨.interrupted, machine, (Environment.raised world).2⟩
  | next {machine next : ν} {world later : σ} {taken : List (Attempt ν)} {ran : Ran ν σ}
      (hflag : (Environment.raised world).1 = false)
      (hstep : steps machine (Environment.raised world).2 ⟨.next, next, later⟩)
      (hrest : Loops steps next later taken ran) :
      Loops steps machine world (⟨machine, ⟨(Environment.raised world).2⟩⟩ :: taken) ran
  | last {machine last : ν} {world later : σ} (ending : RunEnd)
      (hflag : (Environment.raised world).1 = false)
      (hstep : steps machine (Environment.raised world).2 ⟨ending.toStep, last, later⟩) :
      Loops steps machine world [⟨machine, ⟨(Environment.raised world).2⟩⟩] ⟨ending, last, later⟩

/-- A run of the machine takes these steps and comes to this. -/
abbrev Takes [Environment σ] : μ → σ → List (Attempt μ) → Ran μ σ → Prop :=
  Loops fun machine world stepped => step machine world = stepped

section Loops

variable [Environment σ]

/-- **For a machine that ends, a run takes its steps** and comes to what `run` says. -/
theorem takes_attempts [Ends μ] (machine : μ) (world : σ) :
    Takes machine world (attempts machine world) (run machine world) := by
  induction machine using (Ends.wellFounded : WellFounded (Moves : μ → μ → Prop)).induction
    generalizing world with
  | _ machine ih =>
      cases hflag : (Environment.raised world).1 with
      | true =>
          rw [run_of_raised hflag, attempts_of_raised hflag]
          exact .raised hflag
      | false =>
          rw [attempts_of_lowered hflag]
          cases hstep : step machine (Environment.raised world).2 with
          | mk ending next later =>
              cases ending with
              | next =>
                  have hmoves : Moves next machine :=
                    ⟨σ, inferInstance, (Environment.raised world).2, by rw [hstep], by rw [hstep]⟩
                  rw [run_of_next hflag hstep]
                  exact .next hflag hstep (ih next hmoves later)
              | suspended =>
                  rw [run_of_last .suspended hflag hstep]
                  exact .last .suspended hflag hstep
              | done =>
                  rw [run_of_last .done hflag hstep]
                  exact .last .done hflag hstep
              | interrupted =>
                  rw [run_of_last .interrupted hflag hstep]
                  exact .last .interrupted hflag hstep

variable {steps : ν → σ → Stepped ν σ → Prop}

/-- When no step can come to two things, no run can. -/
theorem Loops.unique
    (hunique : ∀ {machine : ν} {world : σ} {stepped other : Stepped ν σ},
      steps machine world stepped → steps machine world other → stepped = other)
    {machine : ν} {world : σ} {taken others : List (Attempt ν)} {ran other : Ran ν σ}
    (h : Loops steps machine world taken ran) (hother : Loops steps machine world others other) :
    ran = other := by
  induction h generalizing others with
  | raised hflag =>
      cases hother with
      | raised _ => rfl
      | next hlowered _ _ => simp [hflag] at hlowered
      | last _ hlowered _ => simp [hflag] at hlowered
  | next hflag hstep _ ih =>
      cases hother with
      | raised hraised => simp [hflag] at hraised
      | next _ hsame hrest =>
          cases hunique hstep hsame
          exact ih hrest
      | last ending _ hsame =>
          have hsteps := hunique hstep hsame
          cases ending <;> cases hsteps
  | last ending hflag hstep =>
      cases hother with
      | raised hraised => simp [hflag] at hraised
      | next _ hsame _ =>
          have hsteps := hunique hstep hsame
          cases ending <;> cases hsteps
      | last other _ hsame =>
          have hsteps := hunique hstep hsame
          cases ending <;> cases other <;> cases hsteps <;> rfl

/-! ### Loops that a rank brings to their end -/

/-- Every step that goes on makes the rank smaller. -/
def Lowers {σ : Type} (rank : ν → Nat) (steps : ν → σ → Stepped ν σ → Prop) : Prop :=
  ∀ {machine next : ν} {world later : σ},
    steps machine world ⟨.next, next, later⟩ → rank next < rank machine

variable {rank : ν → Nat}

theorem Loops.length_le {machine : ν} {world : σ} {taken : List (Attempt ν)} {ran : Ran ν σ}
    (hrank : Lowers rank steps) (h : Loops steps machine world taken ran) :
    taken.length ≤ rank machine + 1 := by
  induction h with
  | raised hflag => exact Nat.zero_le _
  | next hflag hstep _ ih =>
      have hless := hrank hstep
      rw [List.length_cons]
      omega
  | last ending hflag hstep => exact Nat.le_add_left 1 _

theorem Loops.rank_le {machine : ν} {world : σ} {taken : List (Attempt ν)} {ran : Ran ν σ}
    (hrank : Lowers rank steps) (h : Loops steps machine world taken ran) :
    ∀ attempt ∈ taken, rank attempt.machine ≤ rank machine := by
  induction h with
  | raised hflag => simp
  | next hflag hstep _ ih =>
      refine List.forall_mem_cons.mpr ⟨Nat.le_refl _, ?_⟩
      intro attempt hmem
      exact Nat.le_trans (ih attempt hmem) (Nat.le_of_lt (hrank hstep))
  | last ending hflag hstep => exact List.forall_mem_singleton.mpr (Nat.le_refl _)

theorem Loops.pairwise_rank {machine : ν} {world : σ} {taken : List (Attempt ν)} {ran : Ran ν σ}
    (hrank : Lowers rank steps) (h : Loops steps machine world taken ran) :
    taken.Pairwise fun earlier later => rank later.machine < rank earlier.machine := by
  induction h with
  | raised hflag => exact .nil
  | next hflag hstep hrest ih =>
      refine .cons ?_ ih
      intro attempt hmem
      exact Nat.lt_of_le_of_lt (hrest.rank_le hrank attempt hmem) (hrank hstep)
  | last ending hflag hstep => exact List.pairwise_singleton _ _

/-- **What every step keeps, a loop keeps**; earlier steps come before its own. -/
theorem Loops.rule (invariant : List (Attempt ν) → ν → Prop)
    (hkeeps : ∀ {taken : List (Attempt ν)} {machine : ν} {world : σ} {stepped : Stepped ν σ},
      invariant taken machine → steps machine world stepped →
        invariant (taken ++ [⟨machine, ⟨world⟩⟩]) stepped.machine)
    {machine : ν} {world : σ} {taken : List (Attempt ν)} {ran : Ran ν σ}
    (h : Loops steps machine world taken ran) (before : List (Attempt ν))
    (hbefore : invariant before machine) :
    invariant (before ++ taken) ran.machine := by
  induction h generalizing before with
  | raised hflag => rwa [List.append_nil]
  | next hflag hstep _ ih =>
      rw [List.append_cons]
      exact ih _ (hkeeps hbefore hstep)
  | last ending hflag hstep => exact hkeeps hbefore hstep

/-- **A run ends when all of its steps come to something and those that go on lower a rank.** -/
theorem exists_loops {going : ν → Prop} (hrank : Lowers rank steps)
    (hkeeps : ∀ {machine : ν} {world : σ} {stepped : Stepped ν σ}, going machine →
      steps machine world stepped → going stepped.machine)
    (hstep : ∀ {machine : ν} (world : σ), going machine → ∃ stepped, steps machine world stepped)
    {machine : ν} (world : σ) (h : going machine) :
    ∃ taken ran, Loops steps machine world taken ran := by
  induction hmeasure : rank machine using Nat.strongRecOn generalizing machine world with
  | _ measure ih =>
      cases hflag : (Environment.raised world).1 with
      | true => exact ⟨_, _, .raised hflag⟩
      | false =>
          obtain ⟨⟨ending, next, later⟩, hsteps⟩ := hstep (Environment.raised world).2 h
          cases ending with
          | next =>
              obtain ⟨taken, ran, hrest⟩ :=
                ih _ (hmeasure ▸ hrank hsteps) later (hkeeps h hsteps) rfl
              exact ⟨_, _, .next hflag hsteps hrest⟩
          | suspended => exact ⟨_, _, .last .suspended hflag hsteps⟩
          | done => exact ⟨_, _, .last .done hflag hsteps⟩
          | interrupted => exact ⟨_, _, .last .interrupted hflag hsteps⟩

end Loops

end Machine

end BuildConfig
