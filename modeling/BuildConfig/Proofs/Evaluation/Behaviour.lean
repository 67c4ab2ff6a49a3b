/-
Machines that need not end.

`Machine.run` is for machines that cannot be moved on for ever, whatever they meet.  Others
poll, or follow one key to the next, and whether they return is up to the environment; and a
machine that runs such a one inside a step of its own may not even come to the end of that
step.  A `Behaviour` says of all of them what their steps come to, and some may come to
nothing.  `Machine.behaviour` is the one of the machines whose steps always come to something.

Runs are put together from the steps.  `Takes` is a run that returns, with the steps that it
takes, and `Begins` are the first steps of a run, whether it returns or not.  `Passes` are the
worlds on the way, also those in the middle of a step that comes to nothing.  `TakesOn` and
`GoesOn` are runs in one world after the other, and `Resumed` are the machines that runs lead
to.  For a machine that ends, all this is what `Machine.run` says: `goes_iff`.
-/
import BuildConfig.Proofs.Evaluation.Steps

namespace BuildConfig

/-- What the steps of machines of a type come to, if they come to something. -/
structure Behaviour (μ : Type) where
  /-- A step comes to this. -/
  Steps : {σ : Type} → [Environment σ] → μ → σ → Stepped μ σ → Prop
  /-- At some point of a step, over or not, the world is like this. -/
  Within : {σ : Type} → [Environment σ] → μ → σ → σ → Prop
  /-- No step comes to two things. -/
  unique : ∀ {σ : Type} [Environment σ] {machine : μ} {world : σ} {stepped other : Stepped μ σ},
    Steps machine world stepped → Steps machine world other → stepped = other
  /-- The world that a step ends in is one of those. -/
  within : ∀ {σ : Type} [Environment σ] {machine : μ} {world : σ} {stepped : Stepped μ σ},
    Steps machine world stepped → Within machine world stepped.world

/-- The steps of a machine always come to something. -/
def Machine.behaviour {μ : Type} [Machine μ] : Behaviour μ where
  Steps machine world stepped := step machine world = stepped
  Within machine world later := (step machine world).world = later
  unique h hother := h.symm.trans hother
  within h := congrArg Stepped.world h

namespace Behaviour

variable {μ σ : Type} [Environment σ]

/-! ### One run -/

/-- A run takes these steps and comes to this. -/
abbrev Takes (B : Behaviour μ) : μ → σ → List (Attempt μ) → Ran μ σ → Prop :=
  Machine.Loops B.Steps

/-- A run comes to this. -/
def Goes (B : Behaviour μ) (machine : μ) (world : σ) (ran : Ran μ σ) : Prop :=
  ∃ taken, B.Takes machine world taken ran

/-- A run begins with these steps, all of which go on, and they lead to this machine. -/
inductive Begins (B : Behaviour μ) : μ → σ → List (Attempt μ) → μ → Prop
  | start {machine : μ} {world : σ} : Begins B machine world [] machine
  | next {machine next last : μ} {world later : σ} {taken : List (Attempt μ)}
      (hflag : (Environment.raised world).1 = false)
      (hstep : B.Steps machine (Environment.raised world).2 ⟨.next, next, later⟩)
      (hrest : Begins B next later taken last) :
      Begins B machine world (⟨machine, ⟨(Environment.raised world).2⟩⟩ :: taken) last

/-- At some point of a run, over or not, the world is like this. -/
inductive Passes (B : Behaviour μ) : μ → σ → σ → Prop
  | start {machine : μ} {world : σ} : Passes B machine world world
  | look {machine : μ} {world : σ} : Passes B machine world (Environment.raised world).2
  | within {machine : μ} {world later : σ} (hflag : (Environment.raised world).1 = false)
      (hwithin : B.Within machine (Environment.raised world).2 later) :
      Passes B machine world later
  | next {machine next : μ} {world after later : σ}
      (hflag : (Environment.raised world).1 = false)
      (hstep : B.Steps machine (Environment.raised world).2 ⟨.next, next, after⟩)
      (hrest : Passes B next after later) : Passes B machine world later

variable {B : Behaviour μ} {machine : μ} {world : σ} {ran other : Ran μ σ}

theorem Goes.unique (h : B.Goes machine world ran) (hother : B.Goes machine world other) :
    ran = other := by
  obtain ⟨taken, htaken⟩ := h
  obtain ⟨others, hothers⟩ := hother
  refine Machine.Loops.unique ?_ htaken hothers
  exact fun hsteps hsame => B.unique hsteps hsame

/-- With the flag raised there is nothing else that a run can come to. -/
theorem goes_iff_of_raised (h : (Environment.raised world).1 = true) :
    B.Goes machine world ran ↔ ran = ⟨.interrupted, machine, (Environment.raised world).2⟩ := by
  have hraised : B.Goes machine world ⟨.interrupted, machine, (Environment.raised world).2⟩ :=
    ⟨[], .raised h⟩
  constructor
  · exact fun hran => hran.unique hraised
  · rintro rfl
    exact hraised

theorem Goes.passes (h : B.Goes machine world ran) : B.Passes machine world ran.world := by
  obtain ⟨taken, htaken⟩ := h
  induction htaken with
  | raised hflag => exact .look
  | next hflag hstep _ ih => exact .next hflag hstep ih
  | last ending hflag hstep => exact .within hflag (B.within hstep)

/-- What holds of a run all the way holds of the worlds that it passes. -/
theorem Passes.rule (invariant : μ → σ → Prop) (result : σ → Prop)
    (hnow : ∀ {machine : μ} {world : σ}, invariant machine world → result world)
    (hlook : ∀ {machine : μ} {world : σ}, invariant machine world →
      invariant machine (Environment.raised world).2)
    (hwithin : ∀ {machine : μ} {world later : σ}, invariant machine world →
      B.Within machine world later → result later)
    (hnext : ∀ {machine next : μ} {world later : σ}, invariant machine world →
      B.Steps machine world ⟨.next, next, later⟩ → invariant next later)
    {later : σ} (h : B.Passes machine world later) (hinvariant : invariant machine world) :
    result later := by
  induction h with
  | start => exact hnow hinvariant
  | look => exact hnow (hlook hinvariant)
  | within hflag hpart => exact hwithin (hlook hinvariant) hpart
  | next hflag hstep _ ih => exact ih (hnext (hlook hinvariant) hstep)

/-- What every step keeps, the first steps of a run keep. -/
theorem Begins.rule (invariant : List (Attempt μ) → μ → Prop)
    (hkeeps : ∀ {taken : List (Attempt μ)} {machine : μ} {world : σ} {stepped : Stepped μ σ},
      invariant taken machine → B.Steps machine world stepped →
        invariant (taken ++ [⟨machine, ⟨world⟩⟩]) stepped.machine)
    {machine last : μ} {taken : List (Attempt μ)} (h : B.Begins machine world taken last)
    (before : List (Attempt μ)) (hbefore : invariant before machine) :
    invariant (before ++ taken) last := by
  induction h generalizing before with
  | start => rwa [List.append_nil]
  | next hflag hstep _ ih =>
      rw [List.append_cons]
      exact ih _ (hkeeps hbefore hstep)

theorem ending_eq_done_iff {taken : List (Attempt μ)} (h : B.Takes machine world taken ran) :
    ran.ending = .done ↔ ∃ attempt ∈ taken, ∃ stepped,
      B.Steps attempt.machine attempt.world.state stepped ∧ stepped.ending = .done := by
  induction h with
  | raised hflag => simp
  | next hflag hstep _ ih =>
      rw [ih]
      simp only [List.mem_cons, exists_eq_or_imp]
      refine ⟨Or.inr, ?_⟩
      rintro (⟨stepped, hsteps, hdone⟩ | hmore)
      · rw [← B.unique hstep hsteps] at hdone
        cases hdone
      · exact hmore
  | @last machine last world later ending hflag hstep =>
      simp only [List.mem_singleton, exists_eq_left]
      constructor
      · rintro rfl
        exact ⟨_, hstep, rfl⟩
      · rintro ⟨stepped, hsteps, hdone⟩
        rw [← B.unique hstep hsteps] at hdone
        cases ending <;> cases hdone
        rfl

theorem Begins.ending_ne_done {last : μ} {taken : List (Attempt μ)}
    (h : B.Begins machine world taken last) :
    ¬ ∃ attempt ∈ taken, ∃ stepped,
      B.Steps attempt.machine attempt.world.state stepped ∧ stepped.ending = .done := by
  induction h with
  | start => simp
  | next hflag hstep _ ih =>
      rintro ⟨attempt, hmem, stepped, hsteps, hdone⟩
      obtain rfl | hrest := List.mem_cons.mp hmem
      · rw [← B.unique hstep hsteps] at hdone
        cases hdone
      · exact ih ⟨attempt, hrest, stepped, hsteps, hdone⟩

/-! ### One run after the other -/

/--
Runs in one world after the other take these steps and come to this.  All but the last one
return; of the last one there may only be the first steps, as it is still under way.
-/
inductive TakesOn (B : Behaviour μ) : μ → List World → List (Attempt μ) → Machine.Runs μ → Prop
  | nil {machine : μ} : TakesOn B machine [] [] ⟨[], machine⟩
  | underWay {machine last : μ} {world : World} {taken : List (Attempt μ)}
      (h : B.Begins machine world.state taken last) :
      TakesOn B machine [world] taken ⟨[], last⟩
  | cons {machine : μ} {world : World} {worlds : List World} {taken more : List (Attempt μ)}
      {ran : Ran μ world.σ} {rest : Machine.Runs μ} (hfirst : B.Takes machine world.state taken ran)
      (hrest : TakesOn B ran.machine worlds more rest) :
      TakesOn B machine (world :: worlds) (taken ++ more)
        ⟨ran.ending :: rest.endings, rest.machine⟩

/-- Runs in one world after the other come to this. -/
inductive GoesOn (B : Behaviour μ) : μ → List World → Machine.Runs μ → Prop
  | nil {machine : μ} : GoesOn B machine [] ⟨[], machine⟩
  | cons {machine : μ} {world : World} {worlds : List World} {ran : Ran μ world.σ}
      {rest : Machine.Runs μ} (hfirst : B.Goes machine world.state ran)
      (hrest : GoesOn B ran.machine worlds rest) :
      GoesOn B machine (world :: worlds) ⟨ran.ending :: rest.endings, rest.machine⟩

/-- Some runs lead from the first machine to this one. -/
inductive Resumed (B : Behaviour μ) (first : μ) : μ → Prop
  | start : Resumed B first first
  | run {machine : μ} {world : World} {ran : Ran μ world.σ} (h : Resumed B first machine)
      (hrun : B.Goes machine world.state ran) : Resumed B first ran.machine

/-- However often the machine is run, each of its runs comes to something. -/
def Returns (B : Behaviour μ) (machine : μ) : Prop :=
  ∀ later, B.Resumed machine later → ∀ world : World, ∃ ran, B.Goes later world.state ran

/-- **What every step keeps, any number of runs keeps**, with all the steps that were taken. -/
theorem TakesOn.rule (invariant : List (Attempt μ) → μ → Prop)
    (hkeeps : ∀ {taken : List (Attempt μ)} {attempt : Attempt μ}
      {stepped : Stepped μ attempt.world.σ}, invariant taken attempt.machine →
        B.Steps attempt.machine attempt.world.state stepped →
          invariant (taken ++ [attempt]) stepped.machine)
    {machine : μ} {worlds : List World} {taken : List (Attempt μ)} {ran : Machine.Runs μ}
    (h : B.TakesOn machine worlds taken ran) (before : List (Attempt μ))
    (hbefore : invariant before machine) : invariant (before ++ taken) ran.machine := by
  induction h generalizing before with
  | nil => rwa [List.append_nil]
  | underWay h => exact h.rule invariant (fun hbefore hstep => hkeeps hbefore hstep) before hbefore
  | cons hfirst _ ih =>
      have hran := hfirst.rule invariant (fun hbefore hstep => hkeeps hbefore hstep) before hbefore
      rw [← List.append_assoc]
      exact ih _ hran

theorem TakesOn.done_mem_endings_iff {machine : μ} {worlds : List World}
    {taken : List (Attempt μ)} {ran : Machine.Runs μ} (h : B.TakesOn machine worlds taken ran) :
    .done ∈ ran.endings ↔ ∃ attempt ∈ taken, ∃ stepped,
      B.Steps attempt.machine attempt.world.state stepped ∧ stepped.ending = .done := by
  induction h with
  | nil => simp
  | underWay h => exact iff_of_false List.not_mem_nil h.ending_ne_done
  | cons hfirst _ ih =>
      rw [List.mem_cons, ih, eq_comm, ending_eq_done_iff hfirst]
      simp only [List.mem_append, or_and_right, exists_or]

theorem GoesOn.snoc {machine : μ} {worlds : List World} {runs : Machine.Runs μ} {world : World}
    {ran : Ran μ world.σ} (h : B.GoesOn machine worlds runs)
    (hlast : B.Goes runs.machine world.state ran) :
    B.GoesOn machine (worlds ++ [world]) ⟨runs.endings ++ [ran.ending], ran.machine⟩ := by
  induction h with
  | nil => exact .cons hlast .nil
  | cons hfirst _ ih => exact .cons hfirst (ih hlast)

theorem Resumed.trans {first middle last : μ} (h : B.Resumed first middle)
    (hmore : B.Resumed middle last) : B.Resumed first last := by
  induction hmore with
  | start => exact h
  | run _ hrun ih => exact .run ih hrun

theorem Resumed.ofGoes (h : B.Goes machine world ran) : B.Resumed machine ran.machine := by
  have hrun : B.Goes machine (World.mk world).state ran := h
  exact .run .start hrun

theorem Returns.resumed {later : μ} (h : B.Returns machine) (hlater : B.Resumed machine later) :
    B.Returns later :=
  fun last hlast => h last (hlater.trans hlast)

end Behaviour

/-! ### Machines that end -/

namespace Machine

variable {μ σ : Type} [Machine μ] [Ends μ] [Environment σ]

/-- **For a machine that ends, a run comes to what `run` says.** -/
theorem goes_iff {machine : μ} {world : σ} {ran : Ran μ σ} :
    behaviour.Goes machine world ran ↔ run machine world = ran := by
  have hrun : behaviour.Goes machine world (run machine world) :=
    ⟨attempts machine world, takes_attempts machine world⟩
  constructor
  · exact fun hran => hrun.unique hran
  · rintro rfl
    exact hrun

/-- A machine that cannot be moved on for ever always returns. -/
theorem returns_of_ends (machine : μ) : behaviour.Returns machine :=
  fun later _ world => ⟨run later world.state, goes_iff.mpr rfl⟩

end Machine

end BuildConfig
