/-
Nothing is asked once the flag is raised.

The flag of an environment may be raised by any question, in the middle of what a machine
is doing.  `Watched` is an environment that notices when it is asked something while its
flag is raised.  Looking at the flag does not raise it: this is all that is assumed, and
`Steady` are the environments of which it is true.

A request looks at the flag right before it asks, so machines that ask by requests only
never break the rule, in whatever state they are.  `Heeds` is the same for a machine and all
that becomes of it in any number of runs, whether they return or not.  A batch heeds the flag
when the machine that it goes on with does, and a session when its machine does.  And if the
flag is raised from the beginning, nothing happens at all.
-/
import BuildConfig.Evaluation.Session
import BuildConfig.Proofs.Evaluation.Requests
import BuildConfig.Proofs.Mapping.Protocol

namespace BuildConfig

open Environment (Kept Later)

/-- An environment, and whether it was asked while its flag was raised. -/
structure Watched (σ : Type) where
  world : σ
  broken : Bool

namespace Watched

variable {σ : Type}

/-- An environment that was not asked anything so far. -/
def start (world : σ) : Watched σ :=
  ⟨world, false⟩

variable [Environment σ]

instance : Environment (Watched σ) where
  raised watched :=
    ((Environment.raised watched.world).1,
      ⟨(Environment.raised watched.world).2, watched.broken⟩)
  ask key watched :=
    ((Environment.ask key watched.world).1,
      ⟨(Environment.ask key watched.world).2,
        watched.broken || (Environment.raised watched.world).1⟩)

end Watched

/-- Looking at the flag does not raise it. -/
def Environment.Steady {σ : Type} [Environment σ] (world : σ) : Prop :=
  ∀ later, Later world later → (raised later).1 = false → (raised (raised later).2).1 = false

open Environment (Steady)

theorem Environment.Steady.later {σ : Type} [Environment σ] {world after : σ} (h : Steady world)
    (hafter : Later world after) : Steady after :=
  fun later hlater => h later (hafter.trans hlater)

/-- The rule was not broken so far. -/
def Watched.Unbroken {σ : Type} [Environment σ] (watched : Watched σ) : Prop :=
  watched.broken = false ∧ Steady watched.world

/-- **A request does not break the rule**, because it looks at the flag before it asks. -/
private theorem Watched.kept_unbroken {σ : Type} [Environment σ] :
    Kept (Unbroken : Watched σ → Prop) where
  raised watched h := ⟨h.1, h.2.later (.raised .refl)⟩
  request {ε} _ key watched h := by
    cases hraised : (Environment.raised watched).1 with
    | true =>
        rw [Environment.request_of_raised hraised]
        exact ⟨h.1, h.2.later (.raised .refl)⟩
    | false =>
        rw [Environment.request_of_lowered hraised]
        -- At the question the flag is looked at once more, and it is still lowered.
        have hsteady := h.2 watched.world .refl hraised
        refine ⟨?_, h.2.later (.ask (.raised .refl) key)⟩
        show (watched.broken || (Environment.raised (Environment.raised watched.world).2).1) = false
        rw [h.1, hsteady]
        rfl

theorem Watched.Unbroken.eq_start {σ : Type} [Environment σ] {watched : Watched σ}
    (h : watched.Unbroken) : watched = start watched.world :=
  congrArg (Watched.mk watched.world) h.1

private theorem Watched.unbroken_start {σ : Type} [Environment σ] {world : σ} (h : Steady world) :
    Unbroken (start world) :=
  ⟨rfl, h⟩

/-! ### Machines -/

namespace Behaviour

variable {μ : Type}

/-- In a run from here nothing is asked while the flag is raised, and nothing is done if it is. -/
structure Obeys (B : Behaviour μ) (machine : μ) : Prop where
  quiet : ∀ {σ : Type} [Environment σ] (world : σ), Steady world →
    ∀ later, B.Passes machine (Watched.start world) later → later.broken = false
  stops : ∀ {σ : Type} [Environment σ] (world : σ), (Environment.raised world).1 = true →
    ∀ ran, B.Goes machine world ran ↔ ran = ⟨.interrupted, machine, (Environment.raised world).2⟩

/-- The same, now and after any number of runs. -/
def Heeds (B : Behaviour μ) (machine : μ) : Prop :=
  ∀ later, B.Resumed machine later → B.Obeys later

variable {B : Behaviour μ} {machine later : μ}

theorem Heeds.obeys (h : B.Heeds machine) : B.Obeys machine :=
  h machine .start

theorem Heeds.resumed (h : B.Heeds machine) (hlater : B.Resumed machine later) : B.Heeds later :=
  fun last hlast => h last (hlater.trans hlast)

end Behaviour

/-- **Machines that ask by requests only heed the flag**, whatever state they are in. -/
theorem Machine.heeds_of_requests {μ : Type} [Machine μ] [Requests μ] (machine : μ) :
    behaviour.Heeds machine := by
  intro later _
  refine ⟨?_, fun world hraised ran => Behaviour.goes_iff_of_raised hraised⟩
  intro σ _ world hsteady now hpasses
  refine hpasses.rule (fun _ watched => watched.Unbroken) (fun watched => watched.broken = false)
    And.left (fun h => Watched.kept_unbroken.raised _ h) ?_ ?_ (Watched.unbroken_start hsteady)
  · rintro machine watched _ h rfl
    exact (Requests.step_kept Watched.kept_unbroken machine watched h).1
  · intro machine next watched after h hstep
    have hkept := Requests.step_kept Watched.kept_unbroken machine watched h
    rwa [show step machine watched = _ from hstep] at hkept

/-! ### Batches -/

namespace Mapping.Batch

variable {ς ν σ : Type} [Sink ς Delivery] [Environment σ] {B : Behaviour ν} {batch : Batch ς ν}

/-- A step begun without a broken rule breaks none, and when it goes on the flag is still steady. -/
private theorem unbroken_of_does {watched : Watched σ} {act : Act}
    {stepped : Stepped (Batch ς ν) (Watched σ)} (h : B.Heeds batch.after)
    (hunbroken : watched.Unbroken) (hdoes : Does B batch watched act stepped) :
    stepped.world.broken = false ∧ (stepped.ending = .next → stepped.world.Unbroken) := by
  have hfetched : ∀ {fetched : Fetched} {later : Watched σ},
      fetch [] false (locations batch.request) watched = (fetched, later) → later.Unbroken := by
    intro fetched later hfetch
    have hkept := fetch_kept Watched.kept_unbroken [] false (locations batch.request) hunbroken
    rwa [hfetch] at hkept
  cases hdoes with
  | found _ hfetch | lacking _ hfetch | interrupted _ hfetch | refused _ hfetch =>
      exact ⟨(hfetched hfetch).1, fun _ => hfetched hfetch⟩
  | applied _ => exact ⟨hunbroken.1, fun _ => hunbroken⟩
  | @continued ran _ hrun =>
      have hpasses := hrun.passes
      rw [hunbroken.eq_start] at hpasses
      refine ⟨h.obeys.quiet watched.world hunbroken.2 _ hpasses, ?_⟩
      intro hnext
      cases hending : ran.ending <;> simp [hending, RunEnd.toStep] at hnext
  | rested _ => exact ⟨hunbroken.1, fun _ => hunbroken⟩

theorem obeys_of_after (h : B.Heeds batch.after) : (behaviour B).Obeys batch := by
  refine ⟨?_, fun world hraised ran => Behaviour.goes_iff_of_raised hraised⟩
  intro σ _ world hsteady later hpasses
  refine hpasses.rule (fun batch watched => B.Heeds batch.after ∧ watched.Unbroken)
    (fun watched => watched.broken = false) (fun h => h.2.1)
    (fun h => ⟨h.1, Watched.kept_unbroken.raised _ h.2⟩) ?_ ?_
    ⟨h, Watched.unbroken_start hsteady⟩
  · rintro batch watched _ ⟨hafter, hunbroken⟩ (⟨act, stepped, hdoes, rfl⟩ | ⟨-, hpart⟩)
    · exact (unbroken_of_does hafter hunbroken hdoes).1
    · -- The machine promises this of a watch that has just begun, and one that has seen
      -- nothing is no different.
      rw [hunbroken.eq_start] at hpart
      exact hafter.obeys.quiet watched.world hunbroken.2 _ hpart
  · rintro batch next watched after ⟨hafter, hunbroken⟩ hsteps
    refine ⟨hafter.resumed (resumed_after_of_steps hsteps), ?_⟩
    obtain ⟨act, hdoes⟩ := hsteps
    exact (unbroken_of_does hafter hunbroken hdoes).2 rfl

/-- **A batch heeds the flag when the machine that it goes on with does.** -/
theorem heeds_of_after (h : B.Heeds batch.after) : (behaviour B).Heeds batch :=
  fun _ hlater => obeys_of_after (h.resumed (resumed_after hlater))

end Mapping.Batch

/-! ### Sessions -/

namespace Session

variable {μ σ : Type}

section Calls

variable [Environment σ]

/-- A call of the session comes to this, if it comes to something. -/
inductive Goes (B : Behaviour μ) (session : Session μ) (world : σ) : Ran (Session μ) σ → Prop
  | finished (h : session.finished = true) : Goes B session world ⟨.done, session, world⟩
  | raised (h : session.finished = false) (hflag : (Environment.raised world).1 = true) :
      Goes B session world ⟨.interrupted, session, (Environment.raised world).2⟩
  | run {ran : Ran μ σ} (h : session.finished = false)
      (hflag : (Environment.raised world).1 = false)
      (hrun : B.Goes session.machine (Environment.raised world).2 ran) :
      Goes B session world ⟨ran.ending, ⟨ran.machine, ran.ending == .done⟩, ran.world⟩

/-- At some point of a call, over or not, the world is like this. -/
inductive Passes (B : Behaviour μ) (session : Session μ) (world : σ) : σ → Prop
  | start : Passes B session world world
  | look (h : session.finished = false) : Passes B session world (Environment.raised world).2
  | run {later : σ} (h : session.finished = false) (hflag : (Environment.raised world).1 = false)
      (hpart : B.Passes session.machine (Environment.raised world).2 later) :
      Passes B session world later

end Calls

/-- Some calls lead from the first session to this one. -/
inductive Resumed (B : Behaviour μ) (first : Session μ) : Session μ → Prop
  | start : Resumed B first first
  | call {session : Session μ} {world : World} {ran : Ran (Session μ) world.σ}
      (h : Resumed B first session) (hcall : session.Goes B world.state ran) :
      Resumed B first ran.machine

/-- A call asks nothing while the flag is raised, and does nothing if it is. -/
structure Obeys (B : Behaviour μ) (session : Session μ) : Prop where
  quiet : ∀ {σ : Type} [Environment σ] (world : σ), Steady world →
    ∀ later, session.Passes B (Watched.start world) later → later.broken = false
  stops : ∀ {σ : Type} [Environment σ] (world : σ), session.finished = false →
    (Environment.raised world).1 = true →
      ∀ ran, session.Goes B world ran ↔
        ran = ⟨.interrupted, session, (Environment.raised world).2⟩

/-- The same, now and after any number of calls. -/
def Heeds (B : Behaviour μ) (session : Session μ) : Prop :=
  ∀ later, Resumed B session later → later.Obeys B

section Obeys

variable [Environment σ] {B : Behaviour μ} {session : Session μ} {world : σ}
  {ran : Ran (Session μ) σ}

private theorem goes_iff_of_raised (h : session.finished = false)
    (hraised : (Environment.raised world).1 = true) :
    session.Goes B world ran ↔ ran = ⟨.interrupted, session, (Environment.raised world).2⟩ := by
  constructor
  · intro hgoes
    cases hgoes with
    | finished hfinished => simp [h] at hfinished
    | raised _ _ => rfl
    | run _ hflag _ => simp [hraised] at hflag
  · rintro rfl
    exact .raised h hraised

theorem obeys_of_machine (h : B.Obeys session.machine) : session.Obeys B := by
  refine ⟨?_, fun world hfinished hraised ran => goes_iff_of_raised hfinished hraised⟩
  intro σ _ world hsteady later hpasses
  cases hpasses with
  | start => rfl
  | look _ => rfl
  | run _ _ hpart => exact h.quiet _ (hsteady.later (.raised .refl)) _ hpart

theorem Goes.passes (h : session.Goes B world ran) : session.Passes B world ran.world := by
  cases h with
  | finished _ => exact .start
  | raised hfinished _ => exact .look hfinished
  | run hfinished hflag hrun => exact .run hfinished hflag hrun.passes

theorem Resumed.machine {first : Session μ} (h : Resumed B first session) :
    B.Resumed first.machine session.machine := by
  induction h with
  | start => exact .start
  | call _ hcall ih =>
      cases hcall with
      | finished _ => exact ih
      | raised _ _ => exact ih
      | run _ _ hrun => exact ih.trans (.ofGoes hrun)

/-- **A session heeds the flag when its machine does.** -/
theorem heeds_of_machine (h : B.Heeds session.machine) : session.Heeds B :=
  fun _ hlater => obeys_of_machine (h _ hlater.machine)

end Obeys

/-! ### Machines that end -/

section Ends

variable [Machine μ] [Machine.Ends μ] [Environment σ]

/-- One look at the flag, and then the session's machine is run unless it is done already. -/
theorem resume_cases (session : Session μ) (world : σ) :
    (session.finished = true ∧ session.resume world = ⟨.done, session, world⟩) ∨
    (session.finished = false ∧ (Environment.raised world).1 = true ∧
      session.resume world = ⟨.interrupted, session, (Environment.raised world).2⟩) ∨
    (session.finished = false ∧ (Environment.raised world).1 = false ∧
      let ran := Machine.run session.machine (Environment.raised world).2
      session.resume world = ⟨ran.ending, ⟨ran.machine, ran.ending == .done⟩, ran.world⟩) := by
  unfold resume
  cases hfinished : session.finished with
  | true => exact Or.inl ⟨rfl, if_pos rfl⟩
  | false =>
      right
      rw [if_neg Bool.false_ne_true]
      cases Environment.raised world with
      | mk flag later =>
          cases flag with
          | true => exact Or.inl ⟨rfl, rfl, rfl⟩
          | false => exact Or.inr ⟨rfl, rfl, rfl⟩

/-- **When the machine ends, a call comes to what `resume` says.** -/
theorem goes_resume (session : Session μ) (world : σ) :
    session.Goes Machine.behaviour world (session.resume world) := by
  obtain ⟨hfinished, hresume⟩ | ⟨hfinished, hflag, hresume⟩ | ⟨hfinished, hflag, hresume⟩ :=
    session.resume_cases world
  · rw [hresume]
    exact .finished hfinished
  · rw [hresume]
    exact .raised hfinished hflag
  · rw [hresume]
    exact .run hfinished hflag (Machine.goes_iff.mpr rfl)

end Ends

end Session

end BuildConfig
