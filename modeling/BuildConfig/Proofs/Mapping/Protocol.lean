/-
The protocol of a batch.

A batch promises the machine that it goes on with two things: the delivery is made before
that machine takes its first step, and from then on the batch does nothing of its own.
The promise has to hold however often the batch is stopped, and whatever the machine is: it
may be one that need not end, so all that is known of it is its `Behaviour`.

`Does` says all that one step can be, with what it makes of the batch and of the world, and
`Batch.behaviour` is what that makes of the behaviour of the machine.
`Course` puts the steps of any number of runs in order: some that prepare the delivery, the
one that makes it, then the runs of the machine up to the first that leaves nothing to do,
and after that steps in which nothing happens.
-/
import BuildConfig.Evaluation.Script
import BuildConfig.Evaluation.Store
import BuildConfig.Mapping.Batch
import BuildConfig.Proofs.Evaluation.Behaviour
import Mathlib.Data.List.Forall2
import Mathlib.Order.WellFounded

namespace BuildConfig

theorem exists_mem_of_forall₂ {α β : Type*} {r : α → β → Prop} {as : List α} {bs : List β}
    (h : as.Forall₂ r bs) {a : α} (ha : a ∈ as) : ∃ b ∈ bs, r a b := by
  induction h with
  | nil => simp at ha
  | cons hfirst hrest ih =>
      obtain rfl | hmem := List.mem_cons.mp ha
      · exact ⟨_, List.mem_cons_self, hfirst⟩
      · obtain ⟨b, hb, hr⟩ := ih hmem
        exact ⟨b, List.mem_cons_of_mem _ hb, hr⟩

namespace Mapping.Batch

/-- What a batch can do in a step. -/
inductive Act
  /-- It asks for rules and delivers nothing. -/
  | prepared
  /-- It makes a delivery. -/
  | delivered (delivery : Delivery)
  /-- It runs the machine that it goes on with. -/
  | continued (ending : RunEnd)
  /-- It does nothing. -/
  | rested

/-- The stage after a run of the machine that a batch goes on with. -/
def Stage.afterRun : RunEnd → Stage
  | .done => .finished
  | .suspended => .continuing
  | .interrupted => .continuing

variable {ς ν σ : Type}

/-- The batch after a run of the machine that it goes on with. -/
def afterRun (batch : Batch ς ν) (ran : Ran ν σ) : Batch ς ν :=
  { batch with after := ran.machine, stage := Stage.afterRun ran.ending }

variable [Sink ς Delivery]

/-- How a step ends that has asked for the rules, and the batch after it. -/
def afterFetch (batch : Batch ς ν) : Fetched → StepEnd × Batch ς ν
  | .complete table => (.next, { batch with stage := .applying table })
  | .lacking => (.suspended, batch)
  | .refused e => (.next, batch.deliver (.error (.mapping e)))
  | .interrupted => (.interrupted, batch)

/-! ### One step -/

/--
What a step does, and what it makes of the batch and of the world.  The machine that the
batch goes on with is run inside a step, which is over when that run is.
-/
inductive Does [Environment σ] (B : Behaviour ν) (batch : Batch ς ν) (world : σ) :
    Act → Stepped (Batch ς ν) σ → Prop
  | found {table : Table} {later : σ} (hstage : batch.stage = .fetching)
      (h : fetch [] false (locations batch.request) world = (.complete table, later)) :
      Does B batch world .prepared ⟨.next, { batch with stage := .applying table }, later⟩
  | lacking {later : σ} (hstage : batch.stage = .fetching)
      (h : fetch [] false (locations batch.request) world = (.lacking, later)) :
      Does B batch world .prepared ⟨.suspended, batch, later⟩
  | interrupted {later : σ} (hstage : batch.stage = .fetching)
      (h : fetch [] false (locations batch.request) world = (.interrupted, later)) :
      Does B batch world .prepared ⟨.interrupted, batch, later⟩
  | refused {e : MappingError} {later : σ} (hstage : batch.stage = .fetching)
      (h : fetch [] false (locations batch.request) world = (.refused e, later)) :
      Does B batch world (.delivered (.error (.mapping e)))
        ⟨.next, batch.deliver (.error (.mapping e)), later⟩
  | applied {table : Table} (hstage : batch.stage = .applying table) :
      Does B batch world (.delivered (outcome batch.request table))
        ⟨.next, batch.deliver (outcome batch.request table), world⟩
  | continued {ran : Ran ν σ} (hstage : batch.stage = .continuing)
      (hrun : B.Goes batch.after world ran) :
      Does B batch world (.continued ran.ending)
        ⟨ran.ending.toStep, batch.afterRun ran, ran.world⟩
  | rested (hstage : batch.stage = .finished) : Does B batch world .rested ⟨.done, batch, world⟩

section Does

variable [Environment σ] {B : Behaviour ν} {batch : Batch ς ν} {world : σ} {act other : Act}
  {stepped came : Stepped (Batch ς ν) σ}

theorem Does.unique (h : Does B batch world act stepped) (hother : Does B batch world other came) :
    stepped = came := by
  -- Another stage or another answer to the requests is another step.
  cases h with
  | continued hstage hrun =>
      cases hother with
      | continued _ hsame => rw [hrun.unique hsame]
      | _ => simp_all
  | _ => cases hother <;> simp_all

theorem Does.ending_eq_done_iff (h : Does B batch world act stepped) :
    stepped.ending = .done ↔ act = .continued .done ∨ act = .rested := by
  cases h with
  | @continued ran hstage hrun => cases ran.ending <;> simp [RunEnd.toStep]
  | found hstage h => simp
  | lacking hstage h => simp
  | interrupted hstage h => simp
  | refused hstage h => simp
  | applied hstage => simp
  | rested hstage => simp

/-- Whatever the answers are, asking for the rules is a step. -/
theorem exists_does_of_fetching (h : batch.stage = .fetching) {fetched : Fetched} {later : σ}
    (hfetch : fetch [] false (locations batch.request) world = (fetched, later)) :
    ∃ act, Does B batch world act
      ⟨(batch.afterFetch fetched).1, (batch.afterFetch fetched).2, later⟩ := by
  cases fetched with
  | complete table => exact ⟨_, .found h hfetch⟩
  | lacking => exact ⟨_, .lacking h hfetch⟩
  | refused e => exact ⟨_, .refused h hfetch⟩
  | interrupted => exact ⟨_, .interrupted h hfetch⟩

end Does

/-- How batches behave that go on with machines which behave like this. -/
def behaviour (B : Behaviour ν) : Behaviour (Batch ς ν) where
  Steps batch world stepped := ∃ act, Does B batch world act stepped
  Within batch world later :=
    (∃ act stepped, Does B batch world act stepped ∧ stepped.world = later) ∨
      batch.stage = .continuing ∧ B.Passes batch.after world later
  unique := by
    rintro σ _ batch world stepped other ⟨act, hdoes⟩ ⟨otherAct, hother⟩
    exact hdoes.unique hother
  within := by
    rintro σ _ batch world stepped ⟨act, hdoes⟩
    exact Or.inl ⟨act, stepped, hdoes, rfl⟩

section Behaviour

variable [Environment σ] {B : Behaviour ν} {batch : Batch ς ν} {world : σ}
  {stepped : Stepped (Batch ς ν) σ}

/-- A step runs the machine that the batch goes on with, or leaves it as it is. -/
theorem resumed_after_of_steps (h : (behaviour B).Steps batch world stepped) :
    B.Resumed batch.after stepped.machine.after := by
  obtain ⟨act, hdoes⟩ := h
  cases hdoes with
  | continued _ hrun => exact .ofGoes hrun
  | _ => exact .start

/-- **Nothing becomes of the machine but what its own runs make of it.** -/
theorem resumed_after {first : Batch ς ν} (h : (behaviour B).Resumed first batch) :
    B.Resumed first.after batch.after := by
  induction h with
  | start => exact .start
  | run _ hrun ih =>
      obtain ⟨taken, htaken⟩ := hrun
      exact htaken.rule (fun _ batch => B.Resumed first.after batch.after)
        (fun hresumed hstep => hresumed.trans (resumed_after_of_steps hstep)) [] ih

end Behaviour

/-! ### Machines that end -/

section Ends

variable [Machine ν] [Machine.Ends ν] [Environment σ] {batch : Batch ς ν} {world : σ}

theorem step_of_fetching (h : batch.stage = .fetching) {later : σ} {fetched : Fetched}
    (hfetch : fetch [] false (locations batch.request) world = (fetched, later)) :
    batch.step world = ⟨(batch.afterFetch fetched).1, (batch.afterFetch fetched).2, later⟩ := by
  unfold step afterFetch
  simp only [h, hfetch]
  cases fetched <;> rfl

/-- Once the outcome is delivered, a step is a run of the machine that the batch goes on with. -/
theorem step_of_continuing (h : batch.stage = .continuing) (world : σ) :
    batch.step world =
      ⟨(Machine.run batch.after world).ending.toStep,
        batch.afterRun (Machine.run batch.after world), (Machine.run batch.after world).world⟩ := by
  unfold step afterRun
  rw [h]
  dsimp only
  cases (Machine.run batch.after world).ending with
  | suspended => simp [RunEnd.toStep, Stage.afterRun, ← h]
  | interrupted => simp [RunEnd.toStep, Stage.afterRun, ← h]
  | done => simp [RunEnd.toStep, Stage.afterRun]

theorem run_of_continuing {ran : Ran ν σ} (h : batch.stage = .continuing)
    (hflag : (Environment.raised world).1 = false)
    (hran : Machine.run batch.after (Environment.raised world).2 = ran) :
    Machine.run batch world = ⟨ran.ending, batch.afterRun ran, ran.world⟩ := by
  subst hran
  exact Machine.run_of_last _ hflag (step_of_continuing h _)

/-- **A step does one of these things and nothing else.** -/
theorem step_does (batch : Batch ς ν) (world : σ) :
    ∃ act, Does Machine.behaviour batch world act (batch.step world) := by
  cases hstage : batch.stage with
  | fetching =>
      cases hfetch : fetch [] false (locations batch.request) world with
      | mk fetched later =>
          rw [step_of_fetching hstage hfetch]
          exact exists_does_of_fetching hstage hfetch
  | applying table =>
      unfold step
      simp only [hstage]
      exact ⟨_, .applied hstage⟩
  | continuing =>
      rw [step_of_continuing hstage]
      exact ⟨_, .continued hstage (Machine.goes_iff.mpr rfl)⟩
  | finished =>
      unfold step
      simp only [hstage]
      exact ⟨_, .rested hstage⟩

theorem steps_iff {stepped : Stepped (Batch ς ν) σ} :
    (behaviour Machine.behaviour).Steps batch world stepped ↔
      Machine.step batch world = stepped := by
  have hstep : (behaviour Machine.behaviour).Steps batch world (Machine.step batch world) :=
    step_does batch world
  constructor
  · exact fun hstepped => (behaviour Machine.behaviour).unique hstep hstepped
  · rintro rfl
    exact hstep

theorem takes_iff {taken : List (Attempt (Batch ς ν))} {ran : Ran (Batch ς ν) σ} :
    (behaviour Machine.behaviour).Takes batch world taken ran ↔
      Machine.Takes batch world taken ran := by
  have hsteps : (behaviour Machine.behaviour).Steps =
      fun (batch : Batch ς ν) (world : σ) stepped => Machine.step batch world = stepped := by
    funext batch world stepped
    exact propext steps_iff
  rw [Behaviour.Takes, hsteps]

end Ends

/-! ### All steps -/

/--
The steps of a batch up to now, by the worlds that they were taken in, and the batch after
them; `sink` and `after` are the sink and the machine that it was started with.
-/
inductive Course (B : Behaviour ν) (sink : ς) (after : ν) :
    List World → List Act → Batch ς ν → Prop
  /-- Nothing was delivered yet, and the machine was not run. -/
  | preparing {worlds : List World} {batch : Batch ς ν}
      (hstage : batch.stage = .fetching ∨ ∃ table, batch.stage = .applying table)
      (hsink : batch.sink = sink) (hafter : batch.after = after) :
      Course B sink after worlds (.replicate worlds.length .prepared) batch
  /-- One delivery was made, and since then there were only runs of the machine. -/
  | continuing {before worlds : List World} {call : World} {delivery : Delivery}
      {endings : List RunEnd} {batch : Batch ς ν} (hstage : batch.stage = .continuing)
      (hsink : batch.sink = Sink.accept sink delivery)
      (hruns : B.GoesOn after worlds ⟨endings, batch.after⟩) (hgoing : .done ∉ endings) :
      Course B sink after (before ++ call :: worlds)
        (.replicate before.length .prepared ++ .delivered delivery :: endings.map .continued) batch
  /-- The last of these runs left nothing to do, and since then nothing was done. -/
  | ended {before worlds idle : List World} {call last : World} {delivery : Delivery}
      {endings : List RunEnd} {batch : Batch ς ν} (hstage : batch.stage = .finished)
      (hsink : batch.sink = Sink.accept sink delivery)
      (hruns : B.GoesOn after (worlds ++ [last]) ⟨endings ++ [.done], batch.after⟩)
      (hgoing : .done ∉ endings) :
      Course B sink after (before ++ call :: (worlds ++ [last]) ++ idle)
        (.replicate before.length .prepared ++
          .delivered delivery :: (endings ++ [RunEnd.done]).map .continued ++
            .replicate idle.length .rested) batch

namespace Course

variable {B : Behaviour ν} {sink : ς} {after : ν} {worlds : List World} {acts : List Act}
  {batch : Batch ς ν}

theorem start (request : SortedMap String Bundle) (sink : ς) (after : ν) :
    Course B sink after [] [] (.start request sink after) :=
  .preparing (Or.inl rfl) rfl rfl

theorem deliver (hsink : batch.sink = sink) (hafter : batch.after = after) (delivery : Delivery)
    (call : World) :
    Course B sink after (worlds ++ [call])
      (List.replicate worlds.length .prepared ++ [.delivered delivery])
      (batch.deliver delivery) :=
  .continuing rfl (congrArg (Sink.accept · delivery) hsink) (hafter ▸ .nil) List.not_mem_nil

theorem goOn {before : List World} {call world : World} {delivery : Delivery}
    {endings : List RunEnd} {ran : Ran ν world.σ} (hsink : batch.sink = Sink.accept sink delivery)
    (hruns : B.GoesOn after worlds ⟨endings, batch.after⟩) (hgoing : .done ∉ endings)
    (hrun : B.Goes batch.after world.state ran) :
    Course B sink after (before ++ call :: worlds ++ [world])
      (List.replicate before.length .prepared ++ .delivered delivery :: endings.map .continued ++
        [.continued ran.ending]) (batch.afterRun ran) := by
  -- The machine's own runs are one more, with the ending that the step has.
  have hmore : B.GoesOn after (worlds ++ [world]) ⟨endings ++ [ran.ending], ran.machine⟩ :=
    hruns.snoc hrun
  have hacts : endings.map Act.continued ++ [.continued ran.ending] =
      (endings ++ [ran.ending]).map .continued := by
    rw [List.map_append, List.map_singleton]
  rw [List.append_assoc, List.append_assoc, List.cons_append, List.cons_append, hacts]
  by_cases hdone : ran.ending = .done
  · rw [hdone] at hmore ⊢
    have hover : Course B sink after (before ++ call :: (worlds ++ [world]) ++ []) _
        (batch.afterRun ran) := .ended (by rw [afterRun, hdone]; rfl) hsink hmore hgoing
    simpa using hover
  · refine .continuing ?_ hsink hmore ?_
    · rw [afterRun]
      cases hending : ran.ending with
      | done => exact absurd hending hdone
      | suspended => rfl
      | interrupted => rfl
    · rw [List.mem_append, List.mem_singleton, not_or]
      exact ⟨hgoing, Ne.symm hdone⟩

/-- **Every step keeps to the course.** -/
theorem step {world : World} {act : Act} {stepped : Stepped (Batch ς ν) world.σ}
    (h : Course B sink after worlds acts batch) (hdoes : Does B batch world.state act stepped) :
    Course B sink after (worlds ++ [world]) (acts ++ [act]) stepped.machine := by
  cases h with
  | preparing hstage hsink hafter =>
      have hprepared : ∀ next : Batch ς ν,
          (next.stage = .fetching ∨ ∃ table, next.stage = .applying table) →
          next.sink = sink → next.after = after →
          Course B sink after (worlds ++ [world])
            (List.replicate worlds.length .prepared ++ [.prepared]) next := by
        intro next hnext hsink hafter
        have hcourse : Course B sink after (worlds ++ [world]) _ next :=
          .preparing hnext hsink hafter
        rwa [List.length_append, List.length_singleton, List.replicate_succ'] at hcourse
      cases hdoes with
      | found _ h => exact hprepared _ (Or.inr ⟨_, rfl⟩) hsink hafter
      | lacking _ h => exact hprepared _ hstage hsink hafter
      | interrupted _ h => exact hprepared _ hstage hsink hafter
      | refused _ h => exact deliver hsink hafter _ world
      | applied _ => exact deliver hsink hafter _ world
      | continued hcontinuing _ => simp [hcontinuing] at hstage
      | rested hfinished => simp [hfinished] at hstage
  | continuing hstage hsink hruns hgoing =>
      -- All other steps are those of another stage.
      cases hdoes with
      | continued _ hrun => exact goOn hsink hruns hgoing hrun
      | _ => simp_all
  | @ended before worlds idle call last delivery endings _ hstage hsink hruns hgoing =>
      cases hdoes with
      | rested _ =>
          have hcourse : Course B sink after
              (before ++ call :: (worlds ++ [last]) ++ (idle ++ [world])) _ batch :=
            .ended hstage hsink hruns hgoing
          rw [List.length_append, List.length_singleton, List.replicate_succ'] at hcourse
          simpa using hcourse
      | _ => simp_all

theorem rested_mem (h : Course B sink after worlds acts batch) (hrested : .rested ∈ acts) :
    .continued .done ∈ acts := by
  cases h with
  | preparing hstage hsink hafter => simp at hrested
  | continuing hstage hsink hruns hgoing => simp at hrested
  | ended hstage hsink hruns hgoing => simp

end Course

/-- What the batch does in a step of some run. -/
def Did (B : Behaviour ν) (attempt : Attempt (Batch ς ν)) (act : Act) : Prop :=
  ∃ stepped, Does B attempt.machine attempt.world.state act stepped

section Runs

variable {B : Behaviour ν} {request : SortedMap String Bundle} {sink : ς} {after : ν}
  {worlds : List World} {taken : List (Attempt (Batch ς ν))} {ran : Machine.Runs (Batch ς ν)}

theorem exists_acts (h : (behaviour B).TakesOn (start request sink after) worlds taken ran) :
    ∃ acts, List.Forall₂ (Did B) taken acts ∧
      Course B sink after (taken.map Attempt.world) acts ran.machine := by
  refine h.rule (fun taken batch => ∃ acts, List.Forall₂ (Did B) taken acts ∧
    Course B sink after (taken.map Attempt.world) acts batch) ?_ [] ⟨[], .nil, .start ..⟩
  rintro taken attempt stepped ⟨acts, hacts, hcourse⟩ ⟨act, hdoes⟩
  refine ⟨acts ++ [act], List.rel_append hacts (.cons ⟨stepped, hdoes⟩ .nil), ?_⟩
  rw [List.map_append, List.map_singleton]
  exact hcourse.step hdoes

/--
**The protocol of a batch**, whatever the machine is that it goes on with and whether the
runs of that machine return or not.  Each step is one of the things that a batch can do, in
the order of a course: the sink is given one delivery at most, the machine is run only after
it, and from then on nothing else is run and nothing is asked for besides.  A run says that
nothing is left to do only once the machine has said so, and that is after the delivery; then
nothing happens any more.
-/
theorem keeps_protocol
    (h : (behaviour B).TakesOn (start request sink after) worlds taken ran) :
    ∃ acts, List.Forall₂ (Did B) taken acts ∧
      Course B sink after (taken.map Attempt.world) acts ran.machine ∧
      (.done ∈ ran.endings ↔ .continued .done ∈ acts) := by
  obtain ⟨acts, hacts, hcourse⟩ := exists_acts h
  refine ⟨acts, hacts, hcourse, ?_⟩
  rw [h.done_mem_endings_iff]
  constructor
  · rintro ⟨attempt, hattempt, stepped, hsteps, hdone⟩
    obtain ⟨act, hact, came, hdid⟩ := exists_mem_of_forall₂ hacts hattempt
    rw [(behaviour B).unique hsteps ⟨act, hdid⟩] at hdone
    obtain rfl | rfl := hdid.ending_eq_done_iff.mp hdone
    · exact hact
    · exact hcourse.rested_mem hact
  · intro hact
    obtain ⟨attempt, hattempt, came, hdid⟩ := exists_mem_of_forall₂ hacts.flip hact
    exact ⟨attempt, hattempt, came, ⟨_, hdid⟩, hdid.ending_eq_done_iff.mpr (Or.inl rfl)⟩

end Runs

end Mapping.Batch

/-! ### A machine that asks again and again -/

/-- A machine that asks for a text until it is there. -/
structure Poller where
  name : String

namespace Poller

/-- A question for the text; without it the poller goes on. -/
def step {σ : Type} [Environment σ] (poller : Poller) (world : σ) : Stepped Poller σ :=
  match Environment.request Empty (.note Script.shelf poller.name) world with
  | (.value _, world) => ⟨.done, poller, world⟩
  | (.missing, world) => ⟨.next, poller, world⟩
  | (.refused e, _) => nomatch e
  | (.interrupted, world) => ⟨.interrupted, poller, world⟩

instance : Machine Poller :=
  ⟨step⟩

/-- Where the text is missing and stays so, a poller goes on for ever. -/
theorem not_ends (poller : Poller) : ¬ Machine.Ends Poller := by
  intro hends
  have hmoves : Machine.Moves poller poller := ⟨Store, inferInstance, .empty, rfl, rfl⟩
  exact hends.wellFounded.irrefl.irrefl poller hmoves

end Poller

namespace Mapping.Batch

/-- A store that has the text. -/
def textStore : Store :=
  Store.empty.insert (.note Script.shelf "late") "here"

/-- A batch of no bundles that goes on with a poller, after its delivery. -/
def polling : Batch (List Delivery) Poller :=
  ⟨.empty, [.ok .empty], ⟨"late"⟩, .continuing⟩

/-- A batch that goes on with a poller is interrupted with it, and done with it. -/
theorem keeps_protocol_of_poller :
    ¬ Machine.Ends Poller ∧
      ∃ taken ran acts,
        (behaviour Machine.behaviour).TakesOn (start .empty ([] : List Delivery) (Poller.mk "late"))
          [⟨Store.empty.setAlarm 2⟩, ⟨textStore⟩] taken ran ∧
        ran.endings = [.interrupted, .done] ∧
        List.Forall₂ (Did Machine.behaviour) taken acts ∧ .continued .done ∈ acts := by
  have hinterrupted : Machine.behaviour.Goes (Poller.mk "late") (Store.empty.setAlarm 2) _ :=
    ⟨_, .next rfl rfl (.next rfl rfl (.raised rfl))⟩
  have hdone : Machine.behaviour.Goes (Poller.mk "late") textStore _ := ⟨_, .last .done rfl rfl⟩
  have hcontinued : Does Machine.behaviour polling _ _ _ := .continued rfl hinterrupted
  have hended : Does Machine.behaviour polling _ _ _ := .continued rfl hdone
  have hfirst : (behaviour Machine.behaviour).Takes
      (start .empty ([] : List Delivery) (Poller.mk "late")) (Store.empty.setAlarm 2) _ _ :=
    .next rfl ⟨_, .found rfl rfl⟩ (.next rfl ⟨_, .applied rfl⟩
      (.last .interrupted rfl ⟨_, hcontinued⟩))
  have hsecond : (behaviour Machine.behaviour).Takes polling textStore _ _ :=
    .last .done rfl ⟨_, hended⟩
  have hruns : (behaviour Machine.behaviour).TakesOn _
      [⟨Store.empty.setAlarm 2⟩, ⟨textStore⟩] _ _ := .cons hfirst (.cons hsecond .nil)
  obtain ⟨acts, hacts, -, hover⟩ := keeps_protocol hruns
  exact ⟨Poller.not_ends ⟨"late"⟩, _, _, acts, hruns, rfl, hacts, hover.mp (by simp)⟩

end Mapping.Batch

end BuildConfig
