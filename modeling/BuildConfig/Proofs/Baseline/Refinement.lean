/-
An evaluation comes to what its request is due, however it is resumed.

`Stage.Owes` compares a stage with the meaning of the request: what is left to do from
the stage is what is still due.  A batch inside a stage is compared in the same way, by
the states that it can be in.  Every step keeps that, whatever part of the answers the
environment gives at the time, so it holds wherever an evaluation was suspended or
interrupted.  In an environment that gives all of them an evaluation is suspended only
when nothing will ever come.
-/
import BuildConfig.Proofs.Baseline.SingleBatch
import BuildConfig.Proofs.Mapping.Stability

namespace BuildConfig.Baseline

open Mapping.Rules (armBundle armPlatform selectingRules)

/-- A stage from which this is still due. -/
inductive Stage.Owes (request : Request) (settings : Settings) (answers : Answers) :
    Stage → Due EvaluationError Configuration → Prop
  | starting : Owes request settings answers .starting (request.due settings answers)
  | mapping {bundle : Bundle} {batch : SingleBatch} (hbundle : bundle.lacksConfiguration = false)
      (h : OnWay answers bundle batch) :
      Owes request settings answers (.mapping batch)
        ((mapped answers bundle).andThen id fun result =>
          request.dueOnceMapped settings answers result.bundle)
  | loading {mapped : Configuration} (hbundle : mapped.bundle.lacksConfiguration = false) :
      Owes request settings answers (.loading mapped)
        (request.dueOnceMapped settings answers mapped.bundle)
  | moving {mapped : Configuration} {custom : Option Transition.Custom}
      (hbundle : mapped.bundle.lacksConfiguration = false) :
      Owes request settings answers (.moving mapped custom)
        (request.dueOnceLoaded settings answers mapped.bundle custom)
  | remapping {bundle : Bundle} {batch : SingleBatch} (hbundle : bundle.lacksConfiguration = false)
      (h : OnWay answers bundle batch) :
      Owes request settings answers (.remapping batch) (mapped answers bundle)
  | publishing (result : Configuration) :
      Owes request settings answers (.publishing result) (some (.ok result))

namespace Evaluation

variable {ς σ : Type} {request : Request} {settings : Settings} {answers : Answers} {sink : ς}
  {whole : Prop} {due : Due EvaluationError Configuration} {evaluation : Evaluation ς}

/-- An evaluation of the request that has not delivered yet and from which this is due. -/
structure Owes (request : Request) (settings : Settings) (answers : Answers) (sink : ς)
    (due : Due EvaluationError Configuration) (evaluation : Evaluation ς) : Prop where
  request_eq : evaluation.request = request
  settings_eq : evaluation.settings = settings
  sink_eq : evaluation.sink = sink
  stage : evaluation.stage.Owes request settings answers due

theorem owes_begin (request : Request) (settings : Settings) (answers : Answers) (sink : ς) :
    Owes request settings answers sink (request.due settings answers)
      (begin request settings sink) :=
  ⟨rfl, rfl, rfl, .starting⟩

/-- An evaluation that has delivered the outcome to the sink. -/
structure Paid [Sink ς Outcome] (sink : ς) (outcome : Outcome) (evaluation : Evaluation ς) :
    Prop where
  stage_eq : evaluation.stage = .finished
  sink_eq : evaluation.sink = Sink.accept sink outcome

/-- How a run ends that lacks nothing: done with what is due, or suspended when nothing is. -/
def Answered [Sink ς Outcome] (sink : ς) (due : Due EvaluationError Configuration)
    (ran : Ran (Evaluation ς) σ) : Prop :=
  match due with
  | none => ran.ending = .suspended ∧ ran.machine.sink = sink
  | some outcome => ran.ending = .done ∧ ran.machine.sink = Sink.accept sink outcome

/-! ### What is owed after a piece of work -/

private theorem owes_afterStart (bundle : Bundle) :
    (afterStart bundle).Owes request settings answers
      (request.dueOnceStarted settings answers bundle) := by
  unfold afterStart Request.dueOnceStarted
  by_cases hlacks : bundle.lacksConfiguration = true
  · rw [if_pos hlacks, if_pos hlacks]
    exact .publishing _
  · rw [if_neg hlacks, if_neg hlacks]
    have hbundle := by simpa using hlacks
    exact .mapping hbundle .fetching

private theorem owes_afterMove {mapped : Configuration} {custom : Option Transition.Custom}
    {moved : Option Bundle} (hbundle : mapped.bundle.lacksConfiguration = false)
    (h : move request settings custom mapped.bundle = .ok moved) :
    (afterMove request settings mapped moved).Owes request settings answers
      (request.dueOnceLoaded settings answers mapped.bundle custom) := by
  have hplaced := placed_eq_move request settings custom mapped.bundle
  rw [h] at hplaced
  unfold Request.dueOnceLoaded Request.dueOncePlaced
  rw [hplaced]
  cases moved with
  | none =>
      have hremaps : ¬ remaps request settings = true := by
        rw [remaps, platform_eq_none_of_move h]
        exact Bool.false_ne_true
      show Stage.Owes request settings answers (.publishing mapped)
        (if remaps request settings then _ else some (.ok mapped))
      rw [if_neg hremaps]
      exact .publishing mapped
  | some bundle =>
      show Stage.Owes request settings answers _
        (if remaps request settings then Baseline.mapped answers bundle else some (.ok ⟨bundle⟩))
      rw [afterMove_some]
      by_cases hremaps : remaps request settings = true
      · rw [if_pos hremaps, if_pos hremaps]
        exact .remapping (lacksConfiguration_of_placed hplaced hbundle) .fetching
      · rw [if_neg hremaps, if_neg hremaps]
        exact .publishing _

variable [Sink ς Outcome]

/-! ### One run -/

section Run

variable [Environment σ] {world : σ}

/-- What a step of an evaluation establishes from which this is due. -/
def Keeps (request : Request) (settings : Settings) (answers : Answers) (sink : ς) (whole : Prop)
    (due : Due EvaluationError Configuration) (stepped : Stepped (Evaluation ς) σ) : Prop :=
  stepped.Meets
    (fun after later => Owes request settings answers sink due after ∧
      Environment.Serves answers whole later)
    (RunEnd.Settles answers whole due (Owes request settings answers sink due) (Paid sink))

private theorem keeps_stepStart (history : List Phase)
    (h : Environment.Serves answers whole world) :
    Keeps request settings answers sink whole (request.due settings answers)
      (stepStart ⟨request, settings, sink, .starting, history⟩ world) := by
  unfold stepStart
  cases hsource : request.source with
  | inline bundle =>
      have hdue : request.due settings answers =
          request.dueOnceStarted settings answers bundle := by
        rw [Request.due, hsource]
        rfl
      rw [hdue]
      exact ⟨⟨rfl, rfl, rfl, owes_afterStart bundle⟩, h⟩
  | precomputed =>
      have hdue : request.due settings answers = ((answers .baseline).known Empty).andThen
          Empty.elim fun bundle => request.dueOnceStarted settings answers bundle := by
        rw [Request.due, hsource]
        rfl
      have hlater := h.request (ε := Empty) .baseline
      have hfits := Environment.fits_request (ε := Empty) h .baseline
      generalize hknown : (answers .baseline).known Empty = known at hfits
      rw [hknown] at hdue
      dsimp only
      generalize Environment.request Empty .baseline world = asked at hlater hfits ⊢
      obtain ⟨reply, later⟩ := asked
      cases hfits with
      | value bundle =>
          rw [hdue]
          exact ⟨⟨rfl, rfl, rfl, owes_afterStart bundle⟩, hlater⟩
      | refused e => exact nomatch e
      | missing hnone =>
          refine ⟨⟨rfl, rfl, rfl, .starting⟩, ?_, hlater⟩
          intro hwhole
          rw [hdue, hnone hwhole]
          rfl
      | interrupted hnot => exact ⟨⟨rfl, rfl, rfl, .starting⟩, hnot, hlater⟩

private theorem keeps_stepBatch {phase : Phase} {hold : SingleBatch → Stage}
    {next : Configuration → Stage} {batch : SingleBatch} {bundle : Bundle}
    {rest : Configuration → Due EvaluationError Configuration} (stage : Stage)
    (history : List Phase) (hbundle : bundle.lacksConfiguration = false)
    (hdue : due = (mapped answers bundle).andThen id rest)
    (hway : OnWay answers bundle batch) (h : Environment.Serves answers whole world)
    (hhold : ∀ batch, OnWay answers bundle batch → (hold batch).Owes request settings answers due)
    (hnext : ∀ result, mapped answers bundle = some (.ok result) →
      (next result).Owes request settings answers (rest result)) :
    Keeps request settings answers sink whole due
      (stepBatch ⟨request, settings, sink, stage, history⟩ phase hold next batch world) := by
  subst hdue
  have hrun := hway.run hbundle h
  unfold stepBatch
  generalize Machine.run batch world = ran at hrun ⊢
  obtain ⟨ending, after, later⟩ := ran
  cases ending with
  | suspended =>
      obtain ⟨hon, hnone, hlater⟩ := hrun
      refine ⟨⟨rfl, rfl, rfl, hhold after hon⟩, ?_, hlater⟩
      intro hwhole
      rw [hnone hwhole]
      rfl
  | interrupted =>
      obtain ⟨hon, hnot, hlater⟩ := hrun
      exact ⟨⟨rfl, rfl, rfl, hhold after hon⟩, hnot, hlater⟩
  | done =>
      obtain ⟨⟨outcome, hdue, rfl⟩, hlater⟩ := hrun
      dsimp only at hdue ⊢
      cases houtcome : after.sink.outcome with
      | ok result =>
          rw [houtcome] at hdue
          rw [hdue]
          exact ⟨⟨rfl, rfl, rfl, hnext result hdue⟩, hlater⟩
      | error fault =>
          rw [houtcome] at hdue
          rw [hdue]
          exact ⟨⟨_, rfl, rfl, rfl⟩, hlater⟩

private theorem keeps_stepLoad {mapped : Configuration} (history : List Phase)
    (hbundle : mapped.bundle.lacksConfiguration = false)
    (h : Environment.Serves answers whole world) :
    Keeps request settings answers sink whole (request.dueOnceMapped settings answers mapped.bundle)
      (stepLoad ⟨request, settings, sink, .loading mapped, history⟩ mapped world) := by
  obtain ⟨hfits, hlater⟩ := fits_load h mapped.bundle
  have hdue : request.dueOnceMapped settings answers mapped.bundle =
      (loaded answers mapped.bundle).andThen .load fun custom =>
        request.dueOnceLoaded settings answers mapped.bundle custom := rfl
  unfold stepLoad
  generalize loaded answers mapped.bundle = known at hfits hdue
  generalize Transition.load mapped.bundle world = asked at hfits hlater ⊢
  obtain ⟨reply, later⟩ := asked
  cases hfits with
  | value custom =>
      rw [hdue]
      exact ⟨⟨rfl, rfl, rfl, .moving hbundle⟩, hlater⟩
  | refused e =>
      rw [hdue]
      exact ⟨⟨_, rfl, rfl, rfl⟩, hlater⟩
  | missing hnone =>
      refine ⟨⟨rfl, rfl, rfl, .loading hbundle⟩, ?_, hlater⟩
      intro hwhole
      rw [hdue, hnone hwhole]
      rfl
  | interrupted hnot => exact ⟨⟨rfl, rfl, rfl, .loading hbundle⟩, hnot, hlater⟩

private theorem keeps_stepMove {mapped : Configuration} {custom : Option Transition.Custom}
    (stage : Stage) (history : List Phase) (hbundle : mapped.bundle.lacksConfiguration = false)
    (h : Environment.Serves answers whole world) :
    Keeps request settings answers sink whole
      (request.dueOnceLoaded settings answers mapped.bundle custom)
      (stepMove ⟨request, settings, sink, stage, history⟩ mapped custom world) := by
  unfold stepMove
  dsimp only
  cases hmoved : move request settings custom mapped.bundle with
  | ok moved => exact ⟨⟨rfl, rfl, rfl, owes_afterMove hbundle hmoved⟩, h⟩
  | error e =>
      have hplaced := placed_eq_move request settings custom mapped.bundle
      rw [hmoved] at hplaced
      refine ⟨⟨_, ?_, rfl, rfl⟩, h⟩
      rw [Request.dueOnceLoaded, hplaced]
      rfl

/-- **What is due stays due, step after step, until it is paid.** -/
theorem Owes.step (h : Owes request settings answers sink due evaluation)
    (hserves : Environment.Serves answers whole world) :
    Keeps request settings answers sink whole due (Machine.step evaluation world) := by
  obtain ⟨request, settings, sink, stage, history⟩ := evaluation
  obtain ⟨rfl, rfl, rfl, howes⟩ := h
  show Keeps _ _ _ _ _ _ (Evaluation.step _ _)
  unfold Evaluation.step
  cases howes with
  | starting => exact keeps_stepStart history hserves
  | @mapping bundle batch hbundle hway =>
      refine keeps_stepBatch _ history hbundle rfl hway hserves ?_ ?_
      · intro batch hon
        exact .mapping hbundle hon
      · intro result hresult
        exact .loading (by rw [lacksConfiguration_of_mapped hresult, hbundle])
  | loading hbundle => exact keeps_stepLoad history hbundle hserves
  | moving hbundle => exact keeps_stepMove _ history hbundle hserves
  | @remapping bundle batch hbundle hway =>
      refine keeps_stepBatch _ history hbundle (Due.andThen_id _).symm hway hserves ?_ ?_
      · intro batch hon
        exact .remapping hbundle hon
      · intro result _
        exact .publishing result
  | publishing result => exact ⟨⟨_, rfl, rfl, rfl⟩, hserves⟩

theorem Owes.run (h : Owes request settings answers sink due evaluation)
    (hserves : Environment.Serves answers whole world) :
    RunEnd.Settles answers whole due (Owes request settings answers sink due) (Paid sink)
      (Machine.run evaluation world).ending (Machine.run evaluation world).machine
      (Machine.run evaluation world).world := by
  refine Machine.run_settles (Owes request settings answers sink due) (Paid sink) ?_ h hserves
  intro evaluation world howes hserves
  exact howes.step hserves

theorem ending_of_finished (h : evaluation.stage = .finished)
    (hraised : (Environment.raised world).1 = false) :
    (Machine.run evaluation world).ending = .done := by
  rw [Machine.run_of_lowered hraised, step_of_finished h]

/-- A run in a whole environment is done with what is due, or suspended when nothing is. -/
theorem Owes.run_full (h : Owes request settings answers sink due evaluation)
    (hfull : Environment.Full answers world) :
    Answered sink due (Machine.run evaluation world) := by
  have hrun := h.run hfull.serves
  unfold Answered
  cases hending : (Machine.run evaluation world).ending with
  | suspended =>
      rw [hending] at hrun
      obtain ⟨howes, hnone, _⟩ := hrun
      rw [hnone trivial]
      exact ⟨rfl, howes.sink_eq⟩
  | interrupted =>
      rw [hending] at hrun
      exact absurd trivial hrun.2.1
  | done =>
      rw [hending] at hrun
      obtain ⟨⟨outcome, hdue, hpaid⟩, _⟩ := hrun
      rw [hdue]
      exact ⟨rfl, hpaid.sink_eq⟩

end Run

/-! ### Any number of runs -/

/-- Runs in environments that are short of the answers leave due what was due. -/
theorem Owes.runs {worlds : List World} (h : Owes request settings answers sink due evaluation)
    (hworlds : ∀ world ∈ worlds, Environment.Below answers world.state) :
    (.done ∉ (Machine.runs evaluation worlds).endings ∧
      Owes request settings answers sink due (Machine.runs evaluation worlds).machine) ∨
    (.done ∈ (Machine.runs evaluation worlds).endings ∧ ∃ outcome, due = some outcome ∧
      Paid sink outcome (Machine.runs evaluation worlds).machine) := by
  refine Machine.runs_rule (Owes request settings answers sink due)
    (fun after => ∃ outcome, due = some outcome ∧ Paid sink outcome after) ?_ ?_ h
  · intro world hworld evaluation howes
    have hrun := howes.run (hworlds world hworld).serves
    cases hending : (Machine.run evaluation world.state).ending with
    | suspended =>
        rw [hending] at hrun
        exact hrun.1
    | interrupted =>
        rw [hending] at hrun
        exact hrun.1
    | done =>
        rw [hending] at hrun
        exact hrun.1
  · intro world _ evaluation hended
    obtain ⟨outcome, hdue, hpaid⟩ := hended
    rw [run_of_finished hpaid.stage_eq]
    exact ⟨outcome, hdue, hpaid⟩

/--
**An evaluation comes to what its request is due.**  It may have been resumed as often
as one likes, in environments that kept back any of the answers at any time or were
interrupted.  If one of the runs was done, the sink was called with what is due.  If
none was, it was not called, and the next run in an environment that gives all of the
answers is done with what is due, or suspended when nothing ever comes.
-/
theorem delivers_due (request : Request) (settings : Settings) (answers : Answers) (sink : ς)
    (worlds : List World) (hworlds : ∀ world ∈ worlds, Environment.Below answers world.state) :
    let ran := Machine.runs (begin request settings sink) worlds
    (.done ∉ ran.endings → ran.machine.sink = sink) ∧
    (.done ∈ ran.endings → ∃ outcome, request.due settings answers = some outcome ∧
      ran.machine.sink = Sink.accept sink outcome) ∧
    ∀ world : World, Environment.Full answers world.state →
      Answered sink (request.due settings answers) (Machine.run ran.machine world.state) := by
  have hruns := (owes_begin request settings answers sink).runs hworlds
  dsimp only
  refine ⟨?_, ?_, ?_⟩
  · intro hnot
    obtain ⟨_, howes⟩ | ⟨hdone, _⟩ := hruns
    · exact howes.sink_eq
    · exact absurd hdone hnot
  · intro hdone
    obtain ⟨hnot, _⟩ | ⟨_, outcome, hdue, hpaid⟩ := hruns
    · exact absurd hdone hnot
    · exact ⟨outcome, hdue, hpaid.sink_eq⟩
  · intro world hfull
    obtain ⟨_, howes⟩ | ⟨_, outcome, hdue, hpaid⟩ := hruns
    · exact howes.run_full hfull
    · rw [hdue]
      unfold Answered
      dsimp only
      rw [run_of_finished hpaid.stage_eq]
      exact ⟨ending_of_finished hpaid.stage_eq (hfull _ .refl).1, hpaid.sink_eq⟩

/-- A store with the options and the rules that a request for a platform needs. -/
def stocked : Store :=
  (Store.empty.insert .baseline (armBundle "dbg" [])).insert (.rules ⟨none⟩)
    selectingRules

/-- A request to put the options of the build on a platform. -/
def onArm : Request :=
  ⟨.precomputed, false, some armPlatform⟩

private theorem due_onArm : onArm.due .default stocked.answer =
    some (.ok ⟨armBundle "opt" [armPlatform]⟩) := rfl

/-- Suspended in an empty store and interrupted at the second request, it is done in a third run. -/
theorem delivers_due_in_stores :
    (∀ world ∈ [World.mk Store.empty, World.mk (stocked.setAlarm 2)],
      Environment.Below stocked.answer world.state) ∧
    Environment.Full stocked.answer stocked ∧
    (Machine.run (Machine.runs (begin onArm .default ([] : List Outcome))
      [World.mk Store.empty, World.mk (stocked.setAlarm 2)]).machine stocked).machine.sink =
        [.ok ⟨armBundle "opt" [armPlatform]⟩] := by
  have hbelow : ∀ world ∈ [World.mk Store.empty, World.mk (stocked.setAlarm 2)],
      Environment.Below stocked.answer world.state := by
    rw [List.forall_mem_cons, List.forall_mem_singleton]
    exact ⟨Store.below fun _ => Or.inl rfl, Store.below fun _ => Or.inr rfl⟩
  have hfull : Environment.Full stocked.answer stocked := Store.full rfl rfl fun _ => rfl
  refine ⟨hbelow, hfull, ?_⟩
  have hdelivers := (delivers_due onArm .default stocked.answer ([] : List Outcome) _ hbelow).2.2
    (World.mk stocked) hfull
  rw [due_onArm] at hdelivers
  exact hdelivers.2

end Evaluation

end BuildConfig.Baseline
