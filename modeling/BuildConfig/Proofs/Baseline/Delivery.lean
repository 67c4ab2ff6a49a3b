/-
An evaluation delivers once, and its history is a path.

Whatever the environments answer and wherever they interrupt, an evaluation goes
through its pieces of work in order.  `Took` is all that one step can do: finish the
piece of work at hand and move on, finish it by delivering, or stay with it.  A
delivery always ends the evaluation and the evaluation never ends without one, so the
sink is called once, and the piece of work that is finished last says with what.

`Leads` lists the histories that can stand before each piece of work.  It is the
invariant of an evaluation under way; `delivers_once` reads off it what is true after
any sequence of runs.
-/
import BuildConfig.Baseline.Evaluation
import BuildConfig.Proofs.Evaluation.Runs

namespace BuildConfig.Baseline

/-! ### Paths -/

/-- Whether a request puts its baseline on a platform and the settings map it again there. -/
def remaps (request : Request) (settings : Settings) : Bool :=
  request.platform.isSome && settings.remap

/-- The path of options without a configuration. -/
def shortPath : List Phase :=
  [.start, .publish]

/-- The path of all other options. -/
def longPath (request : Request) (settings : Settings) : List Phase :=
  [.start, .map, .load, .move] ++ (if remaps request settings then [.remap] else []) ++ [.publish]

/-- The pieces of work that can be finished when another one is at hand. -/
inductive Leads (request : Request) (settings : Settings) : List Phase → Phase → Prop
  | start : Leads request settings [] .start
  | map : Leads request settings [.start] .map
  | load : Leads request settings [.start, .map] .load
  | move : Leads request settings [.start, .map, .load] .move
  | remap (h : remaps request settings = true) :
      Leads request settings [.start, .map, .load, .move] .remap
  | publishRaw : Leads request settings [.start] .publish
  | publishMoved (h : remaps request settings = false) :
      Leads request settings [.start, .map, .load, .move] .publish
  | publishRemapped (h : remaps request settings = true) :
      Leads request settings [.start, .map, .load, .move, .remap] .publish

theorem Leads.isPath {request : Request} {settings : Settings} {history : List Phase}
    {phase : Phase} (h : Leads request settings history phase) :
    history ++ [phase] <+: shortPath ∨ history ++ [phase] <+: longPath request settings := by
  unfold shortPath longPath
  cases h with
  | start => exact Or.inl ⟨[.publish], rfl⟩
  | map => exact Or.inr ⟨_, rfl⟩
  | load => exact Or.inr ⟨_, rfl⟩
  | move => exact Or.inr ⟨_, rfl⟩
  | remap h => exact Or.inr ⟨[.publish], by rw [h]; rfl⟩
  | publishRaw => exact Or.inl ⟨[], rfl⟩
  | publishMoved h => exact Or.inr ⟨[], by rw [h]; rfl⟩
  | publishRemapped h => exact Or.inr ⟨[], by rw [h]; rfl⟩

/--
The outcomes that can come of a piece of work that ends the evaluation.  Both mappings can fail
in two ways: the rules do not fit the options, or there are none because they are malformed.
-/
inductive Phase.Delivers : Phase → Outcome → Prop
  | published (result : Configuration) : Delivers .publish (.ok result)
  | unloaded (e : LoadError) : Delivers .load (.error (.load e))
  | unmoved (e : OptionsError) : Delivers .move (.error (.options e))
  | unmapped {phase : Phase} (h : phase = .map ∨ phase = .remap) (e : OptionsError) :
      Delivers phase (.error (.options e))
  | unruled {phase : Phase} (h : phase = .map ∨ phase = .remap) (e : MappingError) :
      Delivers phase (.error (.mapping e))

private theorem Phase.delivers_fault {phase : Phase} (h : phase = .map ∨ phase = .remap)
    (fault : Mapping.Fault) : phase.Delivers (.error (ofFault fault)) := by
  cases fault with
  | options e => exact .unmapped h e
  | mapping e => exact .unruled h e

/-- The piece of work that is at hand in a stage; none when nothing is left. -/
def Stage.phase? : Stage → Option Phase
  | .starting => some .start
  | .mapping _ => some .map
  | .loading _ => some .load
  | .moving _ _ => some .move
  | .remapping _ => some .remap
  | .publishing _ => some .publish
  | .finished => none

namespace Evaluation

variable {ς σ : Type} {request : Request} {settings : Settings} {sink : ς}
  {evaluation : Evaluation ς}

/-! ### Before the delivery -/

/-- The evaluation of a request that has not delivered yet. -/
structure Underway (request : Request) (settings : Settings) (sink : ς)
    (evaluation : Evaluation ς) : Prop where
  request_eq : evaluation.request = request
  settings_eq : evaluation.settings = settings
  /-- The sink is as it was given. -/
  sink_eq : evaluation.sink = sink
  leads : ∃ phase, evaluation.stage.phase? = some phase ∧
    Leads request settings evaluation.history phase

theorem underway_begin (request : Request) (settings : Settings) (sink : ς) :
    Underway request settings sink (begin request settings sink) :=
  ⟨rfl, rfl, rfl, .start, rfl, .start⟩

theorem Underway.isPath (h : Underway request settings sink evaluation) :
    evaluation.history <+: shortPath ∨ evaluation.history <+: longPath request settings := by
  obtain ⟨phase, _, hleads⟩ := h.leads
  have hprefix := List.prefix_append evaluation.history [phase]
  exact hleads.isPath.imp hprefix.trans hprefix.trans

/-- The stage that a piece of work leads to when it is finished and more is left. -/
inductive Follows (request : Request) (settings : Settings) : Stage → Phase → Stage → Prop
  | start (bundle : Bundle) : Follows request settings .starting .start (afterStart bundle)
  | map (batch : SingleBatch) (mapped : Configuration) :
      Follows request settings (.mapping batch) .map (.loading mapped)
  | load (mapped : Configuration) (custom : Option Transition.Custom) :
      Follows request settings (.loading mapped) .load (.moving mapped custom)
  | move {mapped : Configuration} {custom : Option Transition.Custom} {moved : Option Bundle}
      (h : move request settings custom mapped.bundle = .ok moved) :
      Follows request settings (.moving mapped custom) .move
        (afterMove request settings mapped moved)
  | remap (batch : SingleBatch) (result : Configuration) :
      Follows request settings (.remapping batch) .remap (.publishing result)

theorem afterMove_some (request : Request) (settings : Settings) (mapped : Configuration)
    (bundle : Bundle) :
    afterMove request settings mapped (some bundle) =
      if remaps request settings then .remapping (single bundle) else .publishing ⟨bundle⟩ := rfl

/-- A request for a platform is never left without a move. -/
theorem platform_eq_none_of_move {request : Request} {settings : Settings}
    {custom : Option Transition.Custom} {bundle : Bundle}
    (h : Baseline.Evaluation.move request settings custom bundle = .ok none) :
    request.platform = none := by
  have hmap : ∀ {moved : Except OptionsError Bundle}, moved.map some ≠ .ok none := by
    intro moved hmoved
    cases moved <;> cases hmoved
  unfold move at h
  split at h
  · exact absurd h hmap
  · split at h
    · exact absurd h hmap
    · assumption

/-- The histories are closed under finishing the work at hand. -/
theorem leads_of_follows {request : Request} {settings : Settings} {history : List Phase}
    {stage next : Stage} {phase done : Phase} (h : Leads request settings history phase)
    (hphase : stage.phase? = some phase) (hfollows : Follows request settings stage done next) :
    ∃ other, next.phase? = some other ∧ Leads request settings (history ++ [done]) other := by
  cases hfollows with
  | start bundle =>
      cases hphase
      cases h
      unfold afterStart
      split
      · exact ⟨.publish, rfl, .publishRaw⟩
      · exact ⟨.map, rfl, .map⟩
  | map batch mapped =>
      cases hphase
      cases h
      exact ⟨.load, rfl, .load⟩
  | load mapped custom =>
      cases hphase
      cases h
      exact ⟨.move, rfl, .move⟩
  | @move mapped custom moved hmoved =>
      cases hphase
      cases h
      cases moved with
      | none =>
          have hremaps : remaps request settings = false := by
            rw [remaps, platform_eq_none_of_move hmoved]
            rfl
          exact ⟨.publish, rfl, .publishMoved hremaps⟩
      | some bundle =>
          rw [afterMove_some]
          by_cases hremaps : remaps request settings = true
          · rw [if_pos hremaps]
            exact ⟨.remap, rfl, .remap hremaps⟩
          · rw [if_neg hremaps]
            exact ⟨.publish, rfl, .publishMoved (by simpa using hremaps)⟩
  | remap batch result =>
      cases hphase
      cases h with
      | remap h => exact ⟨.publish, rfl, .publishRemapped h⟩

/-! ### All that a step can do -/

variable [Sink ς Outcome]

/-- How a step ends and what it makes of the evaluation. -/
inductive Took (evaluation : Evaluation ς) : StepEnd → Evaluation ς → Prop
  | moved {phase : Phase} {stage : Stage}
      (h : Follows evaluation.request evaluation.settings evaluation.stage phase stage) :
      Took evaluation .next (evaluation.advance phase stage)
  | delivered {phase : Phase} {outcome : Outcome} (hphase : evaluation.stage.phase? = some phase)
      (h : phase.Delivers outcome) :
      Took evaluation .done ((evaluation.deliver outcome).advance phase .finished)
  | suspended {stage : Stage} (h : stage.phase? = evaluation.stage.phase?) :
      Took evaluation .suspended { evaluation with stage := stage }
  | interrupted {stage : Stage} (h : stage.phase? = evaluation.stage.phase?) :
      Took evaluation .interrupted { evaluation with stage := stage }
  | ended (h : evaluation.stage = .finished) : Took evaluation .done evaluation

private theorem took_stepStart [Environment σ] (evaluation : Evaluation ς) (world : σ)
    (hstage : evaluation.stage = .starting) :
    Took evaluation (evaluation.stepStart world).ending (evaluation.stepStart world).machine := by
  have hfollows : ∀ bundle,
      Follows evaluation.request evaluation.settings evaluation.stage .start (afterStart bundle) :=
    fun bundle => hstage ▸ .start bundle
  unfold stepStart
  split
  · exact .moved (hfollows _)
  · split
    · exact .moved (hfollows _)
    · exact .suspended rfl
    · rename_i e _ _
      exact nomatch e
    · exact .interrupted rfl

private theorem took_stepBatch [Environment σ] (evaluation : Evaluation ς) {phase : Phase}
    {hold : SingleBatch → Stage} {next : Configuration → Stage} {batch : SingleBatch} (world : σ)
    (hphase : ∀ batch, (hold batch).phase? = evaluation.stage.phase?)
    (hnext : ∀ configuration, Follows evaluation.request evaluation.settings evaluation.stage phase
      (next configuration))
    (hat : evaluation.stage.phase? = some phase) (hmaps : phase = .map ∨ phase = .remap) :
    Took evaluation (evaluation.stepBatch phase hold next batch world).ending
      (evaluation.stepBatch phase hold next batch world).machine := by
  unfold stepBatch
  dsimp only
  split
  · exact .suspended (hphase _)
  · exact .interrupted (hphase _)
  · split
    · exact .moved (hnext _)
    · exact .delivered hat (Phase.delivers_fault hmaps _)

private theorem took_stepLoad [Environment σ] (evaluation : Evaluation ς) {mapped : Configuration}
    (world : σ) (hstage : evaluation.stage = .loading mapped) :
    Took evaluation (evaluation.stepLoad mapped world).ending
      (evaluation.stepLoad mapped world).machine := by
  unfold stepLoad
  split
  · exact .moved (hstage ▸ .load mapped _)
  · exact .suspended rfl
  · exact .delivered (by rw [hstage]; rfl) (.unloaded _)
  · exact .interrupted rfl

private theorem took_stepMove (evaluation : Evaluation ς) {mapped : Configuration}
    {custom : Option Transition.Custom} (world : σ)
    (hstage : evaluation.stage = .moving mapped custom) :
    Took evaluation (evaluation.stepMove mapped custom world).ending
      (evaluation.stepMove mapped custom world).machine := by
  unfold stepMove
  split
  · rename_i moved hmoved
    exact .moved (hstage ▸ .move hmoved)
  · exact .delivered (by rw [hstage]; rfl) (.unmoved _)

/-- **All that a step can do.** -/
theorem took_step [Environment σ] (evaluation : Evaluation ς) (world : σ) :
    Took evaluation (evaluation.step world).ending (evaluation.step world).machine := by
  unfold step
  split <;> rename_i hstage
  · exact took_stepStart evaluation world hstage
  · refine took_stepBatch evaluation world ?_ ?_ ?_ (Or.inl rfl)
    · exact fun _ => by rw [hstage]; rfl
    · exact fun mapped => hstage ▸ .map _ mapped
    · rw [hstage]
      rfl
  · exact took_stepLoad evaluation world hstage
  · exact took_stepMove evaluation world hstage
  · refine took_stepBatch evaluation world ?_ ?_ ?_ (Or.inr rfl)
    · exact fun _ => by rw [hstage]; rfl
    · exact fun result => hstage ▸ .remap _ result
    · rw [hstage]
      rfl
  · exact .delivered (by rw [hstage]; rfl) (.published _)
  · exact .ended hstage

/-! ### After the delivery -/

/-- The evaluation of a request that has delivered. -/
structure Over (request : Request) (settings : Settings) (sink : ς)
    (evaluation : Evaluation ς) : Prop where
  stage_eq : evaluation.stage = .finished
  /-- The sink was called once, with what the last piece of work came to. -/
  delivered : ∃ history phase outcome, Leads request settings history phase ∧
    evaluation.history = history ++ [phase] ∧ phase.Delivers outcome ∧
      evaluation.sink = Sink.accept sink outcome

theorem Over.isPath (h : Over request settings sink evaluation) :
    evaluation.history <+: shortPath ∨ evaluation.history <+: longPath request settings := by
  obtain ⟨history, phase, outcome, hleads, hhistory, _⟩ := h.delivered
  rw [hhistory]
  exact hleads.isPath

/-! ### One run -/

/-- A step that ends the evaluation delivers, and no other step does. -/
theorem Underway.step [Environment σ] (h : Underway request settings sink evaluation) (world : σ) :
    (Machine.step evaluation world).Meets
      (fun after _ => Underway request settings sink after)
      (fun ending after _ => Machine.Stands (Underway request settings sink)
        (Over request settings sink) ending after) := by
  obtain ⟨phase, hphase, hleads⟩ := h.leads
  have htook := took_step evaluation world
  show (evaluation.step world).Meets _ _
  cases hstep : evaluation.step world with
  | mk ending after later =>
      rw [hstep] at htook
      cases htook with
      | moved hfollows =>
          rw [h.request_eq, h.settings_eq] at hfollows
          obtain ⟨other, hother, hmore⟩ := leads_of_follows hleads hphase hfollows
          exact ⟨h.request_eq, h.settings_eq, h.sink_eq, other, hother, hmore⟩
      | @delivered done outcome hdone hdelivers =>
          rw [hphase] at hdone
          cases hdone
          refine ⟨rfl, _, phase, outcome, hleads, rfl, hdelivers, ?_⟩
          show Sink.accept evaluation.sink outcome = _
          rw [h.sink_eq]
      | suspended hstage =>
          exact ⟨h.request_eq, h.settings_eq, h.sink_eq, phase, hstage.trans hphase, hleads⟩
      | interrupted hstage =>
          exact ⟨h.request_eq, h.settings_eq, h.sink_eq, phase, hstage.trans hphase, hleads⟩
      | ended hstage =>
          rw [hstage] at hphase
          cases hphase

theorem Underway.run [Environment σ] (h : Underway request settings sink evaluation) (world : σ) :
    Machine.Stands (Underway request settings sink) (Over request settings sink)
      (Machine.run evaluation world).ending (Machine.run evaluation world).machine := by
  refine Machine.run_keeps (Underway request settings sink)
    (Machine.Stands (Underway request settings sink) (Over request settings sink)) ?_ ?_ world h
  · intro evaluation hunderway
    exact hunderway
  · intro evaluation world hunderway
    exact hunderway.step world

theorem step_of_finished [Environment σ] (h : evaluation.stage = .finished) (world : σ) :
    Machine.step evaluation world = ⟨.done, evaluation, world⟩ := by
  show evaluation.step world = _
  rw [Evaluation.step, h]

theorem run_of_finished [Environment σ] (h : evaluation.stage = .finished) (world : σ) :
    (Machine.run evaluation world).machine = evaluation := by
  refine Machine.run_keeps (fun after => after = evaluation) (fun _ after => after = evaluation)
    ?_ ?_ world rfl
  · intro machine heq
    exact heq
  · intro machine world heq
    rw [heq, step_of_finished h]
    rfl

/-- What is finished stays finished, and in the same order. -/
private theorem history_run [Environment σ] (evaluation : Evaluation ς) (world : σ) :
    evaluation.history <+: (Machine.run evaluation world).machine.history := by
  refine Machine.run_keeps (fun after : Evaluation ς => evaluation.history <+: after.history)
    (fun _ after => evaluation.history <+: after.history) ?_ ?_ world (List.prefix_refl _)
  · intro machine hprefix
    exact hprefix
  · intro machine world hprefix
    have htook := took_step machine world
    show (machine.step world).Meets _ _
    cases hstep : machine.step world with
    | mk ending after later =>
        rw [hstep] at htook
        cases htook with
        | moved hfollows => exact hprefix.trans (List.prefix_append _ _)
        | delivered hdone hdelivers => exact hprefix.trans (List.prefix_append _ _)
        | suspended hstage => exact hprefix
        | interrupted hstage => exact hprefix
        | ended hstage => exact hprefix

/-! ### Any number of runs -/

theorem runs_of_finished (h : evaluation.stage = .finished) (worlds : List World) :
    (Machine.runs evaluation worlds).machine = evaluation := by
  refine Machine.ended_runs (fun after => after = evaluation) ?_ rfl
  intro world _ machine heq
  rw [heq]
  exact run_of_finished h world.state

theorem history_runs (evaluation : Evaluation ς) (worlds : List World) :
    evaluation.history <+: (Machine.runs evaluation worlds).machine.history := by
  induction worlds generalizing evaluation with
  | nil => exact List.prefix_refl _
  | cons world rest ih => exact (history_run evaluation world.state).trans (ih _)

/-- An evaluation has delivered when, and only when, one of its runs has said so. -/
theorem Underway.runs (h : Underway request settings sink evaluation) (worlds : List World) :
    (.done ∉ (Machine.runs evaluation worlds).endings ∧
      Underway request settings sink (Machine.runs evaluation worlds).machine) ∨
    (.done ∈ (Machine.runs evaluation worlds).endings ∧
      Over request settings sink (Machine.runs evaluation worlds).machine) := by
  refine Machine.runs_rule (Underway request settings sink) (Over request settings sink) ?_ ?_ h
  · intro world _ evaluation hunderway
    exact hunderway.run world.state
  · intro world _ evaluation hended
    rw [run_of_finished hended.stage_eq]
    exact hended

/--
**An evaluation delivers once, along a path.**  The sink is untouched as long as no run
has said that it is done and has been called exactly once from then on, and the last
piece of work finished says what with.  What is finished is the beginning of one of the
two paths after any number of runs, and further runs only add to its end.
-/
theorem delivers_once (request : Request) (settings : Settings) (sink : ς)
    (worlds : List World) :
    let ran := Machine.runs (begin request settings sink) worlds
    (ran.machine.history <+: shortPath ∨ ran.machine.history <+: longPath request settings) ∧
    (.done ∉ ran.endings → ran.machine.sink = sink) ∧
    (.done ∈ ran.endings → ∃ phase outcome, ran.machine.sink = Sink.accept sink outcome ∧
      ran.machine.history.getLast? = some phase ∧ phase.Delivers outcome) ∧
    ∀ more : List World,
      let later := Machine.runs (begin request settings sink) (worlds ++ more)
      ran.machine.history <+: later.machine.history ∧
      (.done ∈ ran.endings → later.machine = ran.machine) := by
  have hbegin := underway_begin request settings sink
  dsimp only
  refine ⟨?_, ?_, ?_, ?_⟩
  · obtain ⟨_, hunder⟩ | ⟨_, hended⟩ := hbegin.runs worlds
    · exact hunder.isPath
    · exact hended.isPath
  · intro hnot
    obtain ⟨_, hunder⟩ | ⟨hdone, _⟩ := hbegin.runs worlds
    · exact hunder.sink_eq
    · exact absurd hdone hnot
  · intro hdone
    obtain ⟨hnot, _⟩ | ⟨_, hended⟩ := hbegin.runs worlds
    · exact absurd hdone hnot
    · obtain ⟨history, phase, outcome, _, hhistory, hdelivers, hsink⟩ := hended.delivered
      refine ⟨phase, outcome, hsink, ?_, hdelivers⟩
      rw [hhistory, List.getLast?_concat]
  · intro more
    rw [Machine.machine_runs_append]
    refine ⟨history_runs _ more, ?_⟩
    intro hdone
    obtain ⟨hnot, _⟩ | ⟨_, hended⟩ := hbegin.runs worlds
    · exact absurd hdone hnot
    · exact runs_of_finished hended.stage_eq more

end Evaluation

end BuildConfig.Baseline
