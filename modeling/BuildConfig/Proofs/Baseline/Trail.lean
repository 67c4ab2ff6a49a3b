/-
What a step of an evaluation looks up.

`Trail` compares a stage with the journal of what was looked up until then.  A step
looks up one key at most.  It does so when nothing of use is known for the piece of work
at hand and nothing was looked up for a later one, and the evaluation goes on only if
the answer is a value.  A batch inside a stage takes more steps, but once it has its
rules it asks no more, so the same holds of its runs.
-/
import BuildConfig.Proofs.Baseline.Journal

namespace BuildConfig.Baseline

variable {σ : Type}

/-- A lookup is made only as long as none of those before it told a value. -/
def Asks (block : List Lookup) (asked : Option Lookup) : Prop :=
  asked.isSome → ∀ lookup ∈ block, ¬ lookup.HasValue

@[simp] private theorem asks_none (block : List Lookup) : Asks block none := by
  intro hsome
  simp at hsome

/-! ### Batches -/

/-- What a batch of one bundle comes to when its rules are there, or are malformed. -/
def comesTo (bundle : Bundle) (due : Due MappingError Mapping.Rules) :
    Due EvaluationError Configuration :=
  due.andThen .mapping fun rules => ofRules (rules.map bundle)

/-- A batch of one bundle that is as far as these lookups let it come. -/
inductive Advanced (bundle : Bundle) (block : List Lookup) : SingleBatch → Prop
  | fetching (h : Asked MappingError (.rules (.ofBundle bundle)) block none) :
      Advanced bundle block (single bundle)
  | applying {rules : Mapping.Rules}
      (h : Asked MappingError (.rules (.ofBundle bundle)) block (some (.ok rules))) :
      Advanced bundle block { single bundle with stage := .applying [(.ofBundle bundle, rules)] }
  | delivered {batch : SingleBatch} {due : Due MappingError Mapping.Rules}
      (hstage : batch.stage = .continuing)
      (h : Asked MappingError (.rules (.ofBundle bundle)) block due)
      (hdue : comesTo bundle due = some (batch.sink.outcome.mapError ofFault)) :
      Advanced bundle block batch

/-- Where a batch stands after a run: it is done with what it knows, or is to be run again. -/
def Advanced.Ran (bundle : Bundle) (block : List Lookup) : RunEnd → SingleBatch → Prop
  | .done, batch => ∃ due, Asked MappingError (.rules (.ofBundle bundle)) block due ∧
      comesTo bundle due = some (batch.sink.outcome.mapError ofFault)
  | .suspended, batch => Advanced bundle block batch
  | .interrupted, batch => Advanced bundle block batch

/-- A batch that has made one lookup at most since these were made, and none while it still asks. -/
def Advanced.Since (bundle : Bundle) (block before : List Lookup) (batch : SingleBatch)
    (recorded : Recorded σ) : Prop :=
  ∃ asked : Option Lookup, recorded.lookups = before ++ asked.toList ∧ Asks block asked ∧
    Advanced bundle (block ++ asked.toList) batch ∧ (batch.stage = .fetching → asked = none)

/-- How a run can end, and what was looked up in it. -/
def Advanced.Ended (bundle : Bundle) (block before : List Lookup) (ending : RunEnd)
    (batch : SingleBatch) (recorded : Recorded σ) : Prop :=
  ∃ asked : Option Lookup, recorded.lookups = before ++ asked.toList ∧ Asks block asked ∧
    Advanced.Ran bundle (block ++ asked.toList) ending batch

variable {bundle : Bundle} {block before : List Lookup}

section Batches

variable [Environment σ]

theorem Advanced.meets_fetching {recorded : Recorded σ}
    (hbundle : bundle.lacksConfiguration = false)
    (h : Asked MappingError (.rules (.ofBundle bundle)) block none)
    (hlookups : recorded.lookups = before) :
    (Machine.step (single bundle) recorded).Meets (Since bundle block before)
      (Ended bundle block before) := by
  have hasks : ∀ asked, Asks block asked := fun asked _ lookup hmem => (h.useless hmem).not_hasValue
  show (Mapping.Batch.step (single bundle) recorded).Meets _ _
  unfold Mapping.Batch.step
  simp only [show (single bundle).stage = .fetching from rfl]
  rw [locations_single hbundle, fetch_single]
  have hrequested := h.request recorded
  rw [hlookups] at hrequested
  generalize Environment.request MappingError (.rules (.ofBundle bundle)) recorded = requested
    at hrequested ⊢
  cases hrequested with
  | interrupted later =>
      refine ⟨none, by simp, by simp, ?_⟩
      show Advanced bundle (block ++ []) (single bundle)
      rw [List.append_nil]
      exact .fetching h
  | value hasked =>
      refine ⟨some _, rfl, hasks _, .applying hasked, ?_⟩
      intro hstage
      cases hstage
  | refused hasked =>
      refine ⟨some _, rfl, hasks _, .delivered rfl hasked rfl, ?_⟩
      intro hstage
      cases hstage
  | missing hasked => exact ⟨some _, rfl, hasks _, .fetching hasked⟩

theorem Advanced.step {batch : SingleBatch} {recorded : Recorded σ}
    (hbundle : bundle.lacksConfiguration = false)
    (h : Since bundle block before batch recorded) :
    (Machine.step batch recorded).Meets (Since bundle block before)
      (Ended bundle block before) := by
  obtain ⟨asked, hlookups, hasks, hadvanced, hfetching⟩ := h
  cases hadvanced with
  | fetching hasked =>
      rw [hfetching rfl] at hasked hlookups
      exact meets_fetching hbundle (by simpa using hasked) (by simpa using hlookups)
  | applying hasked =>
      refine ⟨asked, hlookups, hasks, .delivered rfl hasked (outcome_applied hbundle _), ?_⟩
      intro hstage
      cases hstage
  | @delivered _ due hstage hasked hdue =>
      show (Mapping.Batch.step batch recorded).Meets _ _
      unfold Mapping.Batch.step
      rw [hstage]
      dsimp only
      cases hraised : (Environment.raised recorded).1 with
      | true =>
          rw [Machine.run_of_raised hraised]
          exact ⟨asked, hlookups, hasks, .delivered rfl hasked hdue⟩
      | false =>
          rw [Machine.run_of_lowered hraised]
          exact ⟨asked, hlookups, hasks, due, hasked, hdue⟩

/-- **A run of a batch looks up its rules once at most, and not after it was told them.** -/
theorem Advanced.run {batch : SingleBatch} (hbundle : bundle.lacksConfiguration = false)
    (h : Advanced bundle block batch) (recorded : Recorded σ) :
    Ended bundle block recorded.lookups (Machine.run batch recorded).ending
      (Machine.run batch recorded).machine (Machine.run batch recorded).world := by
  refine Machine.run_rule (Since bundle block recorded.lookups)
    (Ended bundle block recorded.lookups) ?_ ?_ ?_ ?_
  · rintro batch later ⟨asked, hlookups, hasks, hadvanced, _⟩ _
    exact ⟨asked, hlookups, hasks, hadvanced⟩
  · intro batch later hsince _
    exact hsince
  · intro batch later hsince
    exact Advanced.step hbundle hsince
  · exact ⟨none, by simp, by simp, by simpa using h, fun _ => rfl⟩

end Batches

/-! ### Evaluations -/

/-- Nothing of use was found for the custom transition that the mapped options name. -/
inductive Unloaded (journal : Journal) (mapped : Bundle) : Prop
  | unasked (h : journal .load = [])
  | asked {reference : Transition.Reference}
      (hnamed : Transition.Reference.ofBundle mapped = .ok (some reference))
      (h : Asked LoadError (.book reference.book) (journal .load) none)

/-- A stage that these lookups lead to. -/
inductive Trail (request : Request) (settings : Settings) (journal : Journal) : Stage → Prop
  | inline {raw : Bundle} (hsource : request.source = .inline raw) (hend : journal.EndsAt .start)
      (h : journal .start = []) : Trail request settings journal .starting
  | precomputed (hsource : request.source = .precomputed) (hend : journal.EndsAt .start)
      (h : Asked Empty .baseline (journal .start) none) : Trail request settings journal .starting
  | mapping {raw : Bundle} {batch : SingleBatch} (hstarted : Started request journal raw)
      (hraw : raw.lacksConfiguration = false) (hend : journal.EndsAt .map)
      (h : Advanced raw (journal .map) batch) : Trail request settings journal (.mapping batch)
  | loading {raw : Bundle} {rules : Mapping.Rules} {mapped : Configuration}
      (hmapped : Mapped request journal raw rules mapped.bundle) (hend : journal.EndsAt .load)
      (h : Unloaded journal mapped.bundle) : Trail request settings journal (.loading mapped)
  | moving {raw : Bundle} {rules : Mapping.Rules} {mapped : Configuration}
      {custom : Option Transition.Custom}
      (hmapped : Mapped request journal raw rules mapped.bundle) (hend : journal.EndsAt .load)
      (h : Loaded journal mapped.bundle custom) :
      Trail request settings journal (.moving mapped custom)
  | remapping {raw mapped bundle : Bundle} {rules : Mapping.Rules}
      {custom : Option Transition.Custom} {batch : SingleBatch}
      (hplaced : Placed request settings journal raw rules mapped custom bundle)
      (hremaps : remaps request settings = true) (hend : journal.EndsAt .remap)
      (h : Advanced bundle (journal .remap) batch) :
      Trail request settings journal (.remapping batch)
  | publishing {result : Configuration} (h : Came request settings journal result.bundle) :
      Trail request settings journal (.publishing result)

variable {request : Request} {settings : Settings} {journal : Journal} {raw mapped : Bundle}
  {rules : Mapping.Rules} {custom : Option Transition.Custom}

theorem Unloaded.asked_named {reference : Transition.Reference} (h : Unloaded journal mapped)
    (hnamed : Transition.Reference.ofBundle mapped = .ok (some reference)) :
    Asked LoadError (.book reference.book) (journal .load) none := by
  cases h with
  | unasked hnone =>
      rw [hnone]
      exact .nothing
  | asked hother hasked =>
      rw [hnamed] at hother
      cases hother
      exact hasked

private theorem Unloaded.eq_nil (h : Unloaded journal mapped)
    (hnamed : ∀ reference, Transition.Reference.ofBundle mapped ≠ .ok (some reference)) :
    journal .load = [] := by
  cases h with
  | unasked hnone => exact hnone
  | asked hother _ => exact absurd hother (hnamed _)

theorem Advanced.asked {batch : SingleBatch} (h : Advanced bundle block batch) :
    ∃ due, Asked MappingError (.rules (.ofBundle bundle)) block due := by
  cases h with
  | fetching hasked => exact ⟨_, hasked⟩
  | applying hasked => exact ⟨_, hasked⟩
  | delivered _ hasked _ => exact ⟨_, hasked⟩

/-- **The lookups that lead to a stage are orderly.** -/
theorem Trail.orderly {stage : Stage} (h : Trail request settings journal stage) :
    Orderly request settings journal := by
  cases h with
  | inline hsource hend hnone =>
      have hasked : ∀ raw, Asked MappingError (.rules (.ofBundle raw)) (journal .map) none := by
        intro raw
        rw [hend .map (by decide)]
        exact .nothing
      exact .map (.inline hsource hnone) (hasked _) (hend.mono (by decide))
  | precomputed hsource hend hasked => exact .start hsource hasked hend
  | mapping hstarted _ hend hadvanced =>
      obtain ⟨due, hasked⟩ := hadvanced.asked
      exact .map hstarted hasked hend
  | loading hmapped hend hunloaded =>
      cases hunloaded with
      | unasked hnone => exact .map hmapped.started hmapped.asked (hend.of_nil hnone rfl)
      | asked hnamed hasked => exact .load hmapped hnamed hasked hend
  | moving hmapped hend hloaded => exact .of_loaded hmapped hloaded hend
  | remapping hplaced hremaps hend hadvanced =>
      obtain ⟨due, hasked⟩ := hadvanced.asked
      exact .remap hplaced hremaps hasked hend
  | publishing hcame => exact hcame.orderly

namespace Evaluation

variable {ς : Type} {sink : ς} {evaluation : Evaluation ς} {recorded : Recorded σ}

/-- An evaluation that has made these lookups and has not delivered yet. -/
structure Going (request : Request) (settings : Settings) (sink : ς) (journal : Journal)
    (evaluation : Evaluation ς) : Prop where
  request_eq : evaluation.request = request
  settings_eq : evaluation.settings = settings
  sink_eq : evaluation.sink = sink
  trail : Trail request settings journal evaluation.stage

theorem going_begin (request : Request) (settings : Settings) (sink : ς) :
    Going request settings sink .empty (begin request settings sink) := by
  refine ⟨rfl, rfl, rfl, ?_⟩
  cases hsource : request.source with
  | inline raw => exact .inline hsource (fun _ _ => rfl) rfl
  | precomputed => exact .precomputed hsource (fun _ _ => rfl) .nothing

/-- What comes of an evaluation after these lookups: an error, or what was published. -/
inductive Concluded (request : Request) (settings : Settings) (journal : Journal) : Outcome → Prop
  | published {result : Configuration} (h : Came request settings journal result.bundle) :
      Concluded request settings journal (.ok result)
  | failed {e : EvaluationError} (h : Orderly request settings journal) :
      Concluded request settings journal (.error e)

theorem Concluded.orderly {outcome : Outcome} (h : Concluded request settings journal outcome) :
    Orderly request settings journal := by
  cases h with
  | published hcame => exact hcame.orderly
  | failed horderly => exact horderly

variable [Sink ς Outcome]

/-- An evaluation that has made these lookups and delivered what came of them. -/
structure Gone (request : Request) (settings : Settings) (sink : ς) (journal : Journal)
    (evaluation : Evaluation ς) : Prop where
  stage_eq : evaluation.stage = .finished
  concluded : ∃ outcome, evaluation.sink = Sink.accept sink outcome ∧
    Concluded request settings journal outcome

/-- Where an evaluation stands after a step, and whether it goes on only for a value. -/
def Stays (request : Request) (settings : Settings) (sink : ς) (journal : Journal)
    (asked : Option Lookup) : StepEnd → Evaluation ς → Prop
  | .next, evaluation => Going request settings sink journal evaluation ∧
      ∀ lookup ∈ asked, lookup.HasValue
  | .suspended, evaluation => Going request settings sink journal evaluation
  | .interrupted, evaluation => Going request settings sink journal evaluation
  | .done, evaluation => Gone request settings sink journal evaluation

/-- A step that looks up one key at most, for a piece of work with nothing looked up after it. -/
def Notes (request : Request) (settings : Settings) (sink : ς) (journal : Journal)
    (before : List Lookup) (stepped : Stepped (Evaluation ς) (Recorded σ)) : Prop :=
  ∃ phase ∈ asking, ∃ asked : Option Lookup,
    stepped.world.lookups = before ++ asked.toList ∧ journal.EndsAt phase ∧
      Asks (journal phase) asked ∧
      Stays request settings sink (journal.note phase asked) asked stepped.ending stepped.machine

private theorem Notes.nothing {phase : Phase} {before : List Lookup}
    {stepped : Stepped (Evaluation ς) (Recorded σ)} (hphase : phase ∈ asking)
    (hend : journal.EndsAt phase) (hlookups : stepped.world.lookups = before)
    (h : Stays request settings sink journal none stepped.ending stepped.machine) :
    Notes request settings sink journal before stepped := by
  refine ⟨phase, hphase, none, by simp [hlookups], hend, by simp, ?_⟩
  rwa [Journal.note_none]

private theorem Notes.one {ε : Type} [Declared ε] {phase : Phase} {key : Key}
    {answer : Answer key.Value} {before : List Lookup}
    {stepped : Stepped (Evaluation ς) (Recorded σ)}
    (hphase : phase ∈ asking) (hend : journal.EndsAt phase)
    (hasked : Asked ε key (journal phase) none)
    (hlookups : stepped.world.lookups = before ++ [⟨key, answer⟩])
    (h : Stays request settings sink (journal.note phase (some ⟨key, answer⟩))
      (some ⟨key, answer⟩) stepped.ending stepped.machine) :
    Notes request settings sink journal before stepped :=
  ⟨phase, hphase, some ⟨key, answer⟩, hlookups, hend,
    fun _ _ hmem => (hasked.useless hmem).not_hasValue, h⟩

/-! ### Steps -/

variable [Environment σ]

private theorem trail_afterStart (hstarted : Started request journal raw)
    (hend : journal.EndsAt .start) : Trail request settings journal (afterStart raw) := by
  unfold afterStart
  by_cases hlacks : raw.lacksConfiguration = true
  · rw [if_pos hlacks]
    exact .publishing (.raw hstarted hlacks hend)
  · rw [if_neg hlacks]
    refine .mapping hstarted (by simpa using hlacks) (hend.mono (by decide)) (.fetching ?_)
    rw [hend .map (by decide)]
    exact .nothing

private theorem trail_afterMove {mapped : Configuration} {moved : Option Bundle}
    (hmapped : Mapped request journal raw rules mapped.bundle)
    (hloaded : Loaded journal mapped.bundle custom) (hend : journal.EndsAt .load)
    (h : move request settings custom mapped.bundle = .ok moved) :
    Trail request settings journal (afterMove request settings mapped moved) := by
  have hplaced : placed request settings custom mapped.bundle =
      .ok (moved.getD mapped.bundle) := by
    rw [placed_eq_move, h]
    rfl
  cases moved with
  | none =>
      have hremaps : remaps request settings = false := by
        rw [remaps, platform_eq_none_of_move h]
        rfl
      exact .publishing (.placed ⟨hmapped, hloaded, hplaced⟩ hremaps hend)
  | some bundle =>
      rw [afterMove_some]
      by_cases hremaps : remaps request settings = true
      · rw [if_pos hremaps]
        refine .remapping ⟨hmapped, hloaded, hplaced⟩ hremaps (hend.mono (by decide)) (.fetching ?_)
        rw [hend .remap (by decide)]
        exact .nothing
      · rw [if_neg hremaps]
        exact .publishing (.placed ⟨hmapped, hloaded, hplaced⟩ (by simpa using hremaps) hend)

private theorem notes_stepStart (history : List Phase)
    (h : Trail request settings journal .starting) :
    Notes request settings sink journal recorded.lookups
      (stepStart ⟨request, settings, sink, .starting, history⟩ recorded) := by
  unfold stepStart
  cases h with
  | @inline raw hsource hend hnone =>
      simp only [hsource]
      have hstarted : Started request journal raw := .inline hsource hnone
      exact .nothing (by decide) hend rfl
        ⟨⟨rfl, rfl, rfl, trail_afterStart hstarted hend⟩, by simp⟩
  | precomputed hsource hend hasked =>
      simp only [hsource]
      have hrequested := hasked.request recorded
      have hnoted : ∀ {asked : Option Lookup}, (journal.note .start asked).EndsAt .start :=
        hend.note
      generalize Environment.request Empty .baseline recorded = requested at hrequested ⊢
      cases hrequested with
      | interrupted later =>
          exact .nothing (by decide) hend rfl ⟨rfl, rfl, rfl, .precomputed hsource hend hasked⟩
      | value hvalue =>
          rw [← Journal.note_some] at hvalue
          refine .one (by decide) hend hasked rfl ⟨⟨rfl, rfl, rfl,
            trail_afterStart (.precomputed hsource hvalue) hnoted⟩, ?_⟩
          rintro lookup ⟨⟩
          exact ⟨_, rfl⟩
      | @refused _ _ e _ => exact nomatch e
      | missing hmissing =>
          rw [← Journal.note_some] at hmissing
          exact .one (by decide) hend hasked rfl
            ⟨rfl, rfl, rfl, .precomputed hsource hnoted hmissing⟩

theorem comesTo_eq_ok {due : Due MappingError Mapping.Rules} {result : Configuration}
    (h : comesTo bundle due = some (.ok result)) :
    ∃ rules, due = some (.ok rules) ∧ rules.map bundle = .ok result.bundle := by
  obtain ⟨rules, hdue, hrules⟩ := Due.andThen_eq_ok_iff.mp h
  exact ⟨rules, hdue, ofRules_eq_ok_iff.mp hrules⟩

private theorem notes_stepBatch {phase : Phase} {hold : SingleBatch → Stage}
    {next : Configuration → Stage} {batch : SingleBatch} (stage : Stage) (history : List Phase)
    (hphase : phase ∈ asking) (hbundle : bundle.lacksConfiguration = false)
    (hend : journal.EndsAt phase)
    (h : Advanced bundle (journal phase) batch)
    (hhold : ∀ asked batch, Advanced bundle (journal.note phase asked phase) batch →
      Trail request settings (journal.note phase asked) (hold batch))
    (hnext : ∀ asked rules result,
      Asked MappingError (.rules (.ofBundle bundle)) (journal.note phase asked phase)
        (some (.ok rules)) → rules.map bundle = .ok result.bundle →
      Trail request settings (journal.note phase asked) (next result))
    (hfail : ∀ asked due,
      Asked MappingError (.rules (.ofBundle bundle)) (journal.note phase asked phase) due →
      Orderly request settings (journal.note phase asked)) :
    Notes request settings sink journal recorded.lookups
      (stepBatch ⟨request, settings, sink, stage, history⟩ phase hold next batch recorded) := by
  obtain ⟨asked, hlookups, hasks, hran⟩ := h.run hbundle recorded
  rw [← Journal.note_same] at hran
  unfold stepBatch
  generalize Machine.run batch recorded = ran at hlookups hran ⊢
  obtain ⟨ending, after, later⟩ := ran
  cases ending with
  | suspended =>
      exact ⟨phase, hphase, asked, hlookups, hend, hasks, rfl, rfl, rfl, hhold asked after hran⟩
  | interrupted =>
      exact ⟨phase, hphase, asked, hlookups, hend, hasks, rfl, rfl, rfl, hhold asked after hran⟩
  | done =>
      obtain ⟨due, hasked, hdue⟩ := hran
      dsimp only at hdue ⊢
      generalize after.sink.outcome = outcome at hdue ⊢
      cases outcome with
      | ok result =>
          obtain ⟨rules, rfl, hmap⟩ := comesTo_eq_ok hdue
          refine ⟨phase, hphase, asked, hlookups, hend, hasks,
            ⟨rfl, rfl, rfl, hnext asked rules result hasked hmap⟩, ?_⟩
          rintro lookup ⟨⟩
          rw [Journal.note_same] at hasked
          exact hasked.hasValue_last
      | error fault =>
          exact ⟨phase, hphase, asked, hlookups, hend, hasks, rfl, _, rfl,
            .failed (hfail asked due hasked)⟩

private theorem notes_stepLoad {mapped : Configuration} (history : List Phase)
    (hmapped : Mapped request journal raw rules mapped.bundle) (hend : journal.EndsAt .load)
    (h : Unloaded journal mapped.bundle) :
    Notes request settings sink journal recorded.lookups
      (stepLoad ⟨request, settings, sink, .loading mapped, history⟩ mapped recorded) := by
  unfold stepLoad Transition.load
  cases hnamed : Transition.Reference.ofBundle mapped.bundle with
  | error e =>
      have horderly : Orderly request settings journal := (Trail.loading hmapped hend h).orderly
      exact .nothing (by decide) hend rfl ⟨rfl, _, rfl, .failed horderly⟩
  | ok named =>
      cases named with
      | none =>
          have hnone : journal .load = [] := by
            refine h.eq_nil ?_
            intro reference hother
            rw [hnamed] at hother
            cases hother
          exact .nothing (by decide) hend rfl
            ⟨⟨rfl, rfl, rfl, .moving hmapped hend (.unnamed hnamed hnone)⟩, by simp⟩
      | some reference =>
          have hasked := h.asked_named hnamed
          have hrequested := hasked.request recorded
          have hlater : ∀ {asked : Option Lookup},
              Mapped request (journal.note .load asked) raw rules mapped.bundle :=
            hmapped.note (by decide) (by decide)
          dsimp only
          generalize Environment.request LoadError (.book reference.book) recorded = requested
            at hrequested ⊢
          cases hrequested with
          | interrupted later =>
              exact .nothing (by decide) hend rfl ⟨rfl, rfl, rfl, .loading hmapped hend h⟩
          | @value _ book hvalue =>
              rw [← Journal.note_some] at hvalue
              dsimp only [Transition.ofBook]
              cases hfind : book.find reference.name with
              | error e =>
                  exact .one (by decide) hend hasked rfl
                    ⟨rfl, _, rfl, .failed (.load hlater hnamed hvalue hend.note)⟩
              | ok custom =>
                  refine .one (by decide) hend hasked rfl ⟨⟨rfl, rfl, rfl,
                    .moving hlater hend.note (.named hnamed hvalue hfind)⟩, ?_⟩
                  rintro lookup ⟨⟩
                  exact ⟨book, rfl⟩
          | refused hrefused =>
              rw [← Journal.note_some] at hrefused
              exact .one (by decide) hend hasked rfl
                ⟨rfl, _, rfl, .failed (.load hlater hnamed hrefused hend.note)⟩
          | missing hmissing =>
              rw [← Journal.note_some] at hmissing
              exact .one (by decide) hend hasked rfl
                ⟨rfl, rfl, rfl, .loading hlater hend.note (.asked hnamed hmissing)⟩

omit [Environment σ] in
private theorem notes_stepMove {mapped : Configuration} (stage : Stage) (history : List Phase)
    (hmapped : Mapped request journal raw rules mapped.bundle) (hend : journal.EndsAt .load)
    (h : Loaded journal mapped.bundle custom) :
    Notes request settings sink journal recorded.lookups
      (stepMove ⟨request, settings, sink, stage, history⟩ mapped custom recorded) := by
  unfold stepMove
  dsimp only
  cases hmoved : move request settings custom mapped.bundle with
  | ok moved =>
      exact .nothing (by decide) hend rfl
        ⟨⟨rfl, rfl, rfl, trail_afterMove hmapped h hend hmoved⟩, by simp⟩
  | error e =>
      exact .nothing (by decide) hend rfl ⟨rfl, _, rfl, .failed (.of_loaded hmapped h hend)⟩

/-- **What one step looks up, and what is known after it.** -/
theorem Going.step (h : Going request settings sink journal evaluation) (recorded : Recorded σ) :
    Notes request settings sink journal recorded.lookups (Machine.step evaluation recorded) := by
  obtain ⟨request, settings, sink, stage, history⟩ := evaluation
  obtain ⟨rfl, rfl, rfl, htrail⟩ := h
  show Notes _ _ _ _ _ (Evaluation.step _ _)
  unfold Evaluation.step
  cases htrail with
  | inline hsource hend hnone => exact notes_stepStart history (.inline hsource hend hnone)
  | precomputed hsource hend hasked =>
      exact notes_stepStart history (.precomputed hsource hend hasked)
  | @mapping raw batch hstarted hraw hend hadvanced =>
      refine notes_stepBatch _ history (by decide) hraw hend hadvanced ?_ ?_ ?_
      · intro asked batch hafter
        exact .mapping (hstarted.note (by decide)) hraw hend.note hafter
      · intro asked rules result hasked hmap
        have hmapped : Mapped request (journal.note .map asked) raw rules result.bundle :=
          ⟨hstarted.note (by decide), hraw, hasked, hmap⟩
        have hlater : (journal.note .map asked).EndsAt .map := hend.note
        exact .loading hmapped (hlater.mono (by decide)) (.unasked (hlater .load (by decide)))
      · intro asked due hasked
        exact .map (hstarted.note (by decide)) hasked hend.note
  | loading hmapped hend hunloaded => exact notes_stepLoad history hmapped hend hunloaded
  | moving hmapped hend hloaded => exact notes_stepMove _ history hmapped hend hloaded
  | @remapping raw mapped bundle rules custom batch hplaced hremaps hend hadvanced =>
      have hbundle : bundle.lacksConfiguration = false := by
        refine lacksConfiguration_of_placed hplaced.placed_eq ?_
        rw [(Mapping.Rules.sameShape_map hplaced.map.map_eq).lacksConfiguration]
        exact hplaced.map.configured
      refine notes_stepBatch _ history (by decide) hbundle hend hadvanced ?_ ?_ ?_
      · intro asked batch hafter
        exact .remapping hplaced.note hremaps hend.note hafter
      · intro asked again result hasked hmap
        exact .publishing (.remapped hplaced.note hremaps hasked hmap hend.note)
      · intro asked due hasked
        exact .remap hplaced.note hremaps hasked hend.note
  | publishing hcame =>
      exact .nothing (by decide) hcame.endsAt rfl ⟨rfl, _, rfl, .published hcame⟩

end Evaluation

end BuildConfig.Baseline
