/-
The batch of one bundle, run after run.

A baseline maps its bundle in a batch of its own, which can be suspended or interrupted
at any point and is resumed where it was.  `OnWay` are the states that such a batch can
be in, each with what is known there: nothing yet, the rules, or the outcome.  Every
step stays among them, so it makes no difference where the batch was stopped.
-/
import BuildConfig.Proofs.Baseline.Meaning

namespace BuildConfig

namespace SortedMap

variable {κ α β ε : Type} [LT κ] {f : α → Except ε β} {m : SortedMap κ α}

private theorem mapValues_of_error {e : ε} (h : changeEach f m.entries = .error e) :
    m.mapValues f = .error e := by
  unfold mapValues
  split <;> rename_i heach
  · rw [heach] at h
    cases h
    rfl
  · rw [heach] at h
    cases h

private theorem mapValues_of_ok {n : SortedMap κ β} (h : changeEach f m.entries = .ok n.entries) :
    m.mapValues f = .ok n := by
  unfold mapValues
  split <;> rename_i heach
  · rw [heach] at h
    cases h
  · rw [heach] at h
    cases n
    cases h
    rfl

end SortedMap

namespace Baseline

/-- A batch on its way to what its one bundle is mapped to. -/
inductive OnWay (answers : Answers) (bundle : Bundle) : SingleBatch → Prop
  | fetching : OnWay answers bundle (single bundle)
  | applying {rules : Mapping.Rules}
      (h : (answers (.rules (.ofBundle bundle))).known MappingError = some (.ok rules)) :
      OnWay answers bundle { single bundle with stage := .applying [(.ofBundle bundle, rules)] }
  | delivered {batch : SingleBatch} (hstage : batch.stage = .continuing)
      (h : mapped answers bundle = some (batch.sink.outcome.mapError ofFault)) :
      OnWay answers bundle batch

variable {σ : Type} [Environment σ] {answers : Answers} {whole : Prop} {bundle : Bundle}

/-- How a run of the batch can end; its faults are errors of the evaluation then. -/
def Batched (answers : Answers) (whole : Prop) (bundle : Bundle) :
    RunEnd → SingleBatch → σ → Prop :=
  RunEnd.Settles answers whole (mapped answers bundle) (OnWay answers bundle)
    fun outcome batch => batch.sink.outcome.mapError ofFault = outcome

/-! ### Asking and mapping -/

theorem locations_single (h : bundle.lacksConfiguration = false) :
    Mapping.Batch.locations (single bundle).request = [.ofBundle bundle] := by
  show (([bundle].filter fun bundle => !bundle.lacksConfiguration).map
    Mapping.Location.ofBundle).foldl Mapping.Batch.addNew [] = _
  rw [List.filter_cons, h]
  rfl

theorem mapOne_single (h : bundle.lacksConfiguration = false) (rules : Mapping.Rules) :
    Mapping.Batch.mapOne [(.ofBundle bundle, rules)] bundle =
      (rules.map bundle).map Configuration.mk := by
  unfold Mapping.Batch.mapOne Mapping.Table.find?
  rw [h, List.find?_cons, Mapping.Location.same_refl]
  rfl

theorem outcome_single (table : Mapping.Table) :
    Mapping.Batch.outcome (single bundle).request table =
      match Mapping.Batch.mapOne table bundle with
      | .ok result => .ok (SortedMap.empty.insert batchName result)
      | .error e => .error (.options e) := by
  have hentries :
      SortedMap.changeEach (Mapping.Batch.mapOne table) (single bundle).request.entries =
        (Mapping.Batch.mapOne table bundle).map fun result => [(batchName, result)] := by
    show SortedMap.changeEach (Mapping.Batch.mapOne table) [(batchName, bundle)] = _
    unfold SortedMap.changeEach
    cases Mapping.Batch.mapOne table bundle <;> rfl
  unfold Mapping.Batch.outcome
  cases hone : Mapping.Batch.mapOne table bundle with
  | error e =>
      rw [hone] at hentries
      rw [SortedMap.mapValues_of_error hentries]
  | ok result =>
      rw [hone] at hentries
      rw [SortedMap.mapValues_of_ok (n := SortedMap.empty.insert batchName result) hentries]

theorem fetch_single (location : Mapping.Location) (world : σ) :
    Mapping.Batch.fetch [] false [location] world =
      match Environment.request MappingError (.rules location) world with
      | (.value rules, later) => (.complete [(location, rules)], later)
      | (.missing, later) => (.lacking, later)
      | (.refused e, later) => (.refused e, later)
      | (.interrupted, later) => (.interrupted, later) := rfl

/-! ### Steps -/

/-- Asking for the rules of the one bundle comes to the rules that are due, or to nothing. -/
theorem meets_fetching {world : σ} (hbundle : bundle.lacksConfiguration = false)
    (h : Environment.Serves answers whole world) :
    (Machine.step (single bundle) world).Meets
      (fun batch later => OnWay answers bundle batch ∧ Environment.Serves answers whole later)
      (Batched answers whole bundle) := by
  have hserves := h.request (ε := MappingError) (.rules (.ofBundle bundle))
  have hfits := Environment.fits_request (ε := MappingError) h (.rules (.ofBundle bundle))
  show (Mapping.Batch.step (single bundle) world).Meets _ _
  unfold Mapping.Batch.step
  simp only [show (single bundle).stage = .fetching from rfl]
  rw [locations_single hbundle, fetch_single]
  generalize hknown : (answers (.rules (.ofBundle bundle))).known MappingError = known at hfits
  generalize Environment.request MappingError (.rules (.ofBundle bundle)) world = asked
    at hserves hfits ⊢
  obtain ⟨reply, later⟩ := asked
  cases hfits with
  | value rules => exact ⟨.applying hknown, hserves⟩
  | refused e =>
      refine ⟨.delivered rfl ?_, hserves⟩
      unfold mapped
      rw [hknown]
      rfl
  | missing hnone =>
      refine ⟨.fetching, ?_, hserves⟩
      intro hwhole
      unfold mapped
      rw [hknown, hnone hwhole]
      rfl
  | interrupted hnot => exact ⟨.fetching, hnot, hserves⟩

theorem outcome_applied (hbundle : bundle.lacksConfiguration = false) (rules : Mapping.Rules) :
    ofRules (rules.map bundle) =
      some (((single bundle).deliver (Mapping.Batch.outcome (single bundle).request
        [(.ofBundle bundle, rules)])).sink.outcome.mapError ofFault) := by
  rw [outcome_single, mapOne_single hbundle]
  cases rules.map bundle <;> rfl

private theorem onWay_applied {rules : Mapping.Rules} (hbundle : bundle.lacksConfiguration = false)
    (h : (answers (.rules (.ofBundle bundle))).known MappingError = some (.ok rules)) :
    OnWay answers bundle
      ((single bundle).deliver (Mapping.Batch.outcome (single bundle).request
        [(.ofBundle bundle, rules)])) := by
  refine .delivered rfl ?_
  rw [← outcome_applied hbundle]
  unfold mapped
  rw [h]
  rfl

theorem OnWay.step {batch : SingleBatch} {world : σ} (hbundle : bundle.lacksConfiguration = false)
    (h : OnWay answers bundle batch) (hserves : Environment.Serves answers whole world) :
    (Machine.step batch world).Meets
      (fun batch later => OnWay answers bundle batch ∧ Environment.Serves answers whole later)
      (Batched answers whole bundle) := by
  cases h with
  | fetching => exact meets_fetching hbundle hserves
  | applying hrules => exact ⟨onWay_applied hbundle hrules, hserves⟩
  | delivered hstage hdelivered =>
      show (Mapping.Batch.step batch world).Meets _ _
      unfold Mapping.Batch.step
      rw [hstage]
      dsimp only
      cases hraised : (Environment.raised world).1 with
      | true =>
          rw [Machine.run_of_raised hraised]
          exact ⟨.delivered rfl hdelivered, hserves.not_whole hraised, hserves.raised⟩
      | false =>
          rw [Machine.run_of_lowered hraised]
          exact ⟨⟨_, hdelivered, rfl⟩, hserves.raised⟩

/-- **However often it was stopped, a batch comes to what its bundle is mapped to.** -/
theorem OnWay.run {batch : SingleBatch} {world : σ} (hbundle : bundle.lacksConfiguration = false)
    (h : OnWay answers bundle batch) (hserves : Environment.Serves answers whole world) :
    Batched answers whole bundle (Machine.run batch world).ending
      (Machine.run batch world).machine (Machine.run batch world).world := by
  refine Machine.run_settles (OnWay answers bundle)
    (fun outcome batch => batch.sink.outcome.mapError ofFault = outcome) ?_ h hserves
  intro batch world hon hserves
  exact hon.step hbundle hserves

end Baseline

end BuildConfig
