/-
When it matters in which order the rules arrive.

Rules become known one after the other, and a batch is resumed whenever some have.  It
waits for rules that are missing but not once it has met malformed ones, so while some are
still missing it can already deliver an error, and of several errors it is the order of
arrival that says which one.  `Possible` are the deliveries that can come of the answers in
the end: one, if all rules are there, or else one for each error.

`delivery_unique_tfae` is the exact condition.  The delivery is the same under every order of
arrival if and only if no two places of the batch have different errors.  Then interruptions
do not change it either.  `deliveries_differ` are two orders of arrival for two malformed
files.
-/
import BuildConfig.Proofs.Evaluation.Entries
import BuildConfig.Proofs.Mapping.Fetching
import BuildConfig.Proofs.Mapping.Protocol
import Mathlib.Tactic.TFAE

namespace BuildConfig

open Environment (Below Full Tells)

/-! ### Answers that grow -/

/-- What is answered stays answered. -/
def Answers.Grows (before after : Answers) : Prop :=
  ∀ key, before key = .missing ∨ after key = before key

theorem Answers.Grows.trans {a b c : Answers} (h : a.Grows b) (k : b.Grows c) : a.Grows c := by
  intro key
  rcases h key with hmissing | hab
  · exact Or.inl hmissing
  · rcases k key with hmissing | hbc
    · exact Or.inl (hab.symm.trans hmissing)
    · exact Or.inr (hbc.trans hab)

/-- Worlds whose answers grow, from the first ones to those of the last world. -/
inductive Growing (answers : Answers) : Answers → List World → Prop
  | last {world : World} (h : Full answers world.state) : Growing answers answers [world]
  | cons {first next : Answers} {world : World} {rest : List World} (h : Full first world.state)
      (hgrows : first.Grows next) (hrest : Growing answers next rest) :
      Growing answers first (world :: rest)

/-- The worlds keep growing and come to these answers. -/
def GrowsInto (answers : Answers) (worlds : List World) : Prop :=
  ∃ first, Growing answers first worlds

theorem Answers.Grows.below {σ : Type} [Environment σ] {answers first : Answers} {world : σ}
    (h : first.Grows answers) (hfull : Full first world) : Below answers world := by
  intro later hlater key
  rw [(hfull later hlater).2 key]
  exact (h key).imp_right Eq.symm

theorem Growing.grows {answers first : Answers} {worlds : List World}
    (h : Growing answers first worlds) : first.Grows answers := by
  induction h with
  | last _ => exact fun key => Or.inr rfl
  | cons _ hgrows _ ih => exact hgrows.trans ih

theorem Growing.all_below {answers first : Answers} {worlds : List World}
    (h : Growing answers first worlds) : ∀ world ∈ worlds, Below answers world.state := by
  induction h with
  | last hfull =>
      rw [List.forall_mem_singleton]
      exact Full.serves hfull |>.below
  | cons hfull hgrows hrest ih =>
      rw [List.forall_mem_cons]
      exact ⟨(hgrows.trans hrest.grows).below hfull, ih⟩

theorem Store.grows_put {store : Store} {entry : Store.Entry}
    (h : store.contains entry.key = false) :
    Answers.Grows store.answer (store.put entry).answer := by
  intro key
  cases hkey : entry.key.same key with
  | true =>
      left
      exact Store.answer_eq_missing ((Store.contains_congr store hkey).symm.trans h)
  | false =>
      right
      rw [Store.answer_put, Store.answer?_eq_none hkey, Option.getD_none]

/-- The environment that is nothing but its answers. -/
structure Given where
  answers : Answers

instance : Environment Given where
  raised given := (false, given)
  ask key given := (given.answers key, given)

theorem Given.full (answers : Answers) : Full answers (Given.mk answers) := by
  intro later hlater
  have hsame : later = ⟨answers⟩ := by
    induction hlater with
    | refl => rfl
    | raised _ ih => exact ih
    | ask _ key ih => exact ih
  rw [hsame]
  exact ⟨rfl, fun key => rfl⟩

/-- The answer to one key, with everything else missing. -/
def Answers.only (answers : Answers) (key : Key) : Answers :=
  fun other => if other = key then answers other else .missing

private theorem Answers.only_self (answers : Answers) (key : Key) :
    answers.only key key = answers key :=
  if_pos rfl

private theorem Answers.only_of_ne (answers : Answers) {key other : Key} (h : other ≠ key) :
    answers.only key other = .missing :=
  if_neg h

private theorem Answers.grows_only (answers : Answers) (key : Key) :
    (answers.only key).Grows answers := by
  intro other
  by_cases h : other = key
  · rw [h, answers.only_self]
    exact Or.inr rfl
  · exact Or.inl (answers.only_of_ne h)

namespace Mapping.Batch

variable {ν σ : Type} [Machine ν] [Machine.Ends ν] [Environment σ]
  {request : SortedMap String Bundle} {after : ν} {sources : Sources}

/-! ### What can be delivered -/

/-- What can be delivered when the rules are found as in the sources. -/
inductive Possible (sources : Sources) (request : SortedMap String Bundle) : Delivery → Prop
  | mapped {table : Table} (h : Found sources (locations request) table) :
      Possible sources request (outcome request table)
  | refused {location : Location} {e : MappingError} (hlocation : location ∈ locations request)
      (h : sources.due location = some (.error e)) :
      Possible sources request (.error (.mapping e))

/-- No two places of a batch have different errors. -/
def OneError (sources : Sources) (request : SortedMap String Bundle) : Prop :=
  ∀ a ∈ locations request, ∀ b ∈ locations request, ∀ e e' : MappingError,
    sources.due a = some (.error e) → sources.due b = some (.error e') → e = e'

theorem Found.not_refused {locations : List Location} {table : Table}
    (h : Found sources locations table) {location : Location} (hlocation : location ∈ locations)
    {e : MappingError} : sources.due location ≠ some (.error e) := by
  obtain ⟨entry, -, -, hready⟩ := exists_mem_of_forall₂ h hlocation
  simp [Sources.due, hready, Answer.known]

theorem Possible.unique (hone : OneError sources request) {x y : Delivery}
    (hx : Possible sources request x) (hy : Possible sources request y) : x = y := by
  cases hx with
  | mapped htable =>
      cases hy with
      | mapped hother => rw [htable.unique hother]
      | refused hlocation he => exact absurd he (htable.not_refused hlocation)
  | refused hlocation he =>
      cases hy with
      | mapped htable => exact absurd he (htable.not_refused hlocation)
      | refused hother he' => rw [hone _ hlocation _ hother _ _ he he']

/-- What a batch delivers when it is run in these worlds. -/
def deliveries (request : SortedMap String Bundle) (after : ν) (worlds : List World) :
    List Delivery :=
  (Machine.runs (start request ([] : List Delivery) after) worlds).machine.sink

/-! ### Before and after the delivery -/

/-- A batch that has delivered this and nothing else. -/
def Settled (delivery : Delivery) (batch : Batch (List Delivery) ν) : Prop :=
  batch.sink = [delivery] ∧ (batch.stage = .continuing ∨ batch.stage = .finished)

/-- A batch that has not delivered yet; the rules that it has found are those of the sources. -/
inductive Pending (sources : Sources) (request : SortedMap String Bundle) (after : ν) :
    Batch (List Delivery) ν → Prop
  | fetching : Pending sources request after (start request [] after)
  | applying {table : Table} (h : Found sources (locations request) table) :
      Pending sources request after { start request [] after with stage := .applying table }

/-- A batch that has not delivered yet, or has delivered something possible. -/
def OnWay (sources : Sources) (request : SortedMap String Bundle) (after : ν)
    (batch : Batch (List Delivery) ν) : Prop :=
  Pending sources request after batch ∨
    ∃ delivery, Possible sources request delivery ∧ Settled delivery batch

theorem Settled.step {delivery : Delivery} {batch : Batch (List Delivery) ν}
    (h : Settled delivery batch) (world : σ) :
    (Machine.step batch world).Meets (fun after _ => Settled delivery after)
      (fun _ after _ => Settled delivery after) := by
  obtain ⟨hsink, hstage⟩ := h
  obtain ⟨act, hdoes⟩ := step_does batch world
  show (batch.step world).Meets _ _
  generalize batch.step world = stepped at hdoes
  cases hdoes with
  | @continued ran _ _ =>
      refine Stepped.meets_toStep_iff.mpr ⟨hsink, ?_⟩
      unfold afterRun
      cases ran.ending with
      | suspended => exact Or.inl rfl
      | interrupted => exact Or.inl rfl
      | done => exact Or.inr rfl
  | rested hfinished => exact ⟨hsink, Or.inr hfinished⟩
  | _ => simp_all

theorem Settled.run {delivery : Delivery} {batch : Batch (List Delivery) ν}
    (h : Settled delivery batch) (world : σ) : Settled delivery (Machine.run batch world).machine :=
  Machine.run_keeps (Settled delivery) (fun _ => Settled delivery) (fun _ h => h)
    (fun _ world h => h.step world) world h

theorem Settled.runs {delivery : Delivery} (worlds : List World) {batch : Batch (List Delivery) ν}
    (h : Settled delivery batch) : Settled delivery (Machine.runs batch worlds).machine := by
  induction worlds generalizing batch with
  | nil => exact h
  | cons world rest ih => exact ih (h.run world.state)

/-- A step of a pending batch asks for the rules, or delivers what is possible. -/
theorem Pending.step {batch : Batch (List Delivery) ν} {world : σ}
    (h : Pending sources request after batch) (htells : Tells sources False world) :
    (Machine.step batch world).Meets
      (fun batch later => Pending sources request after batch ∧ Tells sources False later ∨
        ∃ delivery, Possible sources request delivery ∧ Settled delivery batch)
      (fun _ batch _ => OnWay sources request after batch) := by
  cases h with
  | fetching =>
      obtain ⟨asked, hcomes⟩ := exists_comes htells (locations request)
      have hlater := htells.later (later_fetch [] false (locations request) world)
      generalize hfetch : fetch [] false (locations request) world = fetched at hcomes hlater
      obtain ⟨fetched, later⟩ := fetched
      rw [show Machine.step (start request ([] : List Delivery) after) world = _ from
        step_of_fetching rfl hfetch]
      cases hcomes with
      | complete htable => exact Or.inl ⟨.applying htable, hlater⟩
      | lacking _ _ => exact Or.inl .fetching
      | refused hlocations hrefused _ =>
          exact Or.inr ⟨_, .refused (by simp [hlocations]) hrefused, rfl, Or.inl rfl⟩
      | interrupted _ _ => exact Or.inl .fetching
  | applying htable => exact Or.inr ⟨_, .mapped htable, rfl, Or.inl rfl⟩

theorem OnWay.run {batch : Batch (List Delivery) ν} {world : σ}
    (h : OnWay sources request after batch) (htells : Tells sources False world) :
    OnWay sources request after (Machine.run batch world).machine := by
  refine Machine.run_rule
    (fun batch later => Pending sources request after batch ∧ Tells sources False later ∨
      ∃ delivery, Possible sources request delivery ∧ Settled delivery batch)
    (fun _ batch _ => OnWay sources request after batch) ?_ ?_ ?_ ?_
  · intro batch world h _
    exact h.imp_left And.left
  · intro batch world h _
    exact h.imp_left fun hpending => ⟨hpending.1, hpending.2.later (.raised .refl)⟩
  · rintro batch world (⟨hpending, htells⟩ | ⟨delivery, hpossible, hsettled⟩)
    · exact hpending.step htells
    · have hstep := hsettled.step world
      unfold Stepped.Meets at hstep ⊢
      split at hstep <;> exact Or.inr ⟨delivery, hpossible, hstep⟩
  · exact h.imp_left fun hpending => ⟨hpending, htells⟩

theorem OnWay.runs {worlds : List World}
    (hworlds : ∀ world ∈ worlds, Tells sources False world.state) {batch : Batch (List Delivery) ν} (h : OnWay sources request after batch) :
    OnWay sources request after (Machine.runs batch worlds).machine := by
  induction worlds generalizing batch with
  | nil => exact h
  | cons world rest ih =>
      obtain ⟨hfirst, hrest⟩ := List.forall_mem_cons.mp hworlds
      exact ih hrest (h.run hfirst)

/-- **Whatever is delivered on the way to the answers is one of the possible deliveries.** -/
private theorem possible_of_mem {answers : Answers} {worlds : List World}
    (h : ∀ world ∈ worlds, Below answers world.state) {delivery : Delivery}
    (hdelivery : delivery ∈ deliveries request after worlds) :
    Possible answers.sources request delivery := by
  have honWay : OnWay answers.sources request after
      (Machine.runs (start request ([] : List Delivery) after) worlds).machine :=
    OnWay.runs (fun world hworld => (h world hworld).tells) (Or.inl .fetching)
  unfold deliveries at hdelivery
  rcases honWay with hpending | ⟨other, hpossible, hsink, -⟩
  · generalize (Machine.runs (start request ([] : List Delivery) after) worlds).machine = batch
      at hpending hdelivery
    cases hpending <;> simp [start] at hdelivery
  · rw [hsink, List.mem_singleton] at hdelivery
    rwa [hdelivery]

/-! ### Errors that arrive alone -/

/-- A batch that meets malformed rules in its first run delivers their error, and no other. -/
theorem mem_deliveries_of_refused (after : ν) {world : World} {e : MappingError}
    (hflag : (Environment.raised world.state).1 = false)
    (h : (fetch [] false (locations request) (Environment.raised world.state).2).1 = .refused e)
    (rest : List World) : .error (.mapping e) ∈ deliveries request after (world :: rest) := by
  generalize hfetch :
    fetch [] false (locations request) (Environment.raised world.state).2 = fetched at h
  obtain ⟨fetched, later⟩ := fetched
  obtain rfl : fetched = .refused e := h
  have hstep : Machine.step (start request ([] : List Delivery) after)
      (Environment.raised world.state).2 = _ := step_of_fetching rfl hfetch
  have hsettled : Settled (.error (.mapping e))
      ((start request ([] : List Delivery) after).deliver (.error (.mapping e))) :=
    ⟨rfl, Or.inl rfl⟩
  have hruns := (hsettled.run later).runs rest
  unfold deliveries
  rw [Machine.runs, Machine.run_of_next hflag hstep]
  dsimp only [afterFetch]
  rw [hruns.1]
  exact List.mem_singleton_self _

/-- When one place is all that is known and it has an error, the batch meets that error. -/
private theorem fetch_only {answers : Answers} {location : Location} {e : MappingError}
    (hlocation : location ∈ locations request)
    (h : answers.sources.due location = some (.error e)) :
    (fetch [] false (locations request) (Given.mk (answers.only (.rules location)))).1 =
      .refused e := by
  have htells := (Given.full (answers.only (.rules location))).tells
  have hdue : (answers.only (.rules location)).sources.due location = some (.error e) := by
    unfold Sources.due Answers.sources at h ⊢
    rwa [answers.only_self]
  have honly : ∀ other e', (answers.only (.rules location)).sources.due other =
      some (.error e') → e' = e := by
    intro other e' hother
    by_cases hsame : Key.rules other = .rules location
    · cases hsame
      simpa [hdue] using hother.symm
    · unfold Sources.due Answers.sources at hother
      simp [answers.only_of_ne hsame, Answer.known] at hother
  -- Nothing is held back, so what comes of asking cannot leave out the one thing there is.
  obtain ⟨asked, hcomes⟩ := exists_comes htells (locations request)
  generalize (fetch [] false (locations request) (Given.mk (answers.only (.rules location)))).1 =
    fetched at hcomes ⊢
  cases hcomes with
  | complete htable => exact absurd hdue (htable.not_refused hlocation)
  | lacking _ haccepted => exact absurd ⟨e, hdue⟩ (haccepted trivial location hlocation)
  | refused _ hrefused _ => rw [honly _ _ hrefused]
  | interrupted _ hnot => exact absurd trivial hnot

/-- **Every error is delivered under some order of arrival.** -/
theorem exists_growing {answers : Answers} {location : Location} {e : MappingError} (after : ν)
    (hlocation : location ∈ locations request)
    (h : answers.sources.due location = some (.error e)) :
    ∃ worlds, GrowsInto answers worlds ∧
      .error (.mapping e) ∈ deliveries request after worlds :=
  ⟨[⟨Given.mk (answers.only (.rules location))⟩, ⟨Given.mk answers⟩],
    ⟨_, .cons (Given.full _) (answers.grows_only _) (.last (Given.full answers))⟩,
    mem_deliveries_of_refused after rfl (fetch_only hlocation h) _⟩

/--
**When the delivery does not depend on the order of arrival.**  No two places have
different errors in the end; or, what is the same, any two batches of the same bundles that
are resumed while the answers grow, in whatever order, deliver the same if they both
deliver; or the same of any two that may moreover be interrupted and find answers gone again.
-/
theorem delivery_unique_tfae {μ : Type} [Machine μ] [Machine.Ends μ]
    (request : SortedMap String Bundle) (after : ν) (later : μ) (answers : Answers) :
    List.TFAE [
      OneError answers.sources request,
      ∀ one other, GrowsInto answers one → GrowsInto answers other →
        ∀ x ∈ deliveries request after one, ∀ y ∈ deliveries request later other, x = y,
      ∀ one other : List World, (∀ world ∈ one, Below answers world.state) →
        (∀ world ∈ other, Below answers world.state) →
        ∀ x ∈ deliveries request after one, ∀ y ∈ deliveries request later other, x = y] := by
  tfae_have 1 → 3 := by
    intro hone one other hfirst hsecond x hx y hy
    exact (possible_of_mem hfirst hx).unique hone (possible_of_mem hsecond hy)
  tfae_have 3 → 2 := by
    rintro h one other ⟨_, hfirst⟩ ⟨_, hsecond⟩
    exact h one other hfirst.all_below hsecond.all_below
  tfae_have 2 → 1 := by
    -- Each of the two errors is delivered under some order of arrival.
    intro h a ha b hb e e' hae hbe
    obtain ⟨one, hone, hx⟩ := exists_growing after ha hae
    obtain ⟨other, hother, hy⟩ := exists_growing later hb hbe
    have hsame := h one other hone hother _ hx _ hy
    simpa using hsame
  tfae_finish

/-! ### Two malformed files -/

/-- A bundle whose rules are at this path. -/
def bundleAt (path : String) : Bundle :=
  (Bundle.empty.set .platformMappings (.string path)).set .platforms (.labels [])

/-- Two bundles with a file of rules each. -/
def twoFiles : SortedMap String Bundle :=
  .ofList [("a", bundleAt "a.map"), ("b", bundleAt "b.map")]

/-- The error that a file is malformed with. -/
def brokenError (path : String) : MappingError :=
  .reported (path ++ " is broken")

/-- The store with a malformed file more. -/
def withBroken (store : Store) (path : String) : Store :=
  store.fail (.rules ⟨some path⟩) ⟨.mapping (brokenError path), []⟩

/-- A store where one file is malformed and the other is missing. -/
def lastBroken : Store :=
  withBroken .empty "b.map"

/-- A store where both files are malformed. -/
def bothBroken : Store :=
  withBroken lastBroken "a.map"

theorem locations_twoFiles : locations twoFiles = [⟨some "a.map"⟩, ⟨some "b.map"⟩] := by
  decide +kernel

/-- As long as one file is missing, there is one error only. -/
theorem delivery_unique_of_missing :
    OneError (Answers.sources lastBroken.answer) twoFiles ∧
      ∀ one other, GrowsInto lastBroken.answer one → GrowsInto lastBroken.answer other →
        ∀ x ∈ deliveries twoFiles Idle.mk one, ∀ y ∈ deliveries twoFiles Idle.mk other, x = y := by
  have hmissing : (Answers.sources lastBroken.answer).due ⟨some "a.map"⟩ = none := rfl
  have hbroken : (Answers.sources lastBroken.answer).due ⟨some "b.map"⟩ =
      some (.error (brokenError "b.map")) := rfl
  have herror : ∀ location ∈ locations twoFiles, ∀ e,
      (Answers.sources lastBroken.answer).due location = some (.error e) →
        e = brokenError "b.map" := by
    intro location hlocation e he
    rw [locations_twoFiles, List.mem_cons, List.mem_singleton] at hlocation
    rcases hlocation with rfl | rfl
    · simp [hmissing] at he
    · simpa [hbroken] using he.symm
  have hone : OneError (Answers.sources lastBroken.answer) twoFiles := by
    intro a ha b hb e e' hae hbe
    rw [herror a ha e hae, herror b hb e' hbe]
  exact ⟨hone, (delivery_unique_tfae twoFiles Idle.mk Idle.mk lastBroken.answer).out 0 1 |>.mp hone⟩

/-- A file that arrives malformed before the other one decides which error is delivered. -/
theorem deliveries_differ :
    ¬ ∀ (request : SortedMap String Bundle) (answers : Answers) (one other : List World),
      GrowsInto answers one → GrowsInto answers other →
        ∀ x ∈ deliveries request Idle.mk one, ∀ y ∈ deliveries request Idle.mk other, x = y := by
  intro h
  have hgrows : Answers.Grows lastBroken.answer bothBroken.answer :=
    Store.grows_put (by decide +kernel)
  have hlast : Full lastBroken.answer lastBroken := Store.full rfl rfl fun _ => rfl
  have hboth : Full bothBroken.answer bothBroken := Store.full rfl rfl fun _ => rfl
  have hone : .error (.mapping (brokenError "b.map")) ∈
      deliveries twoFiles Idle.mk [⟨lastBroken⟩, ⟨bothBroken⟩] :=
    mem_deliveries_of_refused Idle.mk rfl (by rw [locations_twoFiles]; rfl) _
  have hother : .error (.mapping (brokenError "a.map")) ∈
      deliveries twoFiles Idle.mk [⟨bothBroken⟩] :=
    mem_deliveries_of_refused Idle.mk rfl (by rw [locations_twoFiles]; rfl) _
  have hsame := h twoFiles bothBroken.answer _ _ ⟨_, .cons hlast hgrows (.last hboth)⟩
    ⟨_, .last hboth⟩ _ hone _ hother
  simp [brokenError] at hsame

end Mapping.Batch

end BuildConfig
