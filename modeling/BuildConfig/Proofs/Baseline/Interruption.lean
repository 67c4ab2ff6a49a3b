/-
Interruptions.

Whoever works out baselines does so in one of three ways: a machine is run, a session is
resumed, or an evaluator is asked.  However often and in whatever environments this was
done before, nothing is looked up any more once the flag is raised, be it in the middle of
a batch of mappings or between two pieces of work.  A call that finds the flag raised comes
back at once and leaves everything as it was; an evaluator then keeps the session of the
request, a fresh one too, so that the next call can take it up.
-/
import BuildConfig.Proofs.Baseline.Register
import BuildConfig.Proofs.Evaluation.Cancellation
import BuildConfig.Proofs.Mapping.Arrival

namespace BuildConfig.Baseline

open Environment (Steady)
open Mapping (Delivery)
open Mapping.Batch (behaviour fetch heeds_of_after locations locations_twoFiles start twoFiles)

namespace Evaluator

/-- A computation asks nothing while the flag is raised, and when it is it leaves all as it was. -/
structure Obeys (evaluator : Evaluator) : Prop where
  quiet : ∀ (request : Request) {σ : Type} [Environment σ] (world : σ), Steady world →
    (evaluator.compute request (Watched.start world)).2.broken = false
  stops : ∀ (request : Request) {σ : Type} [Environment σ] (world : σ),
    (Environment.raised world).1 = true →
      (evaluator.compute request world).1.1 = .failed .interrupted ∧
      (evaluator.compute request world).2 = (Environment.raised world).2 ∧
      ∀ other, (evaluator.compute request world).1.2.sessionOf other = evaluator.sessionOf other

variable {evaluator : Evaluator} {request : Request} {session : EvaluationSession}

private theorem world_compute {σ : Type} [Environment σ]
    (h : evaluator.sessionOf request = some session) (world : σ) :
    (evaluator.compute request world).2 = (session.resume world).world := by
  unfold compute
  rw [h]

private theorem sessionOf_put (h : evaluator.sessionOf request = some session) (other : Request) :
    ((evaluator.put request .vacant).put request (.waiting session)).sessionOf other =
      evaluator.sessionOf other := by
  unfold sessionOf
  rw [Evaluator.entryOf_put, Evaluator.entryOf_put]
  by_cases hother : other = request
  · rw [if_pos hother, hother]
    exact h.symm
  · rw [if_neg hother, if_neg hother]
    rfl

/-- An evaluator with an unfinished session for every request obeys. -/
theorem obeys_of_sessions (h : ∀ request, ∃ session,
    evaluator.sessionOf request = some session ∧ session.finished = false) :
    evaluator.Obeys := by
  have hobeys : ∀ session : EvaluationSession, session.Obeys Machine.behaviour := fun session =>
    Session.obeys_of_machine (Machine.heeds_of_requests session.machine).obeys
  refine ⟨?_, ?_⟩
  · intro request σ _ world hsteady
    obtain ⟨session, hsession, -⟩ := h request
    rw [world_compute hsession]
    exact (hobeys session).quiet world hsteady _ (session.goes_resume _).passes
  · intro request σ _ world hraised
    obtain ⟨session, hsession, hfinished⟩ := h request
    have hstops := ((hobeys session).stops world hfinished hraised _).mp (session.goes_resume world)
    -- The session was taken out of the table and is put back as it was.
    unfold compute
    rw [hsession]
    dsimp only
    rw [hstops]
    exact ⟨rfl, rfl, sessionOf_put hsession⟩

theorem obeys_callAll (settings : Settings) (calls : List Call) :
    (callAll Evaluator.call (.start settings) calls).2.Obeys := by
  have hrepresents := ((Represents.start settings).callAll calls).2
  have hempty : Register.Waiting settings ∅ := fun _ _ h => nomatch h
  refine obeys_of_sessions fun request => ⟨_, hrepresents.sessionOf_eq request, ?_⟩
  exact ((hempty.callAll calls).1.current request).not_finished

end Evaluator

/--
**Nothing is asked once the flag is raised.**  Evaluations, whatever state they are in,
batches with a machine to go on with that keeps to this itself, the sessions of both and
evaluators ask nothing while the flag is raised, however often they were run, resumed or
asked before, and also in a run that does not return.  If the flag is raised at the start
they say that they were interrupted, ask nothing, and are left as they were.
-/
theorem heeds_interruption {ς τ ν : Type} [Sink ς Outcome] [Sink τ Delivery] {B : Behaviour ν} :
    (∀ evaluation : Evaluation ς, Machine.behaviour.Heeds evaluation ∧
      ∀ finished, Session.Heeds Machine.behaviour ⟨evaluation, finished⟩) ∧
    (∀ (request : SortedMap String Bundle) (sink : τ) (after : ν), B.Heeds after →
      (behaviour B).Heeds (start request sink after) ∧
      ∀ batch, (behaviour B).Resumed (start request sink after) batch →
        ∀ finished, Session.Heeds (behaviour B) ⟨batch, finished⟩) ∧
    ∀ (settings : Settings) (calls : List Call),
      (callAll Evaluator.call (.start settings) calls).2.Obeys := by
  refine ⟨?_, ?_, Evaluator.obeys_callAll⟩
  · intro evaluation
    have hheeds := Machine.heeds_of_requests evaluation
    exact ⟨hheeds, fun finished => Session.heeds_of_machine hheeds⟩
  · intro request sink after hafter
    have hheeds : (behaviour B).Heeds (start request sink after) := heeds_of_after hafter
    refine ⟨hheeds, ?_⟩
    intro batch hbatch finished
    exact Session.heeds_of_machine (hheeds.resumed hbatch)

instance : Machine.Requests Poller where
  step_kept {σ} _ kept h poller world hworld := by
    have hasked := h.request (ε := Empty) (.note Script.shelf poller.name) world hworld
    show kept (poller.step world).world
    unfold Poller.step
    generalize Environment.request Empty (.note Script.shelf poller.name) world = asked at hasked ⊢
    obtain ⟨reply, later⟩ := asked
    cases reply with
    | value text => exact hasked
    | missing => exact hasked
    | refused e => exact nomatch e
    | interrupted => exact hasked

/-- The store whose flag is raised by the first request. -/
def alarmed : Store :=
  Store.empty.setAlarm 1

/-- When the first of two requests raises the flag, the second is not made. -/
theorem heeds_interruption_of_alarm :
    Steady alarmed ∧ Machine.behaviour.Heeds (Poller.mk "late") ∧
      ∃ ran, (behaviour Machine.behaviour).Goes
          (start twoFiles ([] : List Delivery) (Poller.mk "late")) (Watched.start alarmed) ran ∧
        ran.ending = .interrupted ∧ ran.world.broken = false := by
  have hsteady : Steady alarmed := fun _ _ hlowered => hlowered
  have hpoller := Machine.heeds_of_requests (Poller.mk "late")
  have hfetch : fetch [] false (locations twoFiles)
      (Environment.raised (Watched.start alarmed)).2 =
        (.interrupted, ⟨⟨[], [.rules ⟨some "a.map"⟩], true, none⟩, false⟩) := by
    rw [locations_twoFiles]
    rfl
  have hgoes : (behaviour Machine.behaviour).Goes
      (start twoFiles ([] : List Delivery) (Poller.mk "late")) (Watched.start alarmed) _ :=
    ⟨_, .last .interrupted rfl ⟨_, .interrupted rfl hfetch⟩⟩
  have hbatch := (heeds_interruption (ς := Slot EvaluationError Configuration)).2.1 twoFiles
    ([] : List Delivery) (Poller.mk "late") hpoller
  exact ⟨hsteady, hpoller, _, hgoes, rfl, hbatch.1.obeys.quiet alarmed hsteady _ hgoes.passes⟩

end BuildConfig.Baseline
