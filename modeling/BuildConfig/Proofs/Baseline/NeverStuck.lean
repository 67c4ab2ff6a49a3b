/-
No evaluation is ever stuck.

An evaluation can be run, driven in a session, or computed by an evaluator, and each of them
does nothing but take steps of it, one after the other.  So what the guards promise of a chain
of steps is true of all three.  The sessions of an evaluator are those that were driven in the
worlds of its earlier calls, which is `Driven`; what it answers is what such a session has
delivered.
-/
import BuildConfig.Proofs.Baseline.Guards
import BuildConfig.Proofs.Baseline.Register
import BuildConfig.Proofs.Evaluation.Driving

namespace BuildConfig.Baseline

open Evaluation (Guarded Proper guarded_of_chain)

/-! ### Answers -/

/-- The session of a request after it was resumed in these worlds. -/
def driven (settings : Settings) (request : Request) (worlds : List World) : EvaluationSession :=
  (Session.start (.begin request settings Slot.empty)).resumes worlds

/-- The steps that were taken in this. -/
def drivenSteps (settings : Settings) (request : Request) (worlds : List World) :
    List (Attempt (Evaluation (Slot EvaluationError Configuration))) :=
  ((Session.start (.begin request settings Slot.empty)).callsIn worlds).flatMap Session.Call.taken

/-- An answer that is not the error of a missing configuration. -/
def Returned.Proper (returned : Returned) : Prop :=
  ∀ e name world, returned = .computed (.failed (.options e)) world →
    e.message ≠ (OptionsError.unmapped name).message

private theorem proper_answerOf
    {taken : List (Attempt (Evaluation (Slot EvaluationError Configuration)))}
    {evaluation : Evaluation (Slot EvaluationError Configuration)}
    (h : Guarded Slot.empty taken evaluation) (world : World) :
    Returned.Proper (.computed (Evaluator.answerOf evaluation) world) := by
  intro e name later hreturned
  injection hreturned with hanswer
  obtain hsink | ⟨outcome, hproper, hsink⟩ := h.delivered
  · unfold Evaluator.answerOf at hanswer
    rw [hsink] at hanswer
    cases hanswer
  · unfold Evaluator.answerOf at hanswer
    rw [hsink] at hanswer
    refine hproper e name ?_
    cases outcome with
    | ok configuration => cases hanswer
    | error cause =>
        injection hanswer with hcause
        exact congrArg Except.error hcause

/-! ### Sessions that were driven -/

private theorem guarded_driven (settings : Settings) (request : Request) (worlds : List World) :
    Guarded Slot.empty (drivenSteps settings request worlds)
      (driven settings request worlds).machine := by
  have hchain := (Session.start (.begin request settings Slot.empty :
    Evaluation (Slot EvaluationError Configuration))).chain_callsIn worlds
  exact guarded_of_chain hchain

/-- A session of the request that was driven and is not done. -/
def Driven (settings : Settings) (request : Request) (session : EvaluationSession) : Prop :=
  session.finished = false ∧ ∃ worlds, session = driven settings request worlds

private theorem driven_start (settings : Settings) (request : Request) :
    Driven settings request (.start (.begin request settings Slot.empty)) :=
  ⟨rfl, [], rfl⟩

variable {settings : Settings} {request : Request}

theorem Driven.resume_eq {session : EvaluationSession} (h : Driven settings request session)
    (world : World) :
    ∃ worlds, (session.resume world.state).machine = driven settings request worlds := by
  obtain ⟨-, worlds, rfl⟩ := h
  exact ⟨worlds ++ [world], (Session.resumes_append _ worlds [world]).symm⟩

theorem Driven.resume {session : EvaluationSession} (h : Driven settings request session)
    (world : World) (hending : (session.resume world.state).ending ≠ .done) :
    Driven settings request (session.resume world.state).machine := by
  refine ⟨?_, h.resume_eq world⟩
  have hfinished := (session.makes_resume world).ending_iff.not.mp hending
  simpa using hfinished

namespace Register

variable {register : Register}

/-- All sessions of the register were driven and are not done. -/
def AllDriven (settings : Settings) (register : Register) : Prop :=
  ∀ request session, register.lookup request = some session → Driven settings request session

theorem AllDriven.current (h : register.AllDriven settings) (request : Request) :
    Driven settings request (register.current settings request) := by
  unfold Register.current
  cases hlookup : register.lookup request with
  | none => exact driven_start settings request
  | some session => exact h request session hlookup

theorem AllDriven.call (h : register.AllDriven settings) (call : Call) :
    AllDriven settings (register.call settings call).2 := by
  intro other session hlookup
  by_cases hother : other = call.request
  · subst hother
    cases call with
    | discard request => simp [Register.call, Call.request] at hlookup
    | compute request world =>
        have hresume := (h.current request).resume world
        unfold Register.call Call.request at hlookup
        dsimp only at hlookup
        split at hlookup <;> rename_i hending
        · rw [Finmap.lookup_insert] at hlookup
          cases hlookup
          exact hresume (by simp [hending])
        · rw [Finmap.lookup_insert] at hlookup
          cases hlookup
          exact hresume (by simp [hending])
        · rw [Finmap.lookup_erase] at hlookup
          cases hlookup
  · rw [lookup_call_of_ne hother] at hlookup
    exact h other session hlookup

/-- No call gives back the error of a missing configuration. -/
theorem AllDriven.proper (h : register.AllDriven settings) (call : Call) :
    (register.call settings call).1.Proper := by
  cases call with
  | discard request =>
      intro e name world hreturned
      cases hreturned
  | compute request world =>
      obtain ⟨worlds, hresume⟩ := (h.current request).resume_eq world
      have hguarded := guarded_driven settings request worlds
      rw [← hresume] at hguarded
      unfold Register.call
      dsimp only
      split
      · intro e name later hreturned
        cases hreturned
      · intro e name later hreturned
        cases hreturned
      · exact proper_answerOf hguarded _

/-- **Any number of calls keeps this**, and none gives back the error of a missing configuration. -/
theorem AllDriven.callAll (calls : List Call) {register : Register}
    (h : register.AllDriven settings) :
    AllDriven settings (Baseline.callAll (Register.call settings) register calls).2 ∧
      ∀ returned ∈ (Baseline.callAll (Register.call settings) register calls).1,
        returned.Proper := by
  induction calls generalizing register with
  | nil => exact ⟨h, by simp [Baseline.callAll]⟩
  | cons call rest ih =>
      obtain ⟨hdriven, hproper⟩ := ih (h.call call)
      exact ⟨hdriven, List.forall_mem_cons.mpr ⟨h.proper call, hproper⟩⟩

end Register

/--
**No evaluation is ever stuck.**  However often an evaluation is run or driven, in any worlds
and in any order, each step passes its guards: the piece of work that it begins is that of the
stage, and a batch that is done has an outcome in its slot.  The outcome of each mapping is
taken once, by the step that finishes the mapping, and the error of a missing configuration is
not delivered.
An evaluator never finds an entry that is retired or an evaluation that is done without an
outcome, and it never answers with that error either.  What it has to resume for a request
is always a session that was driven in some worlds and is not done, so when it is driven in
one world more its steps pass their guards too.
-/
theorem never_stuck {ς : Type} [Sink ς Outcome] (request : Request) (settings : Settings)
    (sink : ς) (uses : List Session.Use) (calls : List Call) :
    let first := Evaluation.begin request settings sink
    let called := callAll Evaluator.call (.start settings) calls
    Guarded sink (Session.Use.takenIn first uses) (Session.Use.leftBy first uses) ∧
    (∀ world, .computed .stuck world ∉ called.1) ∧
    (∀ returned ∈ called.1, returned.Proper) ∧
    ∀ other, ∃ earlier, called.2.sessionOf other = some (driven settings other earlier) ∧
      (driven settings other earlier).finished = false ∧
      ∀ world, Guarded Slot.empty (drivenSteps settings other (earlier ++ [world]))
        (driven settings other (earlier ++ [world])).machine := by
  intro first called
  obtain ⟨hreturned, hrepresents⟩ := (Represents.start settings).callAll calls
  have hempty : Register.AllDriven settings ∅ := fun _ _ h => nomatch h
  have hwaiting : Register.Waiting settings ∅ := fun _ _ h => nomatch h
  obtain ⟨hdriven, hproper⟩ := hempty.callAll calls
  refine ⟨guarded_of_chain (Session.Use.chain_takenIn uses first), ?_, ?_, ?_⟩
  · intro world
    rw [hreturned]
    exact (hwaiting.callAll calls).2 world
  · rw [hreturned]
    exact hproper
  · intro other
    obtain ⟨hfinished, earlier, hsession⟩ := hdriven.current other
    refine ⟨earlier, ?_, ?_, fun world => guarded_driven settings other (earlier ++ [world])⟩
    · rw [← hsession]
      exact hrepresents.sessionOf_eq other
    · rw [← hsession]
      exact hfinished

end BuildConfig.Baseline
