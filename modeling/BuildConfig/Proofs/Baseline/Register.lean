/-
The evaluator is a register of evaluations.

An evaluator keeps its evaluations in a table of entries, and while one of them runs its
entry is vacant.  None of this can be seen from the outside.  `Register` is what remains:
a finite map from requests to sessions.  A computation resumes the session of its
request, or a fresh one, exactly once; it puts the session back unless it is done.

`Represents` compares the two between calls.  Besides the entries it says that no request
has two of them, which is why the evaluator can count evaluations by counting entries.
The sessions of a register are all waiting, so a call never meets an entry that is
vacant or retired, and whoever is done has an outcome to answer with.
-/
import BuildConfig.Baseline.Evaluator
import BuildConfig.Proofs.Baseline.Delivery
import Mathlib.Data.Finmap

namespace BuildConfig.Baseline

/-! ### Calls -/

/-- A call of an evaluator; each computation has an environment of its own. -/
inductive Call
  | compute (request : Request) (world : World)
  | discard (request : Request)

/-- The request that a call is about. -/
def Call.request : Call → Request
  | compute request _ => request
  | discard request => request

/-- What a call gives back; a computation also leaves its environment in some state. -/
inductive Returned
  | computed (response : Response) (world : World)
  | discarded (found : Bool)

/-- What is told of what was delivered to the slot of an evaluation. -/
def Response.ofOutcome : Option Outcome → Response
  | some (.ok configuration) => .ready configuration
  | some (.error e) => .failed e
  | none => .stuck

/-- What calls give back that are made one after the other, and the state after them. -/
def callAll {τ : Type} (step : τ → Call → Returned × τ) (state : τ) :
    List Call → List Returned × τ
  | [] => ([], state)
  | call :: rest =>
    let called := step state call
    let more := callAll step called.2 rest
    (called.1 :: more.1, more.2)

/-- What was given back to the calls that are about one request. -/
def returnedFor (request : Request) (calls : List Call) (returned : List Returned) :
    List Returned :=
  ((calls.zip returned).filter fun pair => pair.1.request = request).map (·.2)

/-- One call of an evaluator. -/
def Evaluator.call (evaluator : Evaluator) : Call → Returned × Evaluator
  | .compute request world =>
    let ((response, after), later) := evaluator.compute request world.state
    (.computed response ⟨later⟩, after)
  | .discard request =>
    let (found, after) := evaluator.discard request
    (.discarded found, after)

/-! ### Sessions -/

namespace Evaluation

variable {request : Request} {settings : Settings}

/-- A session that waits to be resumed: it is not done, and nothing was delivered yet. -/
structure Waits (request : Request) (settings : Settings) (session : EvaluationSession) :
    Prop where
  not_finished : session.finished = false
  underway : Underway request settings Slot.empty session.machine

private theorem waits_start (request : Request) (settings : Settings) :
    Waits request settings (.start (.begin request settings Slot.empty)) :=
  ⟨rfl, underway_begin request settings Slot.empty⟩

/-- A session goes on waiting until it is done, and then its evaluation is over. -/
theorem Waits.resume {σ : Type} [Environment σ] {session : EvaluationSession}
    (h : Waits request settings session) (world : σ) :
    Machine.Stands (Waits request settings)
      (fun after : EvaluationSession => Over request settings Slot.empty after.machine)
      (session.resume world).ending (session.resume world).machine := by
  unfold Session.resume
  rw [h.not_finished, if_neg Bool.false_ne_true]
  cases Environment.raised world with
  | mk flag later =>
      cases flag with
      | true => exact h
      | false =>
          have hrun := h.underway.run later
          dsimp only
          generalize Machine.run session.machine later = ran at hrun ⊢
          obtain ⟨ending, after, last⟩ := ran
          cases ending with
          | suspended => exact ⟨rfl, hrun⟩
          | interrupted => exact ⟨rfl, hrun⟩
          | done => exact hrun

private theorem answerOf_eq (evaluation : Evaluation (Slot EvaluationError Configuration)) :
    Evaluator.answerOf evaluation = .ofOutcome evaluation.sink.outcome := by
  unfold Evaluator.answerOf Slot.take
  cases evaluation.sink.outcome with
  | none => rfl
  | some outcome => cases outcome <;> rfl

private theorem Over.ofOutcome_ne_stuck
    {evaluation : Evaluation (Slot EvaluationError Configuration)}
    (h : Over request settings Slot.empty evaluation) :
    Response.ofOutcome evaluation.sink.outcome ≠ .stuck := by
  obtain ⟨_, _, outcome, _, _, _, hsink⟩ := h.delivered
  rw [hsink]
  cases outcome <;> exact nofun

end Evaluation

open Evaluation (Waits)

/-! ### Registers -/

/-- Sessions by their requests. -/
abbrev Register : Type :=
  Finmap fun _ : Request => EvaluationSession

namespace Register

variable {settings : Settings} {register : Register}

/-- The session of a request; a fresh one if the register has none. -/
def current (settings : Settings) (register : Register) (request : Request) :
    EvaluationSession :=
  (register.lookup request).getD (.start (.begin request settings Slot.empty))

/-- One call of a register. -/
def call (settings : Settings) (register : Register) : Call → Returned × Register
  | .compute request world =>
    let ran := (register.current settings request).resume world.state
    match ran.ending with
    | .suspended => (.computed .notReady ⟨ran.world⟩, register.insert request ran.machine)
    | .interrupted =>
      (.computed (.failed .interrupted) ⟨ran.world⟩, register.insert request ran.machine)
    | .done =>
      (.computed (.ofOutcome ran.machine.machine.sink.outcome) ⟨ran.world⟩, register.erase request)
  | .discard request => (.discarded (register.lookup request).isSome, register.erase request)

/-- All sessions of the register wait. -/
def Waiting (settings : Settings) (register : Register) : Prop :=
  ∀ request session, register.lookup request = some session → Waits request settings session

theorem Waiting.current (h : register.Waiting settings) (request : Request) :
    Waits request settings (register.current settings request) := by
  unfold Register.current
  cases hlookup : register.lookup request with
  | none => exact Evaluation.waits_start request settings
  | some session => exact h request session hlookup

private theorem Waiting.insert (h : register.Waiting settings) {request : Request}
    {session : EvaluationSession} (hsession : Waits request settings session) :
    Waiting settings (register.insert request session) := by
  intro other found hfound
  by_cases hother : other = request
  · subst hother
    rw [Finmap.lookup_insert] at hfound
    cases hfound
    exact hsession
  · rw [Finmap.lookup_insert_of_ne _ hother] at hfound
    exact h other found hfound

private theorem Waiting.erase (h : register.Waiting settings) (request : Request) :
    Waiting settings (register.erase request) := by
  intro other found hfound
  by_cases hother : other = request
  · subst hother
    rw [Finmap.lookup_erase] at hfound
    cases hfound
  · rw [Finmap.lookup_erase_ne hother] at hfound
    exact h other found hfound

theorem Waiting.call (h : register.Waiting settings) (call : Call) :
    Waiting settings (register.call settings call).2 ∧
      ∀ world, (register.call settings call).1 ≠ .computed .stuck world := by
  cases call with
  | discard request => exact ⟨h.erase request, by simp [Register.call]⟩
  | compute request world =>
      have hresume := (h.current request).resume world.state
      unfold Register.call
      dsimp only
      cases hending : ((register.current settings request).resume world.state).ending with
      | suspended =>
          rw [hending] at hresume
          exact ⟨h.insert hresume, by simp⟩
      | interrupted =>
          rw [hending] at hresume
          exact ⟨h.insert hresume, by simp⟩
      | done =>
          rw [hending] at hresume
          refine ⟨h.erase request, ?_⟩
          intro later hstuck
          injection hstuck with hanswer
          exact hresume.ofOutcome_ne_stuck hanswer

/-! ### Requests do not share anything -/

theorem lookup_call_of_ne {call : Call} {other : Request} (h : other ≠ call.request) :
    (register.call settings call).2.lookup other = register.lookup other := by
  cases call with
  | discard request => exact Finmap.lookup_erase_ne h
  | compute request world =>
      unfold Register.call
      dsimp only
      cases ((register.current settings request).resume world.state).ending with
      | suspended => exact Finmap.lookup_insert_of_ne _ h
      | interrupted => exact Finmap.lookup_insert_of_ne _ h
      | done => exact Finmap.lookup_erase_ne h

/-- A call depends on the session of its request, and so does what it makes of that session. -/
theorem call_congr (settings : Settings) {a b : Register} {call : Call}
    (h : a.lookup call.request = b.lookup call.request) :
    (a.call settings call).1 = (b.call settings call).1 ∧
      (a.call settings call).2.lookup call.request =
        (b.call settings call).2.lookup call.request := by
  cases call with
  | discard request =>
      have hlookup : a.lookup request = b.lookup request := h
      refine ⟨?_, (Finmap.lookup_erase request a).trans (Finmap.lookup_erase request b).symm⟩
      show Returned.discarded _ = .discarded _
      rw [hlookup]
  | compute request world =>
      have hlookup : a.lookup request = b.lookup request := h
      have hcurrent : a.current settings request = b.current settings request := by
        unfold current
        rw [hlookup]
      unfold Register.call
      dsimp only
      rw [hcurrent]
      cases ((b.current settings request).resume world.state).ending with
      | suspended =>
          exact ⟨rfl, (Finmap.lookup_insert a).trans (Finmap.lookup_insert b).symm⟩
      | interrupted =>
          exact ⟨rfl, (Finmap.lookup_insert a).trans (Finmap.lookup_insert b).symm⟩
      | done =>
          exact ⟨rfl,
            (Finmap.lookup_erase request a).trans (Finmap.lookup_erase request b).symm⟩

/-- **Calls for other requests make no difference.** -/
theorem returnedFor_callAll {request : Request} (calls : List Call) {a b : Register}
    (h : a.lookup request = b.lookup request) :
    returnedFor request calls (callAll (call settings) a calls).1 =
      (callAll (call settings) b (calls.filter fun call => call.request = request)).1 := by
  induction calls generalizing a b with
  | nil => rfl
  | cons call rest ih =>
      unfold returnedFor at ih ⊢
      by_cases hcall : call.request = request
      · subst hcall
        obtain ⟨hreturned, hlookup⟩ := call_congr settings h
        simp only [callAll, List.zip_cons_cons, List.filter_cons, decide_true, if_true,
          List.map_cons]
        rw [hreturned, ih hlookup]
      · have hlookup : (a.call settings call).2.lookup request = b.lookup request :=
          (lookup_call_of_ne (Ne.symm hcall)).trans h
        simp only [callAll, List.zip_cons_cons, List.filter_cons, hcall, decide_false]
        exact ih hlookup

theorem Waiting.callAll (calls : List Call) {register : Register}
    (h : register.Waiting settings) :
    Waiting settings (Baseline.callAll (Register.call settings) register calls).2 ∧
      ∀ world, .computed .stuck world ∉
        (Baseline.callAll (Register.call settings) register calls).1 := by
  induction calls generalizing register with
  | nil => exact ⟨h, fun world => List.not_mem_nil⟩
  | cons call rest ih =>
      obtain ⟨hwaiting, hnot⟩ := h.call call
      obtain ⟨hrest, hnone⟩ := ih hwaiting
      refine ⟨hrest, ?_⟩
      intro world hmem
      obtain hfirst | hmore := List.mem_cons.mp hmem
      · exact hnot world hfirst.symm
      · exact hnone world hmore

end Register

/-! ### The table of an evaluator -/

namespace Evaluator

variable {evaluator : Evaluator}

private theorem entryOf_remove (evaluator : Evaluator) (request other : Request) :
    Evaluator.entryOf (evaluator.remove request) other =
      if other = request then none else evaluator.entryOf other := by
  unfold entryOf remove
  rw [List.find?_filter]
  by_cases h : other = request
  · rw [if_pos h, h, Option.map_eq_none_iff, List.find?_eq_none]
    simp
  · rw [if_neg h]
    congr 2
    funext row
    by_cases hrow : row.1 = other
    · simp [hrow, h]
    · simp [hrow]

theorem entryOf_put (evaluator : Evaluator) (request other : Request) (entry : Entry) :
    Evaluator.entryOf (evaluator.put request entry) other =
      if other = request then some entry else evaluator.entryOf other := by
  by_cases h : other = request
  · rw [if_pos h, h]
    simp [entryOf, put]
  · have hremoved := entryOf_remove evaluator request other
    rw [if_neg h] at hremoved ⊢
    rw [← hremoved]
    simp [entryOf, put, Ne.symm h]

/-- No request has two entries. -/
def Distinct (evaluator : Evaluator) : Prop :=
  (evaluator.table.map (·.1)).Nodup

theorem Distinct.remove (h : evaluator.Distinct) (request : Request) :
    (evaluator.remove request).Distinct :=
  h.sublist (List.Sublist.map _ List.filter_sublist)

theorem Distinct.put (h : evaluator.Distinct) (request : Request) (entry : Entry) :
    (evaluator.put request entry).Distinct := by
  refine List.nodup_cons.mpr ⟨?_, h.remove request⟩
  simp [Evaluator.remove]

private theorem mem_requests_iff {request : Request} :
    request ∈ evaluator.table.map (·.1) ↔ (evaluator.entryOf request).isSome := by
  simp [entryOf, List.find?_isSome]

end Evaluator

/-- An evaluator between calls, as the register that it is. -/
structure Represents (settings : Settings) (register : Register) (evaluator : Evaluator) :
    Prop where
  settings_eq : evaluator.settings = settings
  /-- No entry is vacant or retired. -/
  entry_eq : ∀ request, evaluator.entryOf request = (register.lookup request).map .waiting
  distinct : evaluator.Distinct

/-- An evaluator during a call: nothing is said about the entry of the call's request. -/
structure RepresentsBut (settings : Settings) (register : Register) (request : Request)
    (evaluator : Evaluator) : Prop where
  settings_eq : evaluator.settings = settings
  entry_eq : ∀ other, other ≠ request →
    evaluator.entryOf other = (register.lookup other).map .waiting
  distinct : evaluator.Distinct

namespace RepresentsBut

variable {settings : Settings} {register : Register} {request : Request} {evaluator : Evaluator}

private theorem put (h : RepresentsBut settings register request evaluator)
    (entry : Evaluator.Entry) :
    RepresentsBut settings register request (evaluator.put request entry) := by
  refine ⟨h.settings_eq, ?_, h.distinct.put request entry⟩
  intro other hother
  rw [Evaluator.entryOf_put, if_neg hother, h.entry_eq other hother]

private theorem insert (h : RepresentsBut settings register request evaluator)
    (session : EvaluationSession) :
    Represents settings (register.insert request session)
      (evaluator.put request (.waiting session)) := by
  refine ⟨h.settings_eq, ?_, h.distinct.put request _⟩
  intro other
  rw [Evaluator.entryOf_put]
  by_cases hother : other = request
  · rw [if_pos hother, hother, Finmap.lookup_insert, Option.map_some]
  · rw [if_neg hother, Finmap.lookup_insert_of_ne _ hother, h.entry_eq other hother]

private theorem erase (h : RepresentsBut settings register request evaluator) :
    Represents settings (register.erase request) (evaluator.remove request) := by
  refine ⟨h.settings_eq, ?_, h.distinct.remove request⟩
  intro other
  rw [Evaluator.entryOf_remove]
  by_cases hother : other = request
  · rw [if_pos hother, hother, Finmap.lookup_erase, Option.map_none]
  · rw [if_neg hother, Finmap.lookup_erase_ne hother, h.entry_eq other hother]

end RepresentsBut

namespace Represents

variable {settings : Settings} {register : Register} {evaluator : Evaluator}

theorem start (settings : Settings) : Represents settings ∅ (.start settings) :=
  ⟨rfl, fun _ => rfl, List.nodup_nil⟩

theorem but (h : Represents settings register evaluator) (request : Request) :
    RepresentsBut settings register request evaluator :=
  ⟨h.settings_eq, fun other _ => h.entry_eq other, h.distinct⟩

/-- There is a session to be resumed for every request, and it is the one in the register. -/
theorem sessionOf_eq (h : Represents settings register evaluator) (request : Request) :
    evaluator.sessionOf request = some (register.current settings request) := by
  unfold Evaluator.sessionOf Register.current Evaluator.fresh
  rw [h.entry_eq, h.settings_eq]
  cases register.lookup request <;> rfl

theorem inFlight_eq (h : Represents settings register evaluator) :
    evaluator.inFlight = register.keys.card := by
  have hkeys : register.keys = (evaluator.table.map (·.1)).toFinset := by
    ext request
    rw [Finmap.mem_keys, ← Finmap.lookup_isSome, List.mem_toFinset, Evaluator.mem_requests_iff,
      h.entry_eq, Option.isSome_map]
  rw [hkeys, List.toFinset_card_of_nodup h.distinct, List.length_map]
  rfl

/-- A call gives back what the register gives back, and represents the register after it. -/
theorem call (h : Represents settings register evaluator) (call : Call) :
    (evaluator.call call).1 = (register.call settings call).1 ∧
      Represents settings (register.call settings call).2 (evaluator.call call).2 := by
  cases call with
  | discard request =>
      refine ⟨?_, (h.but request).erase⟩
      show Returned.discarded _ = .discarded _
      rw [h.entry_eq, Option.isSome_map]
  | compute request world =>
      unfold Evaluator.call Register.call Evaluator.compute
      dsimp only
      rw [h.sessionOf_eq]
      dsimp only
      generalize (register.current settings request).resume world.state = ran
      obtain ⟨ending, session, later⟩ := ran
      have hvacant := (h.but request).put .vacant
      cases ending with
      | suspended => exact ⟨rfl, hvacant.insert session⟩
      | interrupted => exact ⟨rfl, hvacant.insert session⟩
      | done =>
          refine ⟨?_, (hvacant.put .retired).erase⟩
          show Returned.computed (Evaluator.answerOf session.machine) _ = _
          rw [Evaluation.answerOf_eq]

theorem callAll (calls : List Call) {register : Register} {evaluator : Evaluator}
    (h : Represents settings register evaluator) :
    (Baseline.callAll Evaluator.call evaluator calls).1 =
        (Baseline.callAll (Register.call settings) register calls).1 ∧
      Represents settings (Baseline.callAll (Register.call settings) register calls).2
        (Baseline.callAll Evaluator.call evaluator calls).2 := by
  induction calls generalizing register evaluator with
  | nil => exact ⟨rfl, h⟩
  | cons call rest ih =>
      obtain ⟨hreturned, hafter⟩ := h.call call
      obtain ⟨hrest, hlast⟩ := ih hafter
      exact ⟨congrArg₂ List.cons hreturned hrest, hlast⟩

end Represents

/--
**An evaluator is a register.**  It gives back the same to any calls, and in between it
has as many evaluations under way as the register has sessions, each of them in an entry
of its own and waiting to be resumed.  There is always a session for the next call to
resume, so no call is ever stuck, and what is given back for one request is the same
without the calls for the others.
-/
theorem callAll_evaluator (settings : Settings) (calls : List Call) :
    let evaluated := callAll Evaluator.call (.start settings) calls
    let registered := callAll (Register.call settings) ∅ calls
    evaluated.1 = registered.1 ∧
    evaluated.2.inFlight = registered.2.keys.card ∧
    (∀ request, Evaluator.entryOf evaluated.2 request =
      (registered.2.lookup request).map .waiting) ∧
    (∀ request session, registered.2.lookup request = some session →
      Waits request settings session) ∧
    (∀ request, evaluated.2.sessionOf request =
      some (registered.2.current settings request)) ∧
    (∀ world, .computed .stuck world ∉ evaluated.1) ∧
    ∀ request, returnedFor request calls evaluated.1 =
      (callAll Evaluator.call (.start settings)
        (calls.filter fun call => call.request = request)).1 := by
  obtain ⟨hreturned, hafter⟩ := (Represents.start settings).callAll calls
  have hempty : Register.Waiting settings ∅ := fun _ _ h => nomatch h
  obtain ⟨hwaiting, hnot⟩ := hempty.callAll calls
  dsimp only
  rw [hreturned]
  refine ⟨rfl, hafter.inFlight_eq, hafter.entry_eq, hwaiting, hafter.sessionOf_eq, hnot, ?_⟩
  intro request
  rw [Register.returnedFor_callAll calls rfl, ((Represents.start settings).callAll _).1]

end BuildConfig.Baseline
