/-
Driving a machine to its end.

A session is resumed again and again, each time in a world that may be another one, and the
machine need not be one that ends: `Makes` is what a call of a session does if it returns,
together with the steps that it takes.  When the steps that do not complete leave the machine
as it was, the calls do not matter: the steps that complete form one chain, as if there had
been a single call, and each call adds some of them and stops at the first step that does not
complete.  The last of the chain is the first step that leaves nothing to do, and no later
call takes another.

What carries the proof is the shape of a single run, `Machine.Shaped`: all of its steps but the
last one go on, and the last one says how the run ends.
-/
import BuildConfig.Evaluation.Session
import BuildConfig.Proofs.Evaluation.Steps
import BuildConfig.Proofs.Evaluation.Cancellation
import BuildConfig.Proofs.Mapping.Arrival

namespace BuildConfig

namespace Attempt

variable {μ : Type} [Machine μ]

/-- Whether the step has finished a piece of work. -/
def completed (attempt : Attempt μ) : Bool :=
  attempt.came.ending.completes

/-- The flag was looked at right before the step, and it was not raised. -/
def Unraised (attempt : Attempt μ) : Prop :=
  ∃ before : attempt.world.σ, Environment.raised before = (false, attempt.world.state)

end Attempt

namespace Machine

variable {μ : Type} [Machine μ]

/-- Wherever steps lead from here, those that do not complete leave the machine as it is. -/
def Restartable (machine : μ) : Prop :=
  ∀ (worlds : List World) (world : World),
    (Attempt.mk (along machine worlds) world).completed = false →
      (Attempt.mk (along machine worlds) world).came.machine = along machine worlds

theorem Restartable.chain {first last : μ} {taken : List (Attempt μ)} (h : Restartable first)
    (hchain : Chain first taken last) : Restartable last := by
  intro worlds world
  rw [hchain.eq_along, ← along_append]
  exact h _ world

/-! ### The shape of a run -/

/-- All steps but the last one go on, and the last one ends the run like this. -/
inductive Shaped : List (Attempt μ) → RunEnd → Prop
  /-- The flag was raised before another step. -/
  | stopped {going : List (Attempt μ)}
      (hgoing : ∀ attempt ∈ going, attempt.came.ending = .next) : Shaped going .interrupted
  | last {going : List (Attempt μ)} {attempt : Attempt μ} (ending : RunEnd)
      (hgoing : ∀ attempt ∈ going, attempt.came.ending = .next)
      (hlast : attempt.came.ending = ending.toStep) : Shaped (going ++ [attempt]) ending

namespace Shaped

variable {taken : List (Attempt μ)} {ending : RunEnd}

private theorem cons (h : Shaped taken ending) {attempt : Attempt μ}
    (hnext : attempt.came.ending = .next) : Shaped (attempt :: taken) ending := by
  cases h with
  | stopped hgoing => exact .stopped (List.forall_mem_cons.mpr ⟨hnext, hgoing⟩)
  | last ending hgoing hlast =>
      rw [← List.cons_append]
      exact .last ending (List.forall_mem_cons.mpr ⟨hnext, hgoing⟩) hlast

/-- A step that another one comes after has gone on. -/
theorem pairwise (h : Shaped taken ending) :
    taken.Pairwise fun earlier _ => earlier.came.ending = .next := by
  cases h with
  | stopped hgoing => exact List.pairwise_of_forall_mem_list fun a ha _ _ => hgoing a ha
  | last ending hgoing hlast =>
      rw [List.pairwise_append]
      refine ⟨List.pairwise_of_forall_mem_list fun a ha _ _ => hgoing a ha, ?_, ?_⟩
      · exact List.pairwise_singleton _ _
      · intro a ha _ _
        exact hgoing a ha

private theorem eq_done_of_mem (h : Shaped taken ending) {attempt : Attempt μ}
    (hmem : attempt ∈ taken) (hdone : attempt.came.ending = .done) : ending = .done := by
  cases h with
  | stopped hgoing => simp [hgoing attempt hmem] at hdone
  | last ending hgoing hlast =>
      obtain hbefore | hmem := List.mem_append.mp hmem
      · simp [hgoing attempt hbefore] at hdone
      · rw [← List.mem_singleton.mp hmem, hdone] at hlast
        cases ending <;> simp [RunEnd.toStep] at hlast ⊢

private theorem eq_done_iff (h : Shaped taken ending) :
    ending = .done ↔ ∃ attempt ∈ taken.getLast?, attempt.came.ending = .done := by
  cases h with
  | stopped hgoing =>
      refine iff_of_false (by simp) ?_
      rintro ⟨attempt, hlast, hdone⟩
      rw [hgoing attempt (List.mem_of_getLast? hlast)] at hdone
      cases hdone
  | @last going attempt ending hgoing hlast =>
      simp only [List.getLast?_concat, Option.mem_some_iff, exists_eq_left', hlast]
      cases ending <;> simp [RunEnd.toStep]

end Shaped

namespace Takes

variable {σ : Type} [Environment σ] {machine : μ} {world : σ} {taken : List (Attempt μ)}
  {ran : Ran μ σ}

theorem shaped (h : Takes machine world taken ran) : Shaped taken ran.ending := by
  induction h with
  | raised hflag => exact .stopped (by simp)
  | next hflag hstep _ ih => exact ih.cons (by rw [Attempt.came, hstep])
  | @last machine _ _ _ ending hflag hstep =>
      have hnone : ∀ attempt ∈ ([] : List (Attempt μ)), attempt.came.ending = .next := by simp
      exact .last ending hnone (by rw [Attempt.came, hstep])

theorem unraised (h : Takes machine world taken ran) : ∀ attempt ∈ taken, attempt.Unraised := by
  have hlooked : ∀ {world : σ}, (Environment.raised world).1 = false →
      ∀ machine : μ, (Attempt.mk machine ⟨(Environment.raised world).2⟩).Unraised :=
    fun hflag _ => ⟨_, Prod.ext hflag rfl⟩
  induction h with
  | raised hflag => simp
  | next hflag _ _ ih => exact List.forall_mem_cons.mpr ⟨hlooked hflag _, ih⟩
  | last ending hflag _ => exact List.forall_mem_singleton.mpr (hlooked hflag _)

/-- **The steps of a run that complete lead from its machine to the machine after it.** -/
theorem chain (h : Takes machine world taken ran) (hrestart : Restartable machine) :
    Chain machine (taken.filter Attempt.completed) ran.machine := by
  induction h with
  | raised hflag => exact rfl
  | @next machine next world later taken ran hflag hstep _ ih =>
      have hsingle := Chain.single (Attempt.mk machine ⟨(Environment.raised world).2⟩)
      have hcompleted : (Attempt.mk machine ⟨(Environment.raised world).2⟩).completed = true := by
        rw [Attempt.completed, Attempt.came, hstep]
        rfl
      rw [Attempt.came, hstep] at hsingle
      rw [List.filter_cons, if_pos hcompleted]
      exact hsingle.append (ih (hrestart.chain hsingle))
  | @last machine last world later ending hflag hstep =>
      have hsingle := Chain.single (Attempt.mk machine ⟨(Environment.raised world).2⟩)
      have hkept := hrestart [] ⟨(Environment.raised world).2⟩
      rw [along, Attempt.completed, Attempt.came, hstep] at hkept
      rw [Attempt.came, hstep] at hsingle
      rw [List.filter_singleton, Attempt.completed, Attempt.came, hstep]
      cases ending with
      | done => exact hsingle
      | suspended => exact hkept rfl
      | interrupted => exact hkept rfl

end Takes

end Machine

/-- A batch that goes on with nothing is left as it was by the steps that do not complete. -/
theorem Mapping.Batch.restartable {ς : Type} [Sink ς Mapping.Delivery]
    (batch : Mapping.Batch ς Idle) : Machine.Restartable batch := by
  intro worlds world
  generalize Machine.along batch worlds = later
  show (later.step world.state).ending.completes = false →
    (later.step world.state).machine = later
  obtain ⟨act, hdoes⟩ := Mapping.Batch.step_does later world.state
  generalize later.step world.state = stepped at hdoes ⊢
  intro hkept
  cases hdoes with
  | found _ _ => cases hkept
  | lacking _ _ => rfl
  | interrupted _ _ => rfl
  | refused _ _ => cases hkept
  | applied _ => cases hkept
  | rested _ => cases hkept
  | continued hstage hrun =>
      -- Doing nothing can be interrupted, but it cannot be suspended.
      rw [← Machine.goes_iff.mp hrun] at hkept ⊢
      cases hflag : (Environment.raised world.state).1 with
      | true =>
          rw [Machine.run_of_raised hflag]
          obtain ⟨request, sink, after, stage⟩ := later
          cases hstage
          rfl
      | false =>
          rw [Machine.run_of_lowered hflag] at hkept
          cases hkept

/-! ### Calls of a session -/

namespace Session

variable {μ : Type} [Machine μ]

/-- A call: the world that it is made in, the steps that it takes, and what it comes to. -/
structure Call (μ : Type) where
  world : World
  taken : List (Attempt μ)
  ran : Ran (Session μ) world.σ

/-- The last step of the call leaves nothing to do. -/
def Call.Finishes (call : Call μ) : Prop :=
  ∃ attempt ∈ call.taken.getLast?, attempt.came.ending = .done

/-- The session can be resumed by this call. -/
inductive Makes : Session μ → Call μ → Prop
  | finished {session : Session μ} {world : World} (h : session.finished = true) :
      Makes session ⟨world, [], ⟨.done, session, world.state⟩⟩
  | raised {session : Session μ} {world : World} (h : session.finished = false)
      (hflag : (Environment.raised world.state).1 = true) :
      Makes session ⟨world, [], ⟨.interrupted, session, (Environment.raised world.state).2⟩⟩
  | run {session : Session μ} {world : World} {taken : List (Attempt μ)} {ran : Ran μ world.σ}
      (h : session.finished = false) (hflag : (Environment.raised world.state).1 = false)
      (hrun : Machine.Takes session.machine (Environment.raised world.state).2 taken ran) :
      Makes session ⟨world, taken, ⟨ran.ending, ⟨ran.machine, ran.ending == .done⟩, ran.world⟩⟩

/-- The session can be resumed by one of the calls after the other, and is this one after them. -/
inductive MakesAll : Session μ → List (Call μ) → Session μ → Prop
  | nil {session : Session μ} : MakesAll session [] session
  | cons {session last : Session μ} {call : Call μ} {calls : List (Call μ)}
      (hfirst : Makes session call) (hrest : MakesAll call.ran.machine calls last) :
      MakesAll session (call :: calls) last

/-! ### Machines that end -/

/-- The session after it was resumed in one world after the other. -/
def resumes [Machine.Ends μ] (session : Session μ) : List World → Session μ
  | [] => session
  | world :: worlds => resumes (session.resume world.state).machine worlds

/-- The steps of a call of a session with a machine that ends. -/
def stepsIn {σ : Type} [Machine.Ends μ] [Environment σ] (session : Session μ) (world : σ) :
    List (Attempt μ) :=
  if session.finished || (Environment.raised world).1 then []
  else Machine.attempts session.machine (Environment.raised world).2

/-- **When the machine ends, the call is what `resume` says.** -/
theorem makes_resume [Machine.Ends μ] (session : Session μ) (world : World) :
    Makes session ⟨world, session.stepsIn world.state, session.resume world.state⟩ := by
  unfold stepsIn
  obtain ⟨hfinished, hresume⟩ | ⟨hfinished, hflag, hresume⟩ | ⟨hfinished, hflag, hresume⟩ :=
    session.resume_cases world.state
  · rw [hresume, hfinished]
    exact .finished hfinished
  · rw [hresume, hfinished, hflag]
    exact .raised hfinished hflag
  · rw [hresume, hfinished, hflag]
    exact .run hfinished hflag (Machine.takes_attempts _ _)

/-- The calls that resume the session in one world after the other. -/
def callsIn [Machine.Ends μ] (session : Session μ) : List World → List (Call μ)
  | [] => []
  | world :: worlds =>
    ⟨world, session.stepsIn world.state, session.resume world.state⟩ ::
      callsIn (session.resume world.state).machine worlds

theorem makesAll_resumes [Machine.Ends μ] (session : Session μ) (worlds : List World) :
    MakesAll session (session.callsIn worlds) (session.resumes worlds) := by
  induction worlds generalizing session with
  | nil => exact .nil
  | cons world rest ih => exact .cons (session.makes_resume world) (ih _)

theorem chain_callsIn [Machine.Ends μ] (session : Session μ) (worlds : List World) :
    Machine.Chain session.machine ((session.callsIn worlds).flatMap Call.taken)
      (session.resumes worlds).machine := by
  induction worlds generalizing session with
  | nil => exact rfl
  | cons world rest ih =>
      refine Machine.Chain.append ?_ (ih (session.resume world.state).machine)
      show Machine.Chain _ (session.stepsIn world.state) _
      unfold stepsIn
      obtain ⟨hfinished, hresume⟩ | ⟨hfinished, hflag, hresume⟩ | ⟨hfinished, hflag, hresume⟩ :=
        session.resume_cases world.state
      · rw [hresume, hfinished]
        exact rfl
      · rw [hresume, hfinished, hflag]
        exact rfl
      · rw [hresume, hfinished, hflag]
        exact Machine.chain_attempts _ _

theorem resumes_append [Machine.Ends μ] (session : Session μ) (worlds more : List World) :
    session.resumes (worlds ++ more) = (session.resumes worlds).resumes more := by
  induction worlds generalizing session with
  | nil => rfl
  | cons world rest ih => exact ih _

/-! ### Whatever is done with a machine -/

/-- What can be done with a machine: it is run, or it is driven in a session of its own. -/
inductive Use
  | run (world : World)
  | drive (worlds : List World)

namespace Use

variable [Machine.Ends μ]

/-- The steps that are taken. -/
def taken (machine : μ) : Use → List (Attempt μ)
  | run world => Machine.attempts machine world.state
  | drive worlds => ((start machine).callsIn worlds).flatMap Call.taken

/-- The machine that is left, taken out of its session again. -/
def left (machine : μ) : Use → μ
  | run world => (Machine.run machine world.state).machine
  | drive worlds => ((start machine).resumes worlds).machine

/-- The steps that are taken in one use after the other. -/
def takenIn (machine : μ) : List Use → List (Attempt μ)
  | [] => []
  | use :: uses => use.taken machine ++ takenIn (use.left machine) uses

def leftBy (machine : μ) : List Use → μ
  | [] => machine
  | use :: uses => leftBy (use.left machine) uses

theorem chain_taken (use : Use) (machine : μ) :
    Machine.Chain machine (use.taken machine) (use.left machine) := by
  cases use with
  | run world => exact Machine.chain_attempts machine world.state
  | drive worlds => exact (start machine).chain_callsIn worlds

/-- **Whatever is done with a machine is a chain of steps.** -/
theorem chain_takenIn (uses : List Use) (machine : μ) :
    Machine.Chain machine (takenIn machine uses) (leftBy machine uses) := by
  induction uses generalizing machine with
  | nil => exact rfl
  | cons use rest ih => exact (use.chain_taken machine).append (ih _)

end Use

section Calls

variable {session middle last : Session μ} {call : Call μ} {calls before after : List (Call μ)}

/-! ### One call -/

theorem Makes.of_finished (h : Makes session call) (hfinished : session.finished = true) :
    call.taken = [] ∧ call.ran = ⟨.done, session, call.world.state⟩ := by
  cases h with
  | finished _ => exact ⟨rfl, rfl⟩
  | raised hgoing _ => simp [hfinished] at hgoing
  | run hgoing _ _ => simp [hfinished] at hgoing

theorem Makes.ending_iff (h : Makes session call) :
    call.ran.ending = .done ↔ call.ran.machine.finished = true := by
  cases h with
  | finished hfinished => simp [hfinished]
  | raised hgoing _ => simp [hgoing]
  | run _ _ _ => simp

/-- A session is done before the call, or by the last step of it. -/
theorem Makes.finished_iff (h : Makes session call) :
    call.ran.machine.finished = true ↔ session.finished = true ∨ call.Finishes := by
  cases h with
  | finished hfinished => simp [hfinished]
  | raised hgoing _ => simp [hgoing, Call.Finishes]
  | run hgoing _ hrun => simp [hgoing, Call.Finishes, hrun.shaped.eq_done_iff]

theorem Makes.pairwise (h : Makes session call) :
    call.taken.Pairwise fun earlier _ => earlier.came.ending = .next := by
  cases h with
  | finished _ => exact .nil
  | raised _ _ => exact .nil
  | run _ _ hrun => exact hrun.shaped.pairwise

theorem Makes.finished_of_mem (h : Makes session call) {attempt : Attempt μ}
    (hmem : attempt ∈ call.taken) (hdone : attempt.came.ending = .done) :
    call.ran.machine.finished = true := by
  cases h with
  | finished _ => simp at hmem
  | raised _ _ => simp at hmem
  | run _ _ hrun => simp [hrun.shaped.eq_done_of_mem hmem hdone]

theorem Makes.unraised (h : Makes session call) : ∀ attempt ∈ call.taken, attempt.Unraised := by
  cases h with
  | finished _ => simp
  | raised _ _ => simp
  | run _ _ hrun => exact hrun.unraised

theorem Makes.chain (h : Makes session call) (hrestart : Machine.Restartable session.machine) :
    Machine.Chain session.machine (call.taken.filter Attempt.completed)
      call.ran.machine.machine := by
  cases h with
  | finished _ => exact rfl
  | raised _ _ => exact rfl
  | run _ _ hrun => exact hrun.chain hrestart

/-! ### One call after the other -/

theorem MakesAll.split (h : MakesAll session (before ++ call :: after) last) :
    ∃ middle, MakesAll session before middle ∧ Makes middle call ∧
      MakesAll call.ran.machine after last := by
  induction before generalizing session with
  | nil =>
      cases h with
      | cons hfirst hrest => exact ⟨session, .nil, hfirst, hrest⟩
  | cons first rest ih =>
      cases h with
      | cons hfirst hrest =>
          obtain ⟨middle, hbefore, hcall, hafter⟩ := ih hrest
          exact ⟨middle, .cons hfirst hbefore, hcall, hafter⟩

theorem MakesAll.of_finished (h : MakesAll session calls last)
    (hfinished : session.finished = true) :
    last = session ∧ calls.flatMap Call.taken = [] := by
  induction h with
  | nil => exact ⟨rfl, rfl⟩
  | cons hfirst _ ih =>
      obtain ⟨htaken, hran⟩ := hfirst.of_finished hfinished
      rw [hran] at ih
      rw [List.flatMap_cons, htaken]
      exact ih hfinished

/-- The machine is done from the first call on whose last step leaves nothing to do. -/
theorem MakesAll.finished_iff (h : MakesAll session calls last) :
    last.finished = true ↔ session.finished = true ∨ ∃ call ∈ calls, call.Finishes := by
  induction h with
  | nil => simp
  | cons hfirst _ ih => rw [ih, hfirst.finished_iff, or_assoc, List.exists_mem_cons_iff]

/-- No step is taken after one that leaves nothing to do. -/
theorem MakesAll.pairwise (h : MakesAll session calls last) :
    (calls.flatMap Call.taken).Pairwise fun earlier _ => earlier.came.ending ≠ .done := by
  induction h with
  | nil => exact .nil
  | cons hfirst hrest ih =>
      rw [List.flatMap_cons, List.pairwise_append]
      refine ⟨hfirst.pairwise.imp fun hnext => by simp [hnext], ih, ?_⟩
      intro earlier hearlier later hlater hdone
      rw [(hrest.of_finished (hfirst.finished_of_mem hearlier hdone)).2] at hlater
      simp at hlater

/-- **The steps that complete form one chain over all calls.** -/
theorem MakesAll.chain (h : MakesAll session calls last)
    (hrestart : Machine.Restartable session.machine) :
    Machine.Chain session.machine ((calls.flatMap Call.taken).filter Attempt.completed)
      last.machine := by
  induction h with
  | nil => exact rfl
  | cons hfirst _ ih =>
      have hchain := hfirst.chain hrestart
      rw [List.flatMap_cons, List.filter_append]
      exact hchain.append (ih (hrestart.chain hchain))

theorem MakesAll.forall_mem (h : MakesAll session calls last) :
    ∀ call ∈ calls, ∃ earlier : Session μ, Makes earlier call := by
  intro call hmem
  obtain ⟨before, after, rfl⟩ := List.append_of_mem hmem
  obtain ⟨middle, -, hcall, -⟩ := h.split
  exact ⟨middle, hcall⟩

end Calls

/--
**Driving is one chain of steps.**  Let a session be resumed in any worlds by calls that
return, with a machine that steps which do not complete leave as it was.  The steps of all
calls that complete begin with that machine, each other one begins with what the one before
it has left, and they end with the machine that is left.  No step is taken after one that
leaves nothing to do, or without having seen that the flag is not raised, and in each call
all steps but the last one complete.  A call says that nothing is left to do when its last
step leaves nothing to do, or that of an earlier call did; after such a call neither the
machine nor the world is touched any more.
-/
theorem drives_one_chain {machine : μ} {calls : List (Call μ)} {last : Session μ}
    (hrestart : Machine.Restartable machine) (h : MakesAll (.start machine) calls last) :
    let taken := calls.flatMap Call.taken
    Machine.Chain machine (taken.filter Attempt.completed) last.machine ∧
    (taken.Pairwise fun earlier _ => earlier.came.ending ≠ .done) ∧
    (∀ attempt ∈ taken, attempt.Unraised) ∧
    (∀ call ∈ calls, call.taken.Pairwise fun earlier _ => earlier.completed = true) ∧
    ∀ before call after, calls = before ++ call :: after →
      (call.ran.ending = .done ↔ ∃ made ∈ before ++ [call], made.Finishes) ∧
      ((∃ made ∈ before, made.Finishes) →
        call.taken = [] ∧ call.ran = ⟨.done, last, call.world.state⟩) := by
  refine ⟨h.chain hrestart, h.pairwise, ?_, ?_, ?_⟩
  · intro attempt hmem
    obtain ⟨call, hcall, hattempt⟩ := List.mem_flatMap.mp hmem
    obtain ⟨earlier, hmakes⟩ := h.forall_mem call hcall
    exact hmakes.unraised attempt hattempt
  · intro call hcall
    obtain ⟨earlier, hmakes⟩ := h.forall_mem call hcall
    refine hmakes.pairwise.imp ?_
    intro attempt _ hnext
    rw [Attempt.completed, hnext]
    rfl
  · rintro before call after rfl
    obtain ⟨middle, hbefore, hcall, hafter⟩ := h.split
    have hmiddle : middle.finished = true ↔ ∃ made ∈ before, made.Finishes := by
      simpa [Session.start] using hbefore.finished_iff
    constructor
    · rw [hcall.ending_iff, hcall.finished_iff, hmiddle]
      simp [or_and_right, exists_or]
    · intro hmade
      obtain ⟨htaken, hran⟩ := hcall.of_finished (hmiddle.mpr hmade)
      rw [hran] at hafter
      rw [(hafter.of_finished (hmiddle.mpr hmade)).1]
      exact ⟨htaken, hran⟩

open Mapping (Delivery)
open Mapping.Batch (bothBroken brokenError fetch locations locations_twoFiles run_of_continuing
  step_of_fetching twoFiles)

/-- A batch that waits, is done when it is resumed, and is not run again in an interrupted world. -/
theorem drives_one_chain_of_twoFiles :
    let session := Session.start (Mapping.Batch.start twoFiles ([] : List Delivery) Idle.mk)
    let worlds : List World := [⟨Store.empty⟩, ⟨bothBroken⟩, ⟨Store.empty.interrupt⟩]
    let taken := (session.callsIn worlds).flatMap Call.taken
    Machine.Restartable session.machine ∧
    (session.callsIn worlds).map (fun call => call.ran.ending) = [.suspended, .done, .done] ∧
    Machine.Chain session.machine (taken.filter Attempt.completed)
      (session.resumes worlds).machine := by
  intro session worlds taken
  have hrestart : Machine.Restartable session.machine := Mapping.Batch.restartable _
  have hfirst : ∃ later, session.resume Store.empty = ⟨.suspended, session, later⟩ := by
    have hlacking : ∃ later, fetch [] false (locations twoFiles) Store.empty =
        (.lacking, later) :=
      ⟨_, by rw [locations_twoFiles]; rfl⟩
    obtain ⟨later, hlacking⟩ := hlacking
    have hstep : Machine.step session.machine (Environment.raised Store.empty).2 = _ :=
      step_of_fetching rfl hlacking
    have hran : Machine.run session.machine Store.empty = ⟨.suspended, session.machine, later⟩ :=
      Machine.run_of_last .suspended rfl hstep
    refine ⟨later, ?_⟩
    show Ran.mk _ _ _ = _
    rw [hran]
    rfl
  have hsecond : (session.resume bothBroken).ending = .done := by
    have hrefused : fetch [] false (locations twoFiles) bothBroken =
        (.refused (brokenError "a.map"), bothBroken.record (.rules ⟨some "a.map"⟩)) := by
      rw [locations_twoFiles]
      rfl
    have hstep : Machine.step session.machine (Environment.raised bothBroken).2 = _ :=
      step_of_fetching rfl hrefused
    show (Machine.run session.machine bothBroken).ending = .done
    rw [Machine.run_of_next rfl hstep,
      run_of_continuing rfl rfl (Machine.run_of_last .done rfl rfl)]
  have hfinished := (session.makes_resume ⟨bothBroken⟩).ending_iff.mp hsecond
  have hthird :
      ((session.resume bothBroken).machine.resume Store.empty.interrupt).ending = .done :=
    congrArg Ran.ending ((makes_resume _ ⟨Store.empty.interrupt⟩).of_finished hfinished).2
  obtain ⟨later, hfirst⟩ := hfirst
  refine ⟨hrestart, ?_, (drives_one_chain hrestart (session.makesAll_resumes worlds)).1⟩
  show [(session.resume Store.empty).ending,
    ((session.resume Store.empty).machine.resume bothBroken).ending,
    (((session.resume Store.empty).machine.resume bothBroken).machine.resume
      Store.empty.interrupt).ending] = _
  rw [hfirst]
  show [RunEnd.suspended, (session.resume bothBroken).ending,
    ((session.resume bothBroken).machine.resume Store.empty.interrupt).ending] = _
  rw [hsecond, hthird]

end Session

end BuildConfig
