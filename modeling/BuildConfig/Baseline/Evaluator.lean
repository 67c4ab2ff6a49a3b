/-
The evaluator, which answers requests for baselines.

An evaluation that suspends or is interrupted is kept under its request, and the next call
for the same request resumes it.  One that is done is forgotten, so a further call starts
over.  Requests do not share anything: each has an evaluation of its own.

A call takes the evaluation out of its entry and puts it back afterwards, so the entry is
vacant while the evaluation runs.  An entry that is retired belongs to an evaluation that
is over; it is never met in the table between calls.  The answer `stuck` stands for the
two things that do not happen: such an entry is met, or an evaluation is done without an
outcome.
-/
import BuildConfig.Baseline.Evaluation
import BuildConfig.Evaluation.Session

namespace BuildConfig.Baseline

/-- A session of an evaluation that delivers to a slot. -/
abbrev EvaluationSession : Type :=
  Session (Evaluation (Slot EvaluationError Configuration))

/-- What the table has under a request. -/
inductive Evaluator.Entry
  /-- Nothing has been run yet, or it is running. -/
  | vacant
  /-- The evaluation is waiting to be resumed. -/
  | waiting (session : EvaluationSession)
  /-- The evaluation is over. -/
  | retired

/-- What a call comes to. -/
inductive Response
  /-- Something is missing; call again later. -/
  | notReady
  /-- The baseline is there. -/
  | ready (configuration : Configuration)
  /-- There is no baseline. -/
  | failed (error : EvaluationError)
  /-- No answer can be given. -/
  | stuck

/-- The settings, and the evaluations under way by their requests. -/
structure Evaluator where
  settings : Settings
  table : List (Request × Evaluator.Entry)

namespace Evaluator

/-- The evaluator without evaluations under way. -/
def start (settings : Settings) : Evaluator :=
  ⟨settings, []⟩

/-! ### The table -/

/-- The entry of a request. -/
def entryOf (evaluator : Evaluator) (request : Request) : Option Entry :=
  (evaluator.table.find? fun row => row.1 = request).map (·.2)

/-- The evaluator without the entry of a request. -/
def remove (evaluator : Evaluator) (request : Request) : Evaluator :=
  { evaluator with table := evaluator.table.filter fun row => row.1 ≠ request }

/-- The evaluator with an entry for a request, in place of the one it had. -/
def put (evaluator : Evaluator) (request : Request) (entry : Entry) : Evaluator :=
  { evaluator with table := (request, entry) :: (evaluator.remove request).table }

/-- The number of requests with an evaluation under way. -/
def inFlight (evaluator : Evaluator) : Nat :=
  evaluator.table.length

/-! ### Calls -/

/-- The session of a request that has none yet. -/
def fresh (evaluator : Evaluator) (request : Request) : EvaluationSession :=
  .start (.begin request evaluator.settings .empty)

/-- The session to run for a request; none when its entry is retired. -/
def sessionOf (evaluator : Evaluator) (request : Request) : Option EvaluationSession :=
  match evaluator.entryOf request with
  | none => some (evaluator.fresh request)
  | some .vacant => some (evaluator.fresh request)
  | some (.waiting session) => some session
  | some .retired => none

/-- The answer of an evaluation that is done. -/
def answerOf (evaluation : Evaluation (Slot EvaluationError Configuration)) : Response :=
  match evaluation.sink.take.1 with
  | some (.ok configuration) => .ready configuration
  | some (.error error) => .failed error
  | none => .stuck

/-- Settles a request after its session has run: kept when it is to be resumed, else forgotten. -/
def settle (evaluator : Evaluator) (request : Request) (session : EvaluationSession) :
    RunEnd → Response × Evaluator
  | .suspended => (.notReady, evaluator.put request (.waiting session))
  | .interrupted => (.failed .interrupted, evaluator.put request (.waiting session))
  | .done => (answerOf session.machine, (evaluator.put request .retired).remove request)

/-- Answers a request as far as the environment allows. -/
def compute {σ : Type} [Environment σ] (evaluator : Evaluator) (request : Request) (world : σ) :
    (Response × Evaluator) × σ :=
  match evaluator.sessionOf request with
  | none => ((.stuck, evaluator), world)
  | some session =>
    let ran := session.resume world
    ((evaluator.put request .vacant).settle request ran.machine ran.ending, ran.world)

/-- Forgets the evaluation of a request, and says whether there was one. -/
def discard (evaluator : Evaluator) (request : Request) : Bool × Evaluator :=
  ((evaluator.entryOf request).isSome, evaluator.remove request)

end Evaluator

end BuildConfig.Baseline
