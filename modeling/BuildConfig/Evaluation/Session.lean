/-
Sessions, which keep a machine between calls.

Each call resumes the machine where it stopped.  Once the machine is done the session
remembers it, and from then on neither the machine nor the environment is touched.
-/
import BuildConfig.Evaluation.Machine

namespace BuildConfig

/-- A machine, and whether it is done. -/
structure Session (μ : Type) where
  machine : μ
  finished : Bool
  deriving DecidableEq

namespace Session

/-- The session of a machine that has not been run. -/
def start {μ : Type} (machine : μ) : Session μ :=
  ⟨machine, false⟩

/-- Runs the machine on, unless it is done already. -/
def resume {μ σ : Type} [Machine μ] [Machine.Ends μ] [Environment σ] (session : Session μ)
    (world : σ) : Ran (Session μ) σ :=
  if session.finished then ⟨.done, session, world⟩
  else
    match Environment.raised world with
    | (true, world) => ⟨.interrupted, session, world⟩
    | (false, world) =>
      let ran := Machine.run session.machine world
      ⟨ran.ending, ⟨ran.machine, ran.ending == .done⟩, ran.world⟩

end Session

end BuildConfig
