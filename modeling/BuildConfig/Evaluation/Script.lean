/-
Machines that follow a script.

A script is a list of stages, each of which asks for texts on one shelf, runs a machine of
its own, or just says something; what comes of it is kept in a log.  How often each stage
was started is counted, so one sees what was done again after a suspension.

The machines inside a script can be of any type.  `Nested n` are the scripts whose machines
are scripts again, n levels deep.
-/
import BuildConfig.Evaluation.Machine

namespace BuildConfig

namespace Script

/-- The shelf that scripts ask for their texts. -/
def shelf : String := "Name"

/-- What a script does at one point. -/
inductive Stage (μ : Type)
  /-- Asks for a text. -/
  | get (name : String)
  /-- Asks for several texts, for all of them even if some are missing. -/
  | getAll (names : List String)
  /-- Asks for a text, and ends the script when it could not be loaded. -/
  | attempt (name : String)
  /-- Runs a machine to its end. -/
  | sub (machine : μ)
  /-- Runs the machine that has nothing to do. -/
  | nothing
  /-- Says something. -/
  | say (text : String)

end Script

/-- A script, where in it the machine is, and what came of it so far. -/
structure Script (μ : Type) where
  stages : List (Script.Stage μ)
  position : Nat
  /-- How often each stage was started. -/
  runs : List Nat
  log : List String

/-- A type of machines that keep a log. -/
class Logged (μ : Type) where
  /-- What came of the machine so far. -/
  log : μ → List String

namespace Script

variable {μ σ : Type}

/-- The machine at the start of a script. -/
def start (stages : List (Stage μ)) : Script μ :=
  ⟨stages, 0, stages.map fun _ => 0, []⟩

instance : Logged (Script μ) :=
  ⟨Script.log⟩

/-- A log as one text. -/
def joined (log : List String) : String :=
  "(" ++ "+".intercalate log ++ ")"

/-- What came of a stage. -/
inductive Outcome
  /-- The stage is over, and this is added to the log. -/
  | said (texts : List String)
  /-- The script is over, and this is added to the log. -/
  | ended (text : String)
  /-- Something is missing. -/
  | suspended
  /-- The evaluation is being abandoned. -/
  | interrupted

/-- Asks for all the texts in turn; the flag says whether one was missing so far. -/
def getAll [Environment σ] (found : List String) (lacking : Bool) :
    List String → σ → Outcome × σ
  | [], world => (if lacking then .suspended else .said found, world)
  | name :: names, world =>
    match Environment.request Empty (.note shelf name) world with
    | (.value text, world) => getAll (found ++ [text]) lacking names world
    | (.missing, world) => getAll found true names world
    | (.refused e, _) => nomatch e
    | (.interrupted, world) => (.interrupted, world)

/-- What comes of a stage, and the stage as it is left. -/
def perform [Machine μ] [Machine.Ends μ] [Logged μ] [Environment σ] :
    Stage μ → σ → Outcome × Stage μ × σ
  | .get name, world =>
    match Environment.request Empty (.note shelf name) world with
    | (.value text, world) => (.said [text], .get name, world)
    | (.missing, world) => (.suspended, .get name, world)
    | (.refused e, _) => nomatch e
    | (.interrupted, world) => (.interrupted, .get name, world)
  | .getAll names, world =>
    match getAll [] false names world with
    | (outcome, world) => (outcome, .getAll names, world)
  | .attempt name, world =>
    match Environment.request LoadError (.note shelf name) world with
    | (.value text, world) => (.said [text], .attempt name, world)
    | (.missing, world) => (.suspended, .attempt name, world)
    | (.refused e, world) => (.ended ("!" ++ e.text), .attempt name, world)
    | (.interrupted, world) => (.interrupted, .attempt name, world)
  | .sub machine, world =>
    let ran := Machine.run machine world
    let outcome :=
      match ran.ending with
      | .suspended => .suspended
      | .interrupted => .interrupted
      | .done => .said [joined (Logged.log ran.machine)]
    (outcome, .sub ran.machine, ran.world)
  | .nothing, world =>
    let ran := Machine.run Idle.mk world
    let outcome :=
      match ran.ending with
      | .suspended => .suspended
      | .interrupted => .interrupted
      | .done => .said []
    (outcome, .nothing, ran.world)
  | .say text, world => (.said [text], .say text, world)

/-- The script with the stage at hand started once more. -/
def begin (script : Script μ) : Script μ :=
  { script with runs := script.runs.modify script.position (· + 1) }

/-- The script with the stage at hand as it was left. -/
def leave (script : Script μ) (left : Stage μ) : Script μ :=
  { script with stages := script.stages.set script.position left }

/-- The script at another position, with more in its log. -/
def goTo (script : Script μ) (position : Nat) (texts : List String) : Script μ :=
  { script with position := position, log := script.log ++ texts }

/-- The script after what came of the stage at hand. -/
def settle (script : Script μ) : Outcome → StepEnd × Script μ
  | .said texts => (.next, script.goTo (script.position + 1) texts)
  | .ended text => (.done, script.goTo script.stages.length [text])
  | .suspended => (.suspended, script)
  | .interrupted => (.interrupted, script)

/-- One step: the stage at hand, if there is one. -/
def step [Machine μ] [Machine.Ends μ] [Logged μ] [Environment σ] (script : Script μ) (world : σ) :
    Stepped (Script μ) σ :=
  match script.stages[script.position]? with
  | none => ⟨.done, script, world⟩
  | some stage =>
    match perform stage world with
    | (outcome, left, world) =>
      match (script.begin.leave left).settle outcome with
      | (ending, script) => ⟨ending, script, world⟩

/-- The number of stages that are left. -/
def rank (script : Script μ) : Nat :=
  script.stages.length - script.position

private theorem rank_settle {script : Script μ} {outcome : Outcome}
    (hpos : script.position < script.stages.length) (h : (script.settle outcome).1 = .next) :
    (script.settle outcome).2.rank < script.rank := by
  cases outcome with
  | said texts =>
    simp only [settle, goTo, rank]
    omega
  | ended text => cases h
  | suspended => cases h
  | interrupted => cases h

private theorem rank_begin_leave (script : Script μ) (left : Stage μ) :
    (script.begin.leave left).rank = script.rank := by
  simp [begin, leave, rank]

private theorem rank_step [Machine μ] [Machine.Ends μ] [Logged μ] [Environment σ]
    (script : Script μ) (world : σ) (h : (script.step world).ending = .next) :
    (script.step world).machine.rank < script.rank := by
  unfold step at h ⊢
  split at h
  · cases h
  · rename_i stage hstage
    have hpos : script.position < script.stages.length := (List.getElem?_eq_some_iff.1 hstage).1
    rw [← rank_begin_leave script (perform stage world).2.1]
    refine rank_settle ?_ h
    simpa [begin, leave] using hpos

instance [Machine μ] [Machine.Ends μ] [Logged μ] : Machine (Script μ) :=
  ⟨step⟩

instance [Machine μ] [Machine.Ends μ] [Logged μ] : Machine.Ends (Script μ) :=
  .ofRank rank rank_step

/-! ### Scripts in scripts -/

/-- Scripts of this depth. -/
def Nested : Nat → Type
  | 0 => Empty
  | n + 1 => Script (Nested n)

/-- What it takes to run something inside a script. -/
structure Runnable (μ : Type) where
  machine : Machine μ
  ends : Machine.Ends μ
  logged : Logged μ

/-- At depth zero there are no scripts, and so nothing to run. -/
def Runnable.none : Runnable Empty where
  machine := ⟨fun e => nomatch e⟩
  ends := @Machine.Ends.ofRank Empty ⟨fun e => nomatch e⟩ (fun e => nomatch e) fun e => nomatch e
  logged := ⟨fun e => nomatch e⟩

/-- What can be run inside a script makes scripts that can. -/
def Runnable.script (inner : Runnable μ) : Runnable (Script μ) :=
  let _ := inner.machine
  have _ := inner.ends
  let _ := inner.logged
  ⟨inferInstance, inferInstance, inferInstance⟩

/-- Scripts of every depth can be run. -/
def Nested.runnable : (n : Nat) → Runnable (Nested n)
  | 0 => .none
  | n + 1 => (Nested.runnable n).script

instance (n : Nat) : Machine (Nested n) :=
  (Nested.runnable n).machine

instance (n : Nat) : Machine.Ends (Nested n) :=
  (Nested.runnable n).ends

instance (n : Nat) : Logged (Nested n) :=
  (Nested.runnable n).logged

end Script

end BuildConfig
