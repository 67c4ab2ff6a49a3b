/-
Platform mapping for a batch of bundles.

A batch takes named bundles through their mapping rules.  First it asks for the rules of
all bundles, so that what is missing can be worked out all at once; then it maps bundle
after bundle and delivers the configurations, or the one error that stands for them all.
After the delivery it only runs a machine that it was given to go on with, and it is done
when that machine is.

A bundle that lacks the fragments of a configuration has no rules and is delivered as it
is.  Bundles whose rules are at the same place share one request.
-/
import BuildConfig.Configuration
import BuildConfig.Evaluation.Machine
import BuildConfig.Evaluation.Slot

namespace BuildConfig.Mapping

/-- Why a batch could not be mapped. -/
inductive Fault
  /-- The rules do not fit a bundle. -/
  | options (e : OptionsError)
  /-- There are no rules, because they are malformed. -/
  | mapping (e : MappingError)
  deriving DecidableEq

/-- What a batch delivers: its configurations by name, or why there are none. -/
abbrev Delivery : Type :=
  Except Fault (SortedMap String Configuration)

/-- The rules that were found, by their places. -/
abbrev Table : Type :=
  List (Location × Rules)

namespace Table

/-- The rules at a place. -/
def find? (table : Table) (location : Location) : Option Rules :=
  (List.find? (fun entry => entry.1.same location) table).map (·.2)

end Table

/-- How far a batch is. -/
inductive Batch.Stage
  /-- The rules are asked for. -/
  | fetching
  /-- The rules are there. -/
  | applying (table : Table)
  /-- The outcome is delivered. -/
  | continuing
  /-- There is nothing left to do. -/
  | finished

/-- A batch with the sink that it delivers to and the machine that it goes on with. -/
structure Batch (ς ν : Type) where
  request : SortedMap String Bundle
  sink : ς
  after : ν
  stage : Batch.Stage

namespace Batch

variable {ς ν σ : Type}

/-- A batch of which nothing has been done. -/
def start (request : SortedMap String Bundle) (sink : ς) (after : ν) : Batch ς ν :=
  ⟨request, sink, after, .fetching⟩

/-! ### Asking for the rules -/

/-- The locations with one more at the end, unless the same place is among them. -/
def addNew (locations : List Location) (location : Location) : List Location :=
  if locations.any (·.same location) then locations else locations ++ [location]

/-- Where the rules of the bundles are: every place once, in the order of the bundles' names. -/
def locations (request : SortedMap String Bundle) : List Location :=
  let bundles := (request.entries.map (·.2)).filter fun bundle => !bundle.lacksConfiguration
  (bundles.map Location.ofBundle).foldl addNew []

/-- What comes of asking for rules. -/
inductive Fetched
  /-- All of them are there. -/
  | complete (table : Table)
  /-- Some are missing. -/
  | lacking
  /-- Some are malformed. -/
  | refused (e : MappingError)
  /-- The evaluation is being abandoned. -/
  | interrupted

/-- Asks for the rules at the places in turn, up to the first that are malformed. -/
def fetch [Environment σ] (table : Table) (lacking : Bool) :
    List Location → σ → Fetched × σ
  | [], world => (if lacking then .lacking else .complete table, world)
  | location :: rest, world =>
    match Environment.request MappingError (.rules location) world with
    | (.value rules, world) => fetch (table ++ [(location, rules)]) lacking rest world
    | (.missing, world) => fetch table true rest world
    | (.refused e, world) => (.refused e, world)
    | (.interrupted, world) => (.interrupted, world)

/-! ### Mapping the bundles -/

/-- The configuration of one bundle. -/
def mapOne (table : Table) (bundle : Bundle) : Except OptionsError Configuration :=
  if bundle.lacksConfiguration then .ok ⟨bundle⟩
  else
    match table.find? (.ofBundle bundle) with
    | some rules => (rules.map bundle).map Configuration.mk
    | none => .ok ⟨bundle⟩

/-- The configurations of all bundles, or the error of the first that has one. -/
def outcome (request : SortedMap String Bundle) (table : Table) : Delivery :=
  match request.mapValues (mapOne table) with
  | .ok configurations => .ok configurations
  | .error e => .error (.options e)

/-! ### Steps -/

variable [Sink ς Delivery]

/-- The batch after it has delivered. -/
def deliver (batch : Batch ς ν) (delivery : Delivery) : Batch ς ν :=
  { batch with sink := Sink.accept batch.sink delivery, stage := .continuing }

/-- One step. -/
def step [Machine ν] [Machine.Ends ν] [Environment σ] (batch : Batch ς ν) (world : σ) :
    Stepped (Batch ς ν) σ :=
  match batch.stage with
  | .fetching =>
    match fetch [] false (locations batch.request) world with
    | (.complete table, world) => ⟨.next, { batch with stage := .applying table }, world⟩
    | (.lacking, world) => ⟨.suspended, batch, world⟩
    | (.refused e, world) => ⟨.next, batch.deliver (.error (.mapping e)), world⟩
    | (.interrupted, world) => ⟨.interrupted, batch, world⟩
  | .applying table => ⟨.next, batch.deliver (outcome batch.request table), world⟩
  | .continuing =>
    let ran := Machine.run batch.after world
    match ran.ending with
    | .suspended => ⟨.suspended, { batch with after := ran.machine }, ran.world⟩
    | .interrupted => ⟨.interrupted, { batch with after := ran.machine }, ran.world⟩
    | .done => ⟨.done, { batch with after := ran.machine, stage := .finished }, ran.world⟩
  | .finished => ⟨.done, batch, world⟩

/-- The number of steps before the machine that the batch goes on with. -/
def Stage.rank : Stage → Nat
  | .fetching => 2
  | .applying _ => 1
  | .continuing => 0
  | .finished => 0

theorem rank_step [Machine ν] [Machine.Ends ν] [Environment σ] (batch : Batch ς ν) (world : σ) :
    (batch.step world).ending = .next →
      (batch.step world).machine.stage.rank < batch.stage.rank := by
  unfold step
  cases batch.stage with
  | fetching =>
    dsimp only
    split
    · exact fun _ => by simp [Stage.rank]
    · exact fun h => nomatch h
    · exact fun _ => by simp [deliver, Stage.rank]
    · exact fun h => nomatch h
  | applying table => exact fun _ => by simp [deliver, Stage.rank]
  | continuing =>
    dsimp only
    split <;> exact fun h => nomatch h
  | finished => exact fun h => nomatch h

instance [Machine ν] [Machine.Ends ν] : Machine (Batch ς ν) :=
  ⟨step⟩

instance [Machine ν] [Machine.Ends ν] : Machine.Ends (Batch ς ν) :=
  .ofRank (·.stage.rank) rank_step

end Batch

end BuildConfig.Mapping
