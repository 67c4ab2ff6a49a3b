/-
Asking for the rules of a batch.

A batch asks for the rules at every place that its bundles name, once each, and carries on
when some are missing, but it stops at the first that are malformed.  What comes of this
depends on what the world says about these places and on nothing else, so `Sources` are
only the answers about rules.  A world that `Tells` them may still hold some back and may
raise its flag; if it is to be `whole` it does neither.

`Comes` says what can come of asking, and which places were asked for then.  The induction
is on the places that are left, and `Progress` is what is known about those that were asked
for already.
-/
import BuildConfig.Proofs.Distinct
import BuildConfig.Proofs.Evaluation.Lookups
import BuildConfig.Proofs.Evaluation.Requests
import Mathlib.Data.List.Forall2

namespace BuildConfig

open Environment (Later)

namespace Mapping

/-- What there is at every place that rules can be at. -/
abbrev Sources : Type :=
  Location → Answer Rules

namespace Sources

/-- The rules at a place, or the error that they are malformed with. -/
def due (sources : Sources) (location : Location) : Due MappingError Rules :=
  (sources location).known MappingError

/-- The rules at a place are malformed. -/
def Refuses (sources : Sources) (location : Location) : Prop :=
  ∃ e, sources.due location = some (.error e)

/-- A lookup of the rules at a place. -/
def lookup (sources : Sources) (location : Location) : Lookup :=
  ⟨.rules location, sources location⟩

end Sources

end Mapping

open Mapping (Location Rules Sources Table)

/-! ### Worlds that tell the sources -/

/-- The world says what the sources are, and keeps nothing back if it is to be `whole`. -/
structure Environment.Tells {σ : Type} [Environment σ] (sources : Sources) (whole : Prop)
    (world : σ) : Prop where
  lowered : whole → ∀ later, Later world later → (Environment.raised later).1 = false
  told : ∀ later, Later world later → ∀ location,
    ¬ whole ∧ (Environment.ask (.rules location) later).1 = .missing ∨
      (Environment.ask (.rules location) later).1 = sources location

namespace Environment.Tells

variable {σ : Type} [Environment σ] {sources : Sources} {whole : Prop} {world : σ}

theorem later {after : σ} (h : Tells sources whole world) (hafter : Later world after) :
    Tells sources whole after :=
  ⟨fun hwhole later hlater => h.lowered hwhole later (hafter.trans hlater),
    fun later hlater => h.told later (hafter.trans hlater)⟩

theorem not_whole (h : Tells sources whole world) (hraised : (raised world).1 = true) :
    ¬ whole := by
  intro hwhole
  simp [h.lowered hwhole world .refl] at hraised

theorem recorded (recorded : Recorded σ) (h : Tells sources whole recorded.world) :
    Tells sources whole recorded := by
  have hworld : ∀ {later : Recorded σ}, Later recorded later →
      Later recorded.world later.world := by
    intro later hlater
    induction hlater with
    | refl => exact .refl
    | raised _ ih => exact .raised ih
    | ask _ key ih => exact .ask ih key
  exact ⟨fun hwhole later hlater => h.lowered hwhole later.world (hworld hlater),
    fun later hlater => h.told later.world (hworld hlater)⟩

end Environment.Tells

/-- What there is according to answers of all sorts. -/
def Answers.sources (answers : Answers) : Sources :=
  fun location => answers (.rules location)

theorem Environment.Below.tells {σ : Type} [Environment σ] {answers : Answers} {world : σ}
    (h : Below answers world) : Tells answers.sources False world :=
  ⟨False.elim, fun later hlater location =>
    (h later hlater (.rules location)).imp_left fun hmissing => ⟨not_false, hmissing⟩⟩

theorem Environment.Full.tells {σ : Type} [Environment σ] {answers : Answers} {world : σ}
    (h : Full answers world) : Tells answers.sources True world :=
  ⟨fun _ later hlater => (h later hlater).1, fun later hlater location =>
    Or.inr ((h later hlater).2 (.rules location))⟩

namespace Mapping.Batch

/-! ### The places that are asked for -/

/-- Where the bundles with a configuration have their rules, in the order of their names. -/
def named (request : SortedMap String Bundle) : List Location :=
  ((request.entries.map (·.2)).filter fun bundle => !bundle.lacksConfiguration).map .ofBundle

theorem mem_named {request : SortedMap String Bundle} {name : String} {bundle : Bundle}
    (hentry : (name, bundle) ∈ request.entries) (hbundle : bundle.lacksConfiguration = false) :
    Location.ofBundle bundle ∈ named request := by
  refine List.mem_map_of_mem (List.mem_filter.mpr ⟨List.mem_map_of_mem hentry, ?_⟩)
  simp [hbundle]

/-- **The batch asks for every place once**, in the order of the first bundles that name it. -/
theorem locations_eq (request : SortedMap String Bundle) :
    locations request = (named request).eraseDupsBy Location.same :=
  foldl_add_new (fun _ _ => Bool.eq_iff_iff.mpr ⟨Location.same_symm, Location.same_symm⟩)
    (named request) []

private theorem exists_same_foldl {locations seen : List Location} {location : Location}
    (h : location ∈ locations ∨ ∃ other ∈ seen, other.same location = true) :
    ∃ other ∈ locations.foldl addNew seen, other.same location = true := by
  induction locations generalizing seen with
  | nil => simpa using h
  | cons first rest ih =>
      refine ih ?_
      have hmem : ∀ other ∈ seen, other ∈ addNew seen first := by
        intro other hother
        unfold addNew
        split
        · exact hother
        · exact List.mem_append_left _ hother
      rcases h with hlocation | ⟨other, hother, hsame⟩
      · obtain rfl | hrest := List.mem_cons.mp hlocation
        · right
          by_cases hany : seen.any (·.same location) = true
          · obtain ⟨other, hother, hsame⟩ := List.any_eq_true.mp hany
            exact ⟨other, hmem other hother, hsame⟩
          · exact ⟨location, by simp [addNew, hany], Location.same_refl location⟩
        · exact Or.inl hrest
      · exact Or.inr ⟨other, hmem other hother, hsame⟩

/-- Whatever place a bundle names, the batch asks for it, maybe under another name. -/
theorem exists_same_of_named {request : SortedMap String Bundle} {location : Location}
    (h : location ∈ named request) :
    ∃ other ∈ locations request, other.same location = true :=
  exists_same_foldl (Or.inl h)

variable {σ : Type} [Environment σ] {sources : Sources} {whole : Prop}

/-! ### One place -/

/-- What asking for the rules at one place comes to, and what it adds to the record. -/
theorem request_rules {recorded : Recorded σ} (h : Environment.Tells sources whole recorded)
    (location : Location) :
    let asked := Environment.request MappingError (.rules location) recorded
    asked.1.Fits whole (sources.due location) ∧ Environment.Tells sources whole asked.2 ∧
      (whole → asked.2.lookups = recorded.lookups ++ [sources.lookup location]) := by
  have hlater : Later recorded (Environment.request MappingError (.rules location) recorded).2 :=
    (Environment.kept_later recorded).request _ recorded .refl
  -- The world stays one of the same kind whether its flag is raised or not.
  refine and_left_comm.mp ⟨h.later hlater, ?_⟩
  cases hraised : (Environment.raised recorded).1 with
  | true =>
      rw [Environment.request_of_raised hraised]
      exact ⟨.interrupted (h.not_whole hraised), fun hwhole => absurd hwhole (h.not_whole hraised)⟩
  | false =>
      rw [Environment.request_of_lowered hraised]
      refine ⟨?_, ?_⟩
      · obtain ⟨hnot, hmissing⟩ | htold := h.told _ (.raised .refl) location
        · rw [hmissing]
          exact .missing fun hwhole => absurd hwhole hnot
        · rw [htold]
          exact Environment.fits_reply _
      · intro hwhole
        obtain ⟨hnot, -⟩ | htold := h.told _ (.raised .refl) location
        · exact absurd hwhole hnot
        · exact congrArg (fun answer => recorded.lookups ++ [(⟨.rules location, answer⟩ : Lookup)])
            htold

theorem later_fetch (table : Table) (lacking : Bool) (locations : List Location) (world : σ) :
    Later world (fetch table lacking locations world).2 :=
  fetch_kept (Environment.kept_later world) table lacking locations .refl

/-! ### Tables -/

/-- The table has the rules of these places, in order. -/
def Found (sources : Sources) (locations : List Location) (table : Table) : Prop :=
  locations.Forall₂ (fun location entry => entry.1 = location ∧ sources location = .ready entry.2)
    table

theorem Found.unique {locations : List Location} {table other : Table}
    (h : Found sources locations table) (k : Found sources locations other) : table = other := by
  induction h generalizing other with
  | nil =>
      cases k
      rfl
  | @cons location entry locations table hentry hrest ih =>
      cases k with
      | @cons _ found _ more hfound hmore =>
          have hrules : entry.2 = found.2 :=
            Answer.ready.inj (hentry.2.symm.trans hfound.2)
          rw [ih hmore, Prod.ext (hentry.1.trans hfound.1.symm) hrules]

theorem Found.find? {locations : List Location} {table : Table} {location : Location}
    (h : Found sources locations table)
    (hsame : ∃ other ∈ locations, other.same location = true) :
    ∃ other rules, other.same location = true ∧ sources other = .ready rules ∧
      table.find? location = some rules := by
  induction h with
  | nil => simp at hsame
  | @cons first entry locations table hentry hrest ih =>
      obtain ⟨rfl, hready⟩ := hentry
      unfold Table.find? at ih ⊢
      rw [List.find?_cons]
      by_cases hfirst : entry.1.same location = true
      · exact ⟨entry.1, entry.2, hfirst, hready, by rw [hfirst]; rfl⟩
      · simp only [hfirst]
        refine ih ?_
        obtain ⟨other, hother, hsame⟩ := hsame
        obtain rfl | hmem := List.mem_cons.mp hother
        · exact absurd hsame hfirst
        · exact ⟨other, hmem, hsame⟩

/-! ### Asking for all of them -/

/-- What can come of asking for the rules at these places, and the places that were asked for. -/
inductive Comes (sources : Sources) (whole : Prop) (locations : List Location) :
    Fetched → List Location → Prop
  | complete {table : Table} (h : Found sources locations table) :
      Comes sources whole locations (.complete table) locations
  | lacking (hlacks : whole → ∃ location ∈ locations, sources.due location = none)
      (haccepted : whole → ∀ location ∈ locations, ¬ sources.Refuses location) :
      Comes sources whole locations .lacking locations
  | refused {before rest : List Location} {location : Location} {e : MappingError}
      (hlocations : locations = before ++ location :: rest)
      (h : sources.due location = some (.error e))
      (haccepted : whole → ∀ earlier ∈ before, ¬ sources.Refuses earlier) :
      Comes sources whole locations (.refused e) (before ++ [location])
  | interrupted {asked rest : List Location} (hlocations : locations = asked ++ rest)
      (h : ¬ whole) : Comes sources whole locations .interrupted asked

/-- What is known when these places were asked for and nothing was refused. -/
structure Progress (sources : Sources) (whole : Prop) (before : List Lookup)
    (asked : List Location) (table : Table) (lacking : Bool) (recorded : Recorded σ) : Prop where
  tells : Environment.Tells sources whole recorded
  found : lacking = false → Found sources asked table
  lacks : whole → lacking = true → ∃ location ∈ asked, sources.due location = none
  accepted : whole → ∀ location ∈ asked, ¬ sources.Refuses location
  lookups_eq : whole → recorded.lookups = before ++ asked.map sources.lookup

namespace Progress

variable {before : List Lookup} {asked : List Location} {table : Table} {lacking : Bool}
  {recorded later : Recorded σ} {location : Location}

theorem start (h : Environment.Tells sources whole recorded) :
    Progress sources whole recorded.lookups [] [] false recorded where
  tells := h
  found _ := .nil
  lacks _ hlacking := by simp at hlacking
  accepted _ location hlocation := by simp at hlocation
  lookups_eq _ := by simp

private theorem accepted_append (h : Progress sources whole before asked table lacking recorded)
    (hlocation : whole → ¬ sources.Refuses location) :
    whole → ∀ other ∈ asked ++ [location], ¬ sources.Refuses other := by
  intro hwhole other hother
  obtain hbefore | hlast := List.mem_append.mp hother
  · exact h.accepted hwhole other hbefore
  · rw [List.mem_singleton.mp hlast]
    exact hlocation hwhole

private theorem lookups_append (h : Progress sources whole before asked table lacking recorded)
    (hlookups : whole → later.lookups = recorded.lookups ++ [sources.lookup location]) :
    whole → later.lookups = before ++ (asked ++ [location]).map sources.lookup := by
  intro hwhole
  rw [hlookups hwhole, h.lookups_eq hwhole, List.map_append, List.map_singleton,
    List.append_assoc]

theorem value (h : Progress sources whole before asked table lacking recorded)
    (htells : Environment.Tells sources whole later)
    (hlookups : whole → later.lookups = recorded.lookups ++ [sources.lookup location])
    {rules : Rules} (hdue : sources.due location = some (.ok rules)) :
    Progress sources whole before (asked ++ [location]) (table ++ [(location, rules)]) lacking
      later := by
  refine ⟨htells, ?_, ?_, h.accepted_append ?_, h.lookups_append hlookups⟩
  · intro hlacking
    exact List.rel_append (h.found hlacking)
      (.cons ⟨rfl, Answer.known_eq_ok_iff.mp hdue⟩ .nil)
  · intro hwhole hlacking
    obtain ⟨other, hother, hnone⟩ := h.lacks hwhole hlacking
    exact ⟨other, List.mem_append_left _ hother, hnone⟩
  · rintro _ ⟨e, he⟩
    simp [hdue] at he

theorem missing (h : Progress sources whole before asked table lacking recorded)
    (htells : Environment.Tells sources whole later)
    (hlookups : whole → later.lookups = recorded.lookups ++ [sources.lookup location])
    (hdue : whole → sources.due location = none) :
    Progress sources whole before (asked ++ [location]) table true later := by
  refine ⟨htells, by simp, ?_, h.accepted_append ?_, h.lookups_append hlookups⟩
  · intro hwhole _
    exact ⟨location, by simp, hdue hwhole⟩
  · rintro hwhole ⟨e, he⟩
    simp [hdue hwhole] at he

/-- **Asking goes on from what is known to what can come of it.** -/
theorem fetch {rest : List Location}
    (h : Progress sources whole before asked table lacking recorded) :
    ∃ all, Comes sources whole (asked ++ rest) (Batch.fetch table lacking rest recorded).1 all ∧
      (whole → (Batch.fetch table lacking rest recorded).2.lookups =
        before ++ all.map sources.lookup) := by
  -- On the places that are left: all that is needed of the others is in `h`.
  induction rest generalizing asked table lacking recorded with
  | nil =>
      refine ⟨asked, ?_, h.lookups_eq⟩
      rw [List.append_nil]
      cases hlacking : lacking with
      | true => exact .lacking (fun hwhole => h.lacks hwhole hlacking) h.accepted
      | false => exact .complete (h.found hlacking)
  | cons location rest ih =>
      obtain ⟨hfits, htells, hlookups⟩ := request_rules h.tells location
      unfold Batch.fetch
      generalize hdue : sources.due location = due at hfits
      generalize Environment.request MappingError (.rules location) recorded = reply
        at hfits htells hlookups ⊢
      obtain ⟨reply, later⟩ := reply
      rw [show asked ++ location :: rest = asked ++ [location] ++ rest by simp]
      cases hfits with
      | value rules => exact ih (h.value htells hlookups hdue)
      | missing hnone =>
          exact ih (h.missing htells hlookups fun hwhole => hdue.trans (hnone hwhole))
      | refused e =>
          have hrefused : Comes sources whole (asked ++ location :: rest) (.refused e)
              (asked ++ [location]) := .refused rfl hdue h.accepted
          exact ⟨asked ++ [location], by simpa using hrefused, h.lookups_append hlookups⟩
      | interrupted hnot =>
          exact ⟨asked, .interrupted (List.append_assoc _ _ _) hnot,
            fun hwhole => absurd hwhole hnot⟩

end Progress

/-- **What comes of asking for the rules at these places**, and what is looked up for it. -/
theorem fetch_comes {recorded : Recorded σ} (h : Environment.Tells sources whole recorded)
    (locations : List Location) :
    let asked := fetch [] false locations recorded
    ∃ all, Comes sources whole locations asked.1 all ∧
      (whole → asked.2.lookups = recorded.lookups ++ all.map sources.lookup) :=
  (Progress.start h).fetch

/-- The same where nothing is written down. -/
theorem exists_comes {world : σ} (h : Environment.Tells sources whole world)
    (locations : List Location) :
    ∃ all, Comes sources whole locations (fetch [] false locations world).1 all := by
  obtain ⟨all, hcomes, -⟩ := fetch_comes (h.recorded (.start world)) locations
  refine ⟨all, ?_⟩
  rw [show world = (Recorded.start world).world from rfl, fetch_view Recorded.view_world]
  exact hcomes

end Mapping.Batch

end BuildConfig
