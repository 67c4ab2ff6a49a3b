/-
What an evaluation has looked up, and what it knows from that.

A journal has the lookups made so far, by the piece of work that they were made for.
Four of the pieces of work look something up, each under one key that depends on what
is known by then: `Started`, `Mapped`, `Loaded` and `Placed` say how the bundle at that
point came out of the answers.  Nothing is assumed of the answers.  An environment may
answer a key in one way today and in another tomorrow, but an evaluation takes the first
value it is told and never asks for it again, so all that it knows can be read off its
journal.

`Orderly` is the form that a journal has at any time.
-/
import BuildConfig.Proofs.Baseline.SingleBatch
import BuildConfig.Proofs.Evaluation.Lookups

namespace BuildConfig.Baseline

/-! ### Journals -/

/-- The pieces of work that look something up, in order. -/
def asking : List Phase :=
  [.start, .map, .load, .remap]

/-- The place of a piece of work in the order. -/
def Phase.rank : Phase → Nat
  | start => 0
  | map => 1
  | load => 2
  | move => 3
  | remap => 4
  | publish => 5

/-- The lookups made for each piece of work. -/
abbrev Journal : Type :=
  Phase → List Lookup

namespace Journal

/-- The journal in which nothing was looked up. -/
def empty : Journal :=
  fun _ => []

variable {journal : Journal} {phase : Phase} {asked : Option Lookup}

/-- Nothing was looked up for later pieces of work. -/
def EndsAt (journal : Journal) (phase : Phase) : Prop :=
  ∀ later : Phase, phase.rank < later.rank → journal later = []

/-- The journal with one more lookup for a piece of work, if one was made. -/
def note (journal : Journal) (phase : Phase) (asked : Option Lookup) : Journal :=
  fun other => if other = phase then journal other ++ asked.toList else journal other

@[simp] theorem note_none : journal.note phase none = journal := by
  funext other
  simp [note]

@[simp] theorem note_same : journal.note phase asked phase = journal phase ++ asked.toList := by
  simp [note]

theorem note_some {lookup : Lookup} :
    journal.note phase (some lookup) phase = journal phase ++ [lookup] :=
  note_same

theorem note_of_ne {other : Phase} (h : other ≠ phase) :
    journal.note phase asked other = journal other := by
  simp [note, h]

theorem EndsAt.note (h : journal.EndsAt phase) : (journal.note phase asked).EndsAt phase := by
  intro later hlater
  have hne : later ≠ phase := by
    rintro rfl
    exact Nat.lt_irrefl _ hlater
  rw [note_of_ne hne]
  exact h later hlater

theorem EndsAt.mono {later : Phase} (h : journal.EndsAt phase) (hrank : phase.rank ≤ later.rank) :
    journal.EndsAt later :=
  fun other hother => h other (Nat.lt_of_le_of_lt hrank hother)

/-- Where nothing was looked up for the last piece of work, the journal ends before it. -/
theorem EndsAt.of_nil {before : Phase} (h : journal.EndsAt phase) (hnil : journal phase = [])
    (hrank : phase.rank = before.rank + 1) : journal.EndsAt before := by
  intro later hlater
  by_cases hphase : later = phase
  · rw [hphase, hnil]
  · refine h later ?_
    have hne : later.rank ≠ phase.rank := by
      cases later <;> cases phase <;> simp_all [Phase.rank]
    omega

/-! ### Journals of several runs -/

/-- A journal and, after it, another one. -/
def append (journal more : Journal) : Journal :=
  fun phase => journal phase ++ more phase

/-- The journal of all runs from the journals of each. -/
def join (journals : List Journal) : Journal :=
  fun phase => journals.flatMap fun journal => journal phase

@[simp] theorem append_empty (journal : Journal) : journal.append empty = journal := by
  funext phase
  exact List.append_nil _

@[simp] theorem join_nil : join [] = empty := rfl

theorem append_join (journal first : Journal) (rest : List Journal) :
    journal.append (join (first :: rest)) = (journal.append first).append (join rest) := by
  funext phase
  simp [append, join]

theorem append_note (more : Journal) :
    journal.append (more.note phase asked) = (journal.append more).note phase asked := by
  funext other
  unfold append note
  by_cases h : other = phase
  · rw [if_pos h, if_pos h, List.append_assoc]
  · rw [if_neg h, if_neg h]

/-- All lookups of a journal, piece of work by piece of work. -/
def lookups (journal : Journal) : List Lookup :=
  asking.flatMap journal

/-- Where nothing was looked up for later pieces of work, one more lookup is the last of all. -/
theorem EndsAt.lookups_note (h : journal.EndsAt phase) (hphase : phase ∈ asking) :
    (journal.note phase asked).lookups = journal.lookups ++ asked.toList := by
  unfold lookups asking
  unfold asking at hphase
  simp only [List.mem_cons, List.not_mem_nil, or_false] at hphase
  obtain rfl | rfl | rfl | rfl := hphase
  · simp [Journal.note, h .map (by decide), h .load (by decide), h .remap (by decide)]
  · simp [Journal.note, h .load (by decide), h .remap (by decide)]
  · simp [Journal.note, h .remap (by decide)]
  · simp [Journal.note]

end Journal

/-! ### What is known -/

/-- The options that a request starts from: they came with it, or were found for it. -/
inductive Started (request : Request) (journal : Journal) (raw : Bundle) : Prop
  | inline (hsource : request.source = .inline raw) (h : journal .start = [])
  | precomputed (hsource : request.source = .precomputed)
      (h : Asked Empty .baseline (journal .start) (some (.ok raw)))

/-- The options were mapped by the rules that were found at their place. -/
structure Mapped (request : Request) (journal : Journal) (raw : Bundle) (rules : Mapping.Rules)
    (mapped : Bundle) : Prop where
  started : Started request journal raw
  configured : raw.lacksConfiguration = false
  asked : Asked MappingError (.rules (.ofBundle raw)) (journal .map) (some (.ok rules))
  map_eq : rules.map raw = .ok mapped

/-- The custom transition that the mapped options name was found, or they name none. -/
inductive Loaded (journal : Journal) (mapped : Bundle) : Option Transition.Custom → Prop
  | unnamed (hnamed : Transition.Reference.ofBundle mapped = .ok none) (h : journal .load = []) :
      Loaded journal mapped none
  | named {reference : Transition.Reference} {book : Transition.Book} {custom : Transition.Custom}
      (hnamed : Transition.Reference.ofBundle mapped = .ok (some reference))
      (h : Asked LoadError (.book reference.book) (journal .load) (some (.ok book)))
      (hfind : book.find reference.name = .ok custom) : Loaded journal mapped (some custom)

/-- The mapped options were put on the platform that is asked for, if one is. -/
structure Placed (request : Request) (settings : Settings) (journal : Journal) (raw : Bundle)
    (rules : Mapping.Rules) (mapped : Bundle) (custom : Option Transition.Custom)
    (bundle : Bundle) : Prop where
  map : Mapped request journal raw rules mapped
  load : Loaded journal mapped custom
  placed_eq : placed request settings custom mapped = .ok bundle

/-- How a configuration came about that can be published. -/
inductive Came (request : Request) (settings : Settings) (journal : Journal) : Bundle → Prop
  | raw {raw : Bundle} (h : Started request journal raw) (hraw : raw.lacksConfiguration = true)
      (hend : journal.EndsAt .start) : Came request settings journal raw
  | placed {raw mapped bundle : Bundle} {rules : Mapping.Rules}
      {custom : Option Transition.Custom}
      (h : Placed request settings journal raw rules mapped custom bundle)
      (hremaps : remaps request settings = false) (hend : journal.EndsAt .load) :
      Came request settings journal bundle
  | remapped {raw mapped bundle result : Bundle} {rules again : Mapping.Rules}
      {custom : Option Transition.Custom}
      (h : Placed request settings journal raw rules mapped custom bundle)
      (hremaps : remaps request settings = true)
      (hasked : Asked MappingError (.rules (.ofBundle bundle)) (journal .remap) (some (.ok again)))
      (hmap : again.map bundle = .ok result) (hend : journal.EndsAt .remap) :
      Came request settings journal result

/--
A journal that breaks off in one of the four pieces of work.  The lookups for that one
are all under the key that is known by then, and those before it came to their values.
-/
inductive Orderly (request : Request) (settings : Settings) (journal : Journal) : Prop
  | start {due : Due Empty Bundle} (hsource : request.source = .precomputed)
      (h : Asked Empty .baseline (journal .start) due) (hend : journal.EndsAt .start)
  | map {raw : Bundle} {due : Due MappingError Mapping.Rules}
      (hstarted : Started request journal raw)
      (h : Asked MappingError (.rules (.ofBundle raw)) (journal .map) due)
      (hend : journal.EndsAt .map)
  | load {raw mapped : Bundle} {rules : Mapping.Rules} {reference : Transition.Reference}
      {due : Due LoadError Transition.Book} (hmapped : Mapped request journal raw rules mapped)
      (hnamed : Transition.Reference.ofBundle mapped = .ok (some reference))
      (h : Asked LoadError (.book reference.book) (journal .load) due)
      (hend : journal.EndsAt .load)
  | remap {raw mapped bundle : Bundle} {rules : Mapping.Rules}
      {custom : Option Transition.Custom} {due : Due MappingError Mapping.Rules}
      (hplaced : Placed request settings journal raw rules mapped custom bundle)
      (hremaps : remaps request settings = true)
      (h : Asked MappingError (.rules (.ofBundle bundle)) (journal .remap) due)
      (hend : journal.EndsAt .remap)

variable {request : Request} {settings : Settings} {journal : Journal} {phase : Phase}
  {asked : Option Lookup} {raw mapped bundle : Bundle} {rules : Mapping.Rules}
  {custom : Option Transition.Custom}

theorem Started.note (h : Started request journal raw) (hphase : phase ≠ .start) :
    Started request (journal.note phase asked) raw := by
  cases h with
  | inline hsource hnone => exact .inline hsource (by rwa [Journal.note_of_ne hphase.symm])
  | precomputed hsource hasked =>
      exact .precomputed hsource (by rwa [Journal.note_of_ne hphase.symm])

theorem Mapped.note (h : Mapped request journal raw rules mapped) (hstart : phase ≠ .start)
    (hmap : phase ≠ .map) : Mapped request (journal.note phase asked) raw rules mapped :=
  ⟨h.started.note hstart, h.configured, by rw [Journal.note_of_ne hmap.symm]; exact h.asked,
    h.map_eq⟩

theorem Placed.note (h : Placed request settings journal raw rules mapped custom bundle) :
    Placed request settings (journal.note .remap asked) raw rules mapped custom bundle := by
  refine ⟨h.map.note (by decide) (by decide), ?_, h.placed_eq⟩
  cases h.load with
  | unnamed hnamed hnone => exact .unnamed hnamed (by rwa [Journal.note_of_ne (by decide)])
  | named hnamed hasked hfind =>
      exact .named hnamed (by rwa [Journal.note_of_ne (by decide)]) hfind

/-! ### Journals of what is known are orderly -/

theorem Orderly.of_loaded (hmapped : Mapped request journal raw rules mapped)
    (hloaded : Loaded journal mapped custom) (hend : journal.EndsAt .load) :
    Orderly request settings journal := by
  cases hloaded with
  | unnamed _ hnone => exact .map hmapped.started hmapped.asked (hend.of_nil hnone rfl)
  | named hnamed hasked _ => exact .load hmapped hnamed hasked hend

theorem Came.endsAt (h : Came request settings journal bundle) : journal.EndsAt .remap := by
  cases h with
  | raw _ _ hend => exact hend.mono (by decide)
  | placed _ _ hend => exact hend.mono (by decide)
  | remapped _ _ _ _ hend => exact hend

theorem Came.orderly (h : Came request settings journal bundle) :
    Orderly request settings journal := by
  cases h with
  | raw hstarted _ hend =>
      have hasked : Asked MappingError (.rules (.ofBundle bundle)) (journal .map) none := by
        rw [hend .map (by decide)]
        exact .nothing
      exact .map hstarted hasked (hend.mono (by decide))
  | placed hplaced _ hend => exact .of_loaded hplaced.map hplaced.load hend
  | remapped hplaced hremaps hasked _ hend => exact .remap hplaced hremaps hasked hend

/-! ### One block -/

/-- The lookups for a piece of work: all under one key, of the sort that it asks for. -/
inductive Phase.Block : Phase → List Lookup → Prop
  | unasked (phase : Phase) : Block phase []
  | start {block : List Lookup} {due : Due Empty Bundle} (h : Asked Empty .baseline block due) :
      Block .start block
  | map {location : Mapping.Location} {block : List Lookup} {due : Due MappingError Mapping.Rules}
      (h : Asked MappingError (.rules location) block due) : Block .map block
  | load {book : Label} {block : List Lookup} {due : Due LoadError Transition.Book}
      (h : Asked LoadError (.book book) block due) : Block .load block
  | remap {location : Mapping.Location} {block : List Lookup}
      {due : Due MappingError Mapping.Rules}
      (h : Asked MappingError (.rules location) block due) : Block .remap block

/-- The answer tells a piece of work nothing, by the errors that it declares. -/
def Phase.Useless : Phase → Lookup → Prop
  | .start, lookup => lookup.Useless Empty
  | .load, lookup => lookup.Useless LoadError
  | _, lookup => lookup.Useless MappingError

namespace Phase.Block

variable {block : List Lookup} {lookup : Lookup}

theorem useless_dropLast (h : phase.Block block) (hmem : lookup ∈ block.dropLast) :
    phase.Useless lookup := by
  cases h with
  | unasked => simp at hmem
  | start hasked => exact hasked.useless_dropLast hmem
  | map hasked => exact hasked.useless_dropLast hmem
  | load hasked => exact hasked.useless_dropLast hmem
  | remap hasked => exact hasked.useless_dropLast hmem

theorem eq_start (h : phase.Block block) (hmem : lookup ∈ block) (hkey : lookup.key = .baseline) :
    phase = .start := by
  cases h with
  | unasked => simp at hmem
  | start => rfl
  | map hasked => cases hkey.symm.trans (hasked.key_eq hmem)
  | load hasked => cases hkey.symm.trans (hasked.key_eq hmem)
  | remap hasked => cases hkey.symm.trans (hasked.key_eq hmem)

end Phase.Block

private theorem Journal.EndsAt.block {later : Phase} (h : journal.EndsAt phase)
    (hlater : phase.rank < later.rank) : later.Block (journal later) := by
  rw [h later hlater]
  exact .unasked later

private theorem Started.block (h : Started request journal raw) :
    Phase.start.Block (journal .start) := by
  cases h with
  | inline _ hnone =>
      rw [hnone]
      exact .unasked .start
  | precomputed _ hasked => exact .start hasked

private theorem Loaded.block (h : Loaded journal mapped custom) :
    Phase.load.Block (journal .load) := by
  cases h with
  | unnamed _ hnone =>
      rw [hnone]
      exact .unasked .load
  | named _ hasked _ => exact .load hasked

theorem Orderly.block (h : Orderly request settings journal) :
    ∀ phase ∈ asking, phase.Block (journal phase) := by
  unfold asking
  simp only [List.forall_mem_cons, List.not_mem_nil, false_imp_iff, implies_true, and_true]
  cases h with
  | start _ hasked hend =>
      exact ⟨.start hasked, hend.block (by decide), hend.block (by decide), hend.block (by decide)⟩
  | map hstarted hasked hend =>
      exact ⟨hstarted.block, .map hasked, hend.block (by decide), hend.block (by decide)⟩
  | load hmapped _ hasked hend =>
      exact ⟨hmapped.started.block, .map hmapped.asked, .load hasked, hend.block (by decide)⟩
  | remap hplaced _ hasked _ =>
      exact ⟨hplaced.map.started.block, .map hplaced.map.asked, hplaced.load.block, .remap hasked⟩

end BuildConfig.Baseline
