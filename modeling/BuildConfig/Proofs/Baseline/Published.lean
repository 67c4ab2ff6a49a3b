/-
What a published baseline has in common with the options that it came from.

All that an evaluation does to the options is known from the answers that it was given:
`Came` lists the operations, and each of them was made with rules or with a transition
that stands in the lookups.  The bounds on the single operations add up to a bound on
all of them, whatever the environments answered and however often the evaluation was
resumed.

The platform is set by the move.  Only the second mapping comes after it, and rules that
were read keep a platform that is selected, so the platform that was asked for is the
platform of the result.
-/
import BuildConfig.Proofs.Baseline.Override
import BuildConfig.Proofs.Baseline.Resumption

namespace BuildConfig.Baseline

open BuildConfig.Bundle (Edits)
open Mapping.Rules (armBundle armPlatform cpuOption read_selectingText selectingRules selectingText)

/-- After runs in these worlds the request has been answered with the result. -/
def Published (request : Request) (settings : Settings) (worlds : List World)
    (result : Configuration) : Prop :=
  (Machine.runs (Evaluation.begin request settings ([] : List Outcome)) worlds).machine.sink =
    [.ok result]

/-- All that is looked up for the request in these worlds. -/
def lookedUp (request : Request) (settings : Settings) (worlds : List World) : List Lookup :=
  (Machine.lookups (Evaluation.begin request settings ([] : List Outcome)) worlds).flatten

/-- The options that a request starts from, when these lookups were made for it. -/
def Request.StartsFrom (request : Request) (lookups : List Lookup) (raw : Bundle) : Prop :=
  match request.source with
  | .inline bundle => bundle = raw
  | .precomputed => ⟨.baseline, .ready raw⟩ ∈ lookups

/-- The options that may change between the raw options and what is published. -/
inductive MayChange (request : Request) (lookups : List Lookup) (raw : Bundle) :
    OptionName → Prop
  | platforms : MayChange request lookups raw .platforms
  | rules {location : Mapping.Location} {rules : Mapping.Rules} {name : OptionName}
      (hfound : ⟨.rules location, .ready rules⟩ ∈ lookups) (hnames : rules.Names name) :
      MayChange request lookups raw name
  | isExec (hexec : request.exec = true) : MayChange request lookups raw .isExec
  | compilationMode (hexec : request.exec = true) : MayChange request lookups raw .compilationMode
  /-- The first rules that were found map the raw options, and so say which book is loaded. -/
  | custom {rules : Mapping.Rules} {mapped : Bundle} {reference : Transition.Reference}
      {book : Transition.Book} {transition : Transition.Custom} {flag : Flag}
      (hexec : request.exec = true)
      (hfound :
        [⟨.rules (.ofBundle raw), .ready rules⟩, ⟨.book reference.book, .ready book⟩].Sublist lookups)
      (hmap : rules.map raw = .ok mapped)
      (hnamed : Transition.Reference.ofBundle mapped = .ok (some reference))
      (hfind : book.find reference.name = .ok transition) (hflag : flag ∈ transition.flags) :
      MayChange request lookups raw flag.name

variable {request : Request} {settings : Settings} {journal : Journal} {raw mapped bundle : Bundle}
  {rules : Mapping.Rules} {custom : Option Transition.Custom}

/-! ### Lookups in a journal -/

theorem Journal.mem_lookups {phase : Phase} {lookup : Lookup} (hphase : phase ∈ asking)
    (h : lookup ∈ journal phase) : lookup ∈ journal.lookups :=
  List.mem_flatMap.mpr ⟨phase, hphase, h⟩

theorem Journal.lookups_eq (journal : Journal) :
    journal.lookups =
      journal .start ++ (journal .map ++ (journal .load ++ journal .remap)) := by
  simp [lookups, asking]

theorem Started.unique (h : Started request journal raw)
    (horderly : Orderly request settings journal) {other : Bundle}
    (hother : request.StartsFrom journal.lookups other) : other = raw := by
  unfold Request.StartsFrom at hother
  cases h with
  | inline hsource _ =>
      rw [hsource] at hother
      exact hother.symm
  | precomputed hsource hasked =>
      rw [hsource] at hother
      obtain ⟨phase, hphase, hmem⟩ := List.mem_flatMap.mp hother
      rw [(horderly.block phase hphase).eq_start hmem rfl] at hmem
      exact hasked.value_unique hmem

theorem Mapped.mem_lookups (h : Mapped request journal raw rules mapped) :
    ⟨.rules (.ofBundle raw), .ready rules⟩ ∈ journal.lookups :=
  Journal.mem_lookups (by decide) h.asked.mem_of_value

/-- What the transition touches in a placed bundle is among the options that may change. -/
theorem Placed.mayChange (h : Placed request settings journal raw rules mapped custom bundle)
    (hexec : request.exec = true) {name : OptionName}
    (htouches : Transition.Exec.Touches custom name) :
    MayChange request journal.lookups raw name := by
  cases htouches with
  | platforms => exact .platforms
  | isExec => exact .isExec hexec
  | compilationMode => exact .compilationMode hexec
  | flag hcustom hflag =>
      subst hcustom
      cases h.load with
      | named hnamed hasked hfind =>
          refine .custom hexec ?_ h.map.map_eq hnamed hfind hflag
          have hrules := List.singleton_sublist.mpr h.map.asked.mem_of_value
          have hbook := List.singleton_sublist.mpr hasked.mem_of_value
          rw [Journal.lookups_eq]
          exact ((hrules.append (hbook.trans (List.sublist_append_left _ _)))).trans
            (List.sublist_append_right _ _)

theorem Placed.edits (h : Placed request settings journal raw rules mapped custom bundle) :
    Edits (MayChange request journal.lookups raw) raw bundle := by
  have hmapped : Edits (MayChange request journal.lookups raw) raw mapped := by
    refine (Mapping.Rules.edits_map h.map.map_eq).mono ?_
    rintro name (rfl | hnames)
    · exact .platforms
    · exact .rules h.map.mem_lookups hnames
  have hplaced : Edits (MayChange request journal.lookups raw) mapped bundle := by
    refine (edits_placed h.placed_eq).mono ?_
    rintro name (rfl | ⟨hexec, htouches⟩)
    · exact .platforms
    · exact h.mayChange hexec htouches
  exact hmapped.trans hplaced

theorem Came.edits (h : Came request settings journal bundle)
    (hraw : request.StartsFrom journal.lookups raw) :
    Edits (MayChange request journal.lookups raw) raw bundle := by
  have horderly := h.orderly
  cases h with
  | raw hstarted _ _ =>
      rw [hstarted.unique horderly hraw]
      exact .refl _ _
  | placed hplaced _ _ =>
      rw [hplaced.map.started.unique horderly hraw]
      exact hplaced.edits
  | remapped hplaced _ hasked hmap _ =>
      rw [hplaced.map.started.unique horderly hraw]
      refine hplaced.edits.trans ((Mapping.Rules.edits_map hmap).mono ?_)
      rintro name (rfl | hnames)
      · exact .platforms
      · exact .rules (Journal.mem_lookups (by decide) hasked.mem_of_value) hnames

/-! ### The platform -/

private theorem exists_target_of_remaps (h : remaps request settings = true) :
    ∃ platform, request.target settings = some platform := by
  unfold remaps at h
  unfold Request.target
  cases hplatform : request.platform with
  | none =>
      rw [hplatform] at h
      cases h
  | some platform => exact ⟨platform, ite_self _⟩

/-- All rules among the lookups keep the platforms that are selected. -/
def KeepsSelections (lookups : List Lookup) : Prop :=
  ∀ location rules, ⟨.rules location, .ready rules⟩ ∈ lookups → rules.KeepsSelection

theorem Came.platforms (h : Came request settings journal bundle)
    (hraw : request.StartsFrom journal.lookups raw) (hconfigured : raw.lacksConfiguration = false)
    (hrules : KeepsSelections journal.lookups) {platform : Label}
    (htarget : request.target settings = some platform) : bundle.platforms = [platform] := by
  have horderly := h.orderly
  cases h with
  | raw hstarted hlacks _ =>
      rw [hstarted.unique horderly hraw, hlacks] at hconfigured
      cases hconfigured
  | placed hplaced _ _ => exact platforms_placed hplaced.placed_eq htarget
  | @remapped _ _ bundle _ _ again _ hplaced _ hasked hmap _ =>
      have hselected : bundle.platforms = [platform] := platforms_placed hplaced.placed_eq htarget
      have hagain : again.KeepsSelection :=
        hrules _ again (Journal.mem_lookups (by decide) hasked.mem_of_value)
      rw [hagain.platforms_map hmap (hselected ▸ List.cons_ne_nil _ _), hselected]

/-- The last lookup found the rules that were mapped by last, and these change nothing more. -/
theorem Came.map_eq_self (h : Came request settings journal bundle)
    (hraw : request.StartsFrom journal.lookups raw) (hconfigured : raw.lacksConfiguration = false)
    (hrules : KeepsSelections journal.lookups) (hremaps : remaps request settings = true) :
    ∃ location rules, journal.lookups.getLast? = some ⟨.rules location, .ready rules⟩ ∧
      rules.map bundle = .ok bundle := by
  have horderly := h.orderly
  cases h with
  | raw hstarted hlacks _ =>
      rw [hstarted.unique horderly hraw, hlacks] at hconfigured
      cases hconfigured
  | placed _ hnot _ =>
      rw [hnot] at hremaps
      cases hremaps
  | @remapped _ _ bundle _ _ again _ hplaced _ hasked hmap _ =>
      have hagain : again.KeepsSelection :=
        hrules _ again (Journal.mem_lookups (by decide) hasked.mem_of_value)
      obtain ⟨platform, htarget⟩ := exists_target_of_remaps hremaps
      have hselected := platforms_placed hplaced.placed_eq htarget
      refine ⟨.ofBundle bundle, again, ?_, Mapping.Rules.map_map_of_selected hagain
        (hselected ▸ List.cons_ne_nil _ _) hmap⟩
      obtain ⟨before, _, hblock⟩ := hasked.eq_append
      rw [Journal.lookups_eq, hblock]
      simp only [← List.append_assoc]
      exact List.getLast?_concat

/-! ### Any number of runs -/

variable {worlds : List World} {result : Configuration}

private theorem came_of_published (h : Published request settings worlds result) :
    ∃ journal : Journal, lookedUp request settings worlds = journal.lookups ∧
      Came request settings journal result.bundle := by
  obtain ⟨journals, hadded, hgoing | hgone⟩ :=
    (Evaluation.going_begin request settings ([] : List Outcome)).runs worlds
  · unfold Published at h
    rw [hgoing.sink_eq] at h
    cases h
  · obtain ⟨outcome, hsink, hconcluded⟩ := hgone.concluded
    unfold Published at h
    rw [hsink] at h
    cases h
    cases hconcluded with
    | published hcame => exact ⟨.join journals, hadded.append_eq.symm, hcame⟩

private theorem remaps_of_mem_history {ς : Type} [Sink ς Outcome] {sink : ς}
    (h : .remap ∈ (Machine.runs (Evaluation.begin request settings sink) worlds).machine.history) :
    remaps request settings = true := by
  have hpath : (Machine.runs (Evaluation.begin request settings sink) worlds).machine.history <+:
      shortPath ∨
      (Machine.runs (Evaluation.begin request settings sink) worlds).machine.history <+:
        longPath request settings := by
    obtain ⟨_, hunderway⟩ | ⟨_, hover⟩ :=
      (Evaluation.underway_begin request settings sink).runs worlds
    · exact hunderway.isPath
    · exact hover.isPath
  obtain hshort | hlong := hpath
  · have hmem := hshort.subset h
    simp [shortPath] at hmem
  · have hmem := hlong.subset h
    cases hremaps : remaps request settings with
    | true => rfl
    | false => simp [longPath, hremaps] at hmem

/--
**The platform that is asked for is the platform that one gets.**  So it is for the
placeholder of a request on its way to execution.  No rules that were read and no custom
transition can change that, and when the options were mapped again, the rules that this
was done by change nothing in the result.
-/
theorem platforms_published (h : Published request settings worlds result)
    (hraw : request.StartsFrom (lookedUp request settings worlds) raw)
    (hconfigured : raw.lacksConfiguration = false)
    (hread : ∀ location rules,
      ⟨.rules location, .ready rules⟩ ∈ lookedUp request settings worlds →
        ∃ text, Mapping.Rules.read text = .ok rules) :
    (∀ platform, request.platform = some platform → result.bundle.platforms = [platform]) ∧
    (request.platform = none → request.exec = true →
      result.bundle.platforms = [settings.placeholder]) ∧
    (.remap ∈ (Machine.runs (Evaluation.begin request settings ([] : List Outcome))
        worlds).machine.history → remaps request settings = true) ∧
    (remaps request settings = true →
      ∃ location rules, (lookedUp request settings worlds).getLast? =
          some ⟨.rules location, .ready rules⟩ ∧
        rules.map result.bundle = .ok result.bundle) := by
  obtain ⟨journal, hlookups, hcame⟩ := came_of_published h
  rw [hlookups] at hraw hread ⊢
  have hrules : KeepsSelections journal.lookups := by
    intro location rules hfound
    obtain ⟨text, htext⟩ := hread location rules hfound
    exact Mapping.Rules.keepsSelection_of_read htext
  refine ⟨?_, ?_, remaps_of_mem_history, hcame.map_eq_self hraw hconfigured hrules⟩
  · intro platform hplatform
    refine hcame.platforms hraw hconfigured hrules ?_
    unfold Request.target
    rw [hplatform]
    exact ite_self _
  · intro hplatform hexec
    refine hcame.platforms hraw hconfigured hrules ?_
    unfold Request.target
    rw [if_pos hexec, hplatform]
    rfl

private theorem answer_of_lookedUp {store : Store} {lookup : Lookup}
    (h : lookup ∈ lookedUp request settings [World.mk store]) :
    lookup.answer = store.answer lookup.key := by
  unfold lookedUp at h
  rw [Machine.lookups, Machine.lookups, List.flatten_singleton] at h
  exact Store.answer_of_run h

/-- A platform with a selector and a flag of its own is kept, and its flag is obeyed. -/
theorem platforms_published_in_store :
    Published (onPlatform (armBundle "dbg" []) armPlatform) .default [World.mk settledStore]
        ⟨armBundle "opt" [armPlatform]⟩ ∧
      (armBundle "opt" [armPlatform]).platforms = [armPlatform] ∧
      ∃ location rules,
        (lookedUp (onPlatform (armBundle "dbg" []) armPlatform) .default
          [World.mk settledStore]).getLast? = some ⟨.rules location, .ready rules⟩ ∧
        rules.map (armBundle "opt" [armPlatform]) = .ok (armBundle "opt" [armPlatform]) := by
  have hfull : Environment.Full settledStore.answer settledStore := Store.full rfl rfl fun _ => rfl
  have hpublished : Published (onPlatform (armBundle "dbg" []) armPlatform) .default
      [World.mk settledStore] ⟨armBundle "opt" [armPlatform]⟩ :=
    ((publishes_iff_due hfull).mpr rfl).2
  have hpublishes := platforms_published hpublished rfl rfl ?_
  · exact ⟨hpublished, hpublishes.1 armPlatform rfl, hpublishes.2.2.2 rfl⟩
  · intro location rules hfound
    have hready : settledStore.answer (.rules location) = .ready rules :=
      (answer_of_lookedUp hfound).symm
    obtain ⟨place, hentry⟩ := Store.exists_entry_of_ready hready
    cases List.mem_singleton.mp hentry
    exact ⟨selectingText, read_selectingText⟩

/--
**A published baseline has the shape of the options that it came from, and few of its
options have changed.**  Those are the platforms, what the rules that were looked up
have flags for, and on the way to execution the exec settings and what the custom
transition that was loaded has flags for.
-/
theorem edits_published (h : Published request settings worlds result)
    (hraw : request.StartsFrom (lookedUp request settings worlds) raw) :
    Edits (MayChange request (lookedUp request settings worlds) raw) raw result.bundle := by
  obtain ⟨journal, hlookups, hcame⟩ := came_of_published h
  rw [hlookups] at hraw ⊢
  exact hcame.edits hraw

/-- A book with a transition that tries to leave the execution platform. -/
def toolBook : Transition.Book :=
  ⟨⟨"//t:defs", by decide⟩, "[tool]\n--core.cpu=x86\n--platform.platforms=//p:arm\n"⟩

/-- Options that name the transition in the book. -/
def toolBundle (cpu : String) (exec : Bool) (platforms : List Label) : Bundle :=
  (((Bundle.empty.set cpuOption (.string cpu)).set .execTransition (.string "//t:defs%tool")).set
    .isExec (.bool exec)).set .platforms (.labels platforms)

/-- A request to move these options onto an execution platform. -/
def ontoExec : Request :=
  ⟨.inline (toolBundle "ppc" false []), true, none⟩

/-- A store with the rules and the book. -/
def toolStore : Store :=
  settledStore.insert (.book toolBook.label) toolBook

/-- On the way to execution the processor changes by a flag of the custom transition. -/
theorem edits_published_in_store :
    Published ontoExec .default [World.mk toolStore]
        ⟨toolBundle "x86" true [Settings.default.placeholder]⟩ ∧
      MayChange ontoExec (lookedUp ontoExec .default [World.mk toolStore])
        (toolBundle "ppc" false []) cpuOption := by
  have hfull : Environment.Full toolStore.answer toolStore := Store.full rfl rfl fun _ => rfl
  have hpublished : Published ontoExec .default [World.mk toolStore]
      ⟨toolBundle "x86" true [Settings.default.placeholder]⟩ :=
    ((publishes_iff_due hfull).mpr rfl).2
  exact ⟨hpublished, (edits_published hpublished rfl).frame cpuOption (by decide)⟩

end BuildConfig.Baseline
