/-
A batch maps each bundle as if it were alone.

The rules for all bundles are asked for together and kept in a table, from which each
bundle takes its own by the place that it names.  None of this can be seen in what is
delivered: every bundle is mapped by what the world says about the bundle's own place, and
a bundle never goes unmapped because the table has its rules under another name of that
place.  One bundle that cannot be mapped spoils the whole delivery, and of several it is
the one with the least name whose error is delivered.

`ComesOut` lists the ways in which the first run of a batch can go, in a world that does
not raise its flag, and says which places were asked for.  The world has to say the same
about a place under all its names, and to go on saying so; nothing is assumed about what
it says of anything else.
-/
import BuildConfig.Proofs.Mapping.Fetching
import BuildConfig.Proofs.Mapping.Protocol
import BuildConfig.Proofs.Mapping.Stability

namespace BuildConfig

namespace SortedMap

variable {κ α β ε : Type}

/-- Changing every value goes through, or ends at the first that cannot be changed. -/
private theorem changeEach_cases (f : α → Except ε β) (entries : List (κ × α)) :
    (∃ changed, changeEach f entries = .ok changed ∧
      entries.Forall₂ (fun entry other => other.1 = entry.1 ∧ f entry.2 = .ok other.2) changed) ∨
    ∃ before key a rest e, entries = before ++ (key, a) :: rest ∧
      (∀ entry ∈ before, ∃ b, f entry.2 = .ok b) ∧ f a = .error e ∧
      changeEach f entries = .error e := by
  induction entries with
  | nil => exact Or.inl ⟨[], rfl, .nil⟩
  | cons entry rest ih =>
      obtain ⟨key, a⟩ := entry
      unfold changeEach
      cases hfirst : f a with
      | error e => exact Or.inr ⟨[], key, a, rest, e, rfl, by simp, hfirst, rfl⟩
      | ok b =>
          dsimp only
          rcases ih with ⟨changed, hchanged, hall⟩ |
            ⟨before, failing, value, after, e, hrest, hbefore, hfails, hchanged⟩
          · rw [hchanged]
            exact Or.inl ⟨_, rfl, .cons ⟨rfl, hfirst⟩ hall⟩
          · rw [hchanged, hrest]
            refine Or.inr ⟨(key, a) :: before, failing, value, after, e, rfl, ?_, hfails, rfl⟩
            rw [List.forall_mem_cons]
            exact ⟨⟨b, hfirst⟩, hbefore⟩

/-- The same of a map, where the first key is the least. -/
private theorem mapValues_cases [LT κ] [KeyOrder κ] (f : α → Except ε β) (m : SortedMap κ α) :
    (∃ changed, m.mapValues f = .ok changed ∧
      m.entries.Forall₂ (fun entry other => other.1 = entry.1 ∧ f entry.2 = .ok other.2)
        changed.entries) ∨
    ∃ key a e, (key, a) ∈ m.entries ∧ f a = .error e ∧
      (∀ entry ∈ m.entries, entry.1 < key → ∃ b, f entry.2 = .ok b) ∧
      m.mapValues f = .error e := by
  rcases changeEach_cases f m.entries with ⟨changed, hchanged, hall⟩ |
    ⟨before, key, a, rest, e, hentries, hbefore, hfails, hchanged⟩
  · left
    unfold mapValues
    split <;> rename_i heach
    · simp [hchanged] at heach
    · obtain rfl : changed = _ := Except.ok.inj (hchanged.symm.trans heach)
      exact ⟨_, rfl, hall⟩
  · refine Or.inr ⟨key, a, e, by simp [hentries], hfails, ?_, ?_⟩
    · intro entry hentry hless
      -- The keys ascend, so the entries before the one that fails are those of the lesser keys.
      have hascending := m.ascending
      rw [hentries] at hentry hascending
      rw [List.map_append, List.pairwise_append, List.map_cons, List.pairwise_cons] at hascending
      rcases List.mem_append.mp hentry with hmem | hmem
      · exact hbefore entry hmem
      · rcases List.mem_cons.mp hmem with rfl | hlater
        · exact absurd hless (KeyOrder.irrefl _)
        · have hgreater := hascending.2.1.1 entry.1 (List.mem_map_of_mem hlater)
          exact absurd (KeyOrder.trans hless hgreater) (KeyOrder.irrefl _)
    · unfold mapValues
      split <;> rename_i heach
      · rw [Except.error.inj (hchanged.symm.trans heach)]
      · simp [hchanged] at heach

end SortedMap

namespace Mapping.Batch

open Environment (Later)

variable {σ : Type} [Environment σ]

/-! ### Worlds that say the same about a place under all its names -/

/-- What a world says about the places of rules. -/
def sourcesOf (world : σ) : Sources :=
  fun location => (Environment.ask (.rules location) world).1

/-- The flag is never raised, and all names of a place get the same answer at any time. -/
structure Alike (world : σ) : Prop where
  lowered : ∀ later, Later world later → (Environment.raised later).1 = false
  same : ∀ later, Later world later → ∀ a b : Location, a.same b = true →
    (Environment.ask (.rules a) later).1 = sourcesOf world b

theorem Alike.tells {world : σ} (h : Alike world) :
    Environment.Tells (sourcesOf world) True world :=
  ⟨fun _ later hlater => h.lowered later hlater,
    fun later hlater location => Or.inr (h.same later hlater _ _ (Location.same_refl location))⟩

theorem Alike.sourcesOf_eq {world : σ} (h : Alike world) {a b : Location}
    (hsame : a.same b = true) : sourcesOf world a = sourcesOf world b :=
  h.same world .refl a b hsame

/-! ### One bundle -/

/-- What a bundle is mapped to by the rules at its own place. -/
inductive MapsTo (sources : Sources) (bundle : Bundle) : Except OptionsError Configuration → Prop
  | bare (h : bundle.lacksConfiguration = true) : MapsTo sources bundle (.ok ⟨bundle⟩)
  | ruled {rules : Rules} (h : bundle.lacksConfiguration = false)
      (hrules : sources (.ofBundle bundle) = .ready rules) :
      MapsTo sources bundle ((rules.map bundle).map Configuration.mk)

theorem MapsTo.unique {sources : Sources} {bundle : Bundle}
    {outcome other : Except OptionsError Configuration} (h : MapsTo sources bundle outcome)
    (k : MapsTo sources bundle other) : outcome = other := by
  cases h with
  | bare hbundle =>
      cases k with
      | bare _ => rfl
      | ruled hconfigured _ => simp [hbundle] at hconfigured
  | ruled hbundle hrules =>
      cases k with
      | bare hbare => simp [hbundle] at hbare
      | ruled _ hready => rw [Answer.ready.inj (hrules.symm.trans hready)]

theorem MapsTo.of_map {sources : Sources} {bundle result : Bundle} {rules : Rules}
    (h : bundle.lacksConfiguration = false) (hrules : sources (.ofBundle bundle) = .ready rules)
    (hmap : rules.map bundle = .ok result) : MapsTo sources bundle (.ok ⟨result⟩) := by
  have hmapsTo : MapsTo sources bundle _ := .ruled h hrules
  rwa [hmap] at hmapsTo

theorem mapsTo_mapOne {sources : Sources} {request : SortedMap String Bundle} {table : Table}
    (hsame : ∀ a b : Location, a.same b = true → sources a = sources b)
    (htable : Found sources (locations request) table) {name : String} {bundle : Bundle}
    (hentry : (name, bundle) ∈ request.entries) :
    MapsTo sources bundle (mapOne table bundle) := by
  unfold mapOne
  by_cases hbundle : bundle.lacksConfiguration = true
  · rw [if_pos hbundle]
    exact .bare hbundle
  · have hconfigured : bundle.lacksConfiguration = false := by simpa using hbundle
    -- The table may have the place under another name, and there the rules are the same.
    obtain ⟨other, rules, hother, hready, hfound⟩ :=
      htable.find? (exists_same_of_named (mem_named hentry hconfigured))
    have hrules : sources (.ofBundle bundle) = .ready rules :=
      (hsame other _ hother).symm.trans hready
    rw [if_neg hbundle, hfound]
    exact .ruled hconfigured hrules

/-! ### All bundles -/

/-- The delivery of a batch whose rules are all there. -/
inductive Outcome (request : SortedMap String Bundle) (sources : Sources) : Delivery → Prop
  /-- Every bundle is mapped. -/
  | mapped {configurations : SortedMap String Configuration}
      (h : request.entries.Forall₂
        (fun entry result => result.1 = entry.1 ∧ MapsTo sources entry.2 (.ok result.2))
        configurations.entries) :
      Outcome request sources (.ok configurations)
  /-- Some cannot be mapped, and this is the one of the least name. -/
  | unfit {name : String} {bundle : Bundle} {e : OptionsError}
      (hentry : (name, bundle) ∈ request.entries) (h : MapsTo sources bundle (.error e))
      (hleast : ∀ entry ∈ request.entries, entry.1 < name →
        ∃ result, MapsTo sources entry.2 (.ok result)) :
      Outcome request sources (.error (.options e))

theorem outcome_of_found {sources : Sources} {request : SortedMap String Bundle} {table : Table}
    (hsame : ∀ a b : Location, a.same b = true → sources a = sources b)
    (htable : Found sources (locations request) table) :
    Outcome request sources (outcome request table) := by
  have hmaps : ∀ entry ∈ request.entries, ∀ outcome, mapOne table entry.2 = outcome →
      MapsTo sources entry.2 outcome := by
    rintro entry hentry _ rfl
    exact mapsTo_mapOne hsame htable hentry
  unfold outcome
  rcases request.mapValues_cases (mapOne table) with ⟨configurations, hmapped, hall⟩ |
    ⟨name, bundle, e, hentry, hfails, hleast, hmapped⟩
  · rw [hmapped]
    have hentries := (List.forall₂_and_left (p := (· ∈ request.entries)) _ _).mpr
      ⟨fun _ hmem => hmem, hall⟩
    refine .mapped (hentries.imp ?_)
    rintro entry result ⟨hmem, hname, hresult⟩
    exact ⟨hname, hmaps entry hmem _ hresult⟩
  · rw [hmapped]
    refine .unfit hentry (hmaps _ hentry _ hfails) ?_
    intro entry hmem hless
    obtain ⟨result, hresult⟩ := hleast entry hmem hless
    exact ⟨result, hmaps entry hmem _ hresult⟩

/-! ### The first run -/

/-- The places that the bundles name, each of them once and under the first of its names. -/
def places (request : SortedMap String Bundle) : List Location :=
  (named request).eraseDupsBy Location.same

/-- The places that are asked for in the first run, how it ends, and what is delivered in it. -/
inductive ComesOut (request : SortedMap String Bundle) (sources : Sources) :
    List Location → RunEnd → Option Delivery → Prop
  /-- Some rules are malformed; the places after them are not asked for. -/
  | refused {before rest : List Location} {location : Location} {e : MappingError}
      (hplaces : places request = before ++ location :: rest)
      (haccepted : ∀ earlier ∈ before, ¬ sources.Refuses earlier)
      (h : sources.due location = some (.error e)) :
      ComesOut request sources (before ++ [location]) .done (some (.error (.mapping e)))
  /-- Some rules are missing. -/
  | lacking (haccepted : ∀ location ∈ places request, ¬ sources.Refuses location)
      (hlacks : ∃ location ∈ places request, sources.due location = none) :
      ComesOut request sources (places request) .suspended none
  /-- All rules are there. -/
  | mapped {delivery : Delivery}
      (hready : ∀ location ∈ places request, ∃ rules, sources location = .ready rules)
      (h : Outcome request sources delivery) :
      ComesOut request sources (places request) .done (some delivery)

variable {ς : Type} [Sink ς Delivery] {sources : Sources} {recorded : Recorded σ}

private theorem run_deliver (batch : Batch ς Idle) (delivery : Delivery)
    (h : Environment.Tells sources True recorded) :
    let ran := Machine.run (batch.deliver delivery) recorded
    ran.ending = .done ∧ ran.machine.sink = Sink.accept batch.sink delivery ∧
      ran.world.lookups = recorded.lookups := by
  have hidle : Machine.run (batch.deliver delivery).after (Environment.raised recorded).2 =
      ⟨.done, batch.after, (Environment.raised (Environment.raised recorded).2).2⟩ :=
    Machine.run_of_last .done (h.lowered trivial _ (.raised .refl)) rfl
  rw [run_of_continuing rfl (h.lowered trivial _ .refl) hidle]
  exact ⟨rfl, rfl, rfl⟩

private theorem run_start (request : SortedMap String Bundle) (sink : ς)
    (hsame : ∀ a b : Location, a.same b = true → sources a = sources b)
    (h : Environment.Tells sources True recorded) :
    let ran := Machine.run (start request sink Idle.mk) recorded
    ∃ asked delivered, ComesOut request sources asked ran.ending delivered ∧
      ran.machine.sink = delivered.elim sink (Sink.accept sink) ∧
      ran.world.lookups = recorded.lookups ++ asked.map sources.lookup := by
  have hflag := h.lowered trivial _ .refl
  have hlocations : locations request = places request := locations_eq request
  obtain ⟨asked, hcomes, hlookups⟩ := fetch_comes (h.later (.raised .refl)) (locations request)
  have hlookups := hlookups trivial
  have htells := h.later ((Later.raised .refl).trans (later_fetch [] false (locations request) _))
  dsimp only
  generalize hfetch : fetch [] false (locations request) (Environment.raised recorded).2 = fetched
    at hcomes htells hlookups
  obtain ⟨fetched, later⟩ := fetched
  have hstep : Machine.step (start request sink Idle.mk) (Environment.raised recorded).2 = _ :=
    step_of_fetching rfl hfetch
  rw [hlocations] at hcomes
  cases hcomes with
  | @complete table htable =>
      have hready : ∀ location ∈ places request, ∃ rules, sources location = .ready rules := by
        intro location hlocation
        obtain ⟨entry, -, -, hready⟩ := exists_mem_of_forall₂ htable hlocation
        exact ⟨entry.2, hready⟩
      -- One step keeps the table and the next one applies it.
      have hrun : Machine.run (start request sink Idle.mk) recorded =
          Machine.run ((start request sink Idle.mk).deliver (outcome request table))
            (Environment.raised later).2 :=
        (Machine.run_of_next hflag hstep).trans
          (Machine.run_of_next (htells.lowered trivial _ .refl) rfl)
      obtain ⟨hending, hsink, hrecord⟩ := run_deliver (start request sink Idle.mk)
        (outcome request table) (htells.later (.raised .refl))
      rw [hrun, hending]
      exact ⟨_, some _, .mapped hready (outcome_of_found hsame (hlocations ▸ htable)), hsink,
        hrecord.trans hlookups⟩
  | lacking hlacks haccepted =>
      rw [Machine.run_of_last .suspended hflag hstep]
      exact ⟨_, none, .lacking (haccepted trivial) (hlacks trivial), rfl, hlookups⟩
  | @refused before rest location e hplaces hrefused haccepted =>
      have hrun : Machine.run (start request sink Idle.mk) recorded =
          Machine.run ((start request sink Idle.mk).deliver (.error (.mapping e))) later :=
        Machine.run_of_next hflag hstep
      obtain ⟨hending, hsink, hrecord⟩ := run_deliver (start request sink Idle.mk)
        (.error (.mapping e)) htells
      rw [hrun, hending]
      exact ⟨_, some _, .refused hplaces (haccepted trivial) hrefused, hsink,
        hrecord.trans hlookups⟩
  | interrupted hplaces hnot => exact absurd trivial hnot

/--
**A batch maps each bundle as if it were alone, all of them or none.**  In a world that
does not raise its flag and says the same about a place under all its names, the first run
of a batch with nothing to go on with asks for the places that its bundles name, each once
and in order, up to the first whose rules are malformed; that error is delivered.  When all
rules are there, one delivery is made: the bundles under their names, each mapped by what
the world says about its own place, or the error of the first that cannot be mapped.
-/
theorem maps_each_bundle (request : SortedMap String Bundle) (sink : ς) {world : σ}
    (h : Alike world) :
    let ran := Machine.run (start request sink Idle.mk) world
    ∃ asked delivered, ComesOut request (sourcesOf world) asked ran.ending delivered ∧
      ran.machine.sink = delivered.elim sink (Sink.accept sink) ∧
      Machine.lookups (start request sink Idle.mk) [⟨world⟩] =
        [asked.map (sourcesOf world).lookup] := by
  have hrecorded := Machine.run_recorded (start request sink Idle.mk) (.start world)
  obtain ⟨asked, delivered, hcomes, hsink, hlookups⟩ := run_start request sink
    (fun _ _ => h.sourcesOf_eq) (h.tells.recorded (.start world))
  dsimp only
  rw [show Machine.run (start request sink Idle.mk) world = _ from hrecorded]
  exact ⟨asked, delivered, hcomes, hsink, congrArg (fun lookups => [lookups]) hlookups⟩

/-! ### Stores -/

private theorem answer?_of_same (entry : Store.Entry) {a b : Location} (h : a.same b = true) :
    entry.answer? (.rules a) = entry.answer? (.rules b) := by
  have hidentity : (Key.rules a).identity = (Key.rules b).identity :=
    congrArg Key.Identity.rules (Location.same_iff.mp h)
  have hsame : entry.key.same (.rules a) = entry.key.same (.rules b) := by
    unfold Key.same
    rw [hidentity]
  unfold Store.Entry.answer?
  by_cases hb : entry.key.same (.rules b) = true
  · rw [dif_pos hb, dif_pos (hsame.trans hb)]
  · rw [dif_neg hb, dif_neg (hsame ▸ hb)]

theorem alike_of_store {store : Store} (hflag : store.flag = false) (halarm : store.alarm = none) :
    Alike store := by
  refine ⟨fun later hlater => (Store.lowered_of_later hflag halarm hlater).1, ?_⟩
  intro later hlater a b hsame
  show later.answer (.rules a) = store.answer (.rules b)
  rw [Store.answer_of_later hlater]
  have hentries : (fun entry : Store.Entry => entry.answer? (.rules a)) =
      fun entry => entry.answer? (.rules b) := funext fun entry => answer?_of_same entry hsame
  exact congrArg (fun answer? => (store.entries.findSome? answer?).getD .missing) hentries

/-- A bundle whose rules are at this path. -/
def ruledBy (path mode : String) : Bundle :=
  (Rules.armBundle mode [Rules.armPlatform]).set .platformMappings (.string path)

/-- Two bundles that name one place, each in its own way. -/
def twoNames : SortedMap String Bundle :=
  .ofList [("a", ruledBy "tools//map" "dbg"), ("b", ruledBy "tools/map" "dbg")]

/-- A store with the rules of that place. -/
def toolStore : Store :=
  Store.empty.insert (.rules ⟨some "tools/map"⟩) Rules.selectingRules

theorem mapsTo_ruledBy {path : String}
    (hplace : Location.ofBundle (ruledBy path "dbg") = ⟨some path⟩)
    (hrules : sourcesOf toolStore ⟨some path⟩ = .ready Rules.selectingRules)
    (hconfigured : (ruledBy path "dbg").lacksConfiguration = false)
    (hmap : Rules.selectingRules.map (ruledBy path "dbg") = .ok (ruledBy path "opt")) :
    MapsTo (sourcesOf toolStore) (ruledBy path "dbg") (.ok ⟨ruledBy path "opt"⟩) := by
  rw [← hplace] at hrules
  exact .of_map hconfigured hrules hmap

/-- The rules are asked for once, and both bundles are mapped by them. -/
theorem maps_each_bundle_in_store :
    Alike toolStore ∧
      Machine.lookups (start twoNames ([] : List Delivery) Idle.mk) [⟨toolStore⟩] =
        [[⟨.rules ⟨some "tools//map"⟩, .ready Rules.selectingRules⟩]] ∧
      ∃ configurations,
        (Machine.run (start twoNames ([] : List Delivery) Idle.mk) toolStore).machine.sink =
          [.ok configurations] ∧
        configurations.entries =
          [("a", ⟨ruledBy "tools//map" "opt"⟩), ("b", ⟨ruledBy "tools/map" "opt"⟩)] := by
  have halike : Alike toolStore := alike_of_store rfl rfl
  have hplaces : places twoNames = [⟨some "tools//map"⟩] := by decide
  have hdue : (sourcesOf toolStore).due ⟨some "tools//map"⟩ =
      some (.ok Rules.selectingRules) := rfl
  have hone : MapsTo (sourcesOf toolStore) (ruledBy "tools//map" "dbg")
      (.ok ⟨ruledBy "tools//map" "opt"⟩) :=
    mapsTo_ruledBy (by decide +kernel) rfl (by decide +kernel) (by decide +kernel)
  have hother : MapsTo (sourcesOf toolStore) (ruledBy "tools/map" "dbg")
      (.ok ⟨ruledBy "tools/map" "opt"⟩) :=
    mapsTo_ruledBy (by decide +kernel) rfl (by decide +kernel) (by decide +kernel)
  have hentries : twoNames.entries =
      [("a", ruledBy "tools//map" "dbg"), ("b", ruledBy "tools/map" "dbg")] := by decide +kernel
  obtain ⟨asked, delivered, hcomes, hsink, hlookups⟩ :=
    maps_each_bundle twoNames ([] : List Delivery) halike
  rw [hlookups, hsink]
  refine ⟨halike, ?_⟩
  generalize (Machine.run (start twoNames ([] : List Delivery) Idle.mk) toolStore).ending = ending
    at hcomes
  cases hcomes with
  | mapped hrules houtcome =>
      cases houtcome with
      | @mapped configurations hall =>
          rw [hentries] at hall
          refine ⟨by rw [hplaces]; rfl, configurations, rfl, ?_⟩
          generalize configurations.entries = results at hall
          obtain _ | ⟨⟨hfirst, hmapped⟩, _ | ⟨⟨hsecond, hmapped'⟩, ⟨⟩⟩⟩ := hall
          rw [List.cons_eq_cons, List.cons_eq_cons]
          exact ⟨Prod.ext hfirst (Except.ok.inj (hone.unique hmapped)).symm,
            Prod.ext hsecond (Except.ok.inj (hother.unique hmapped')).symm, rfl⟩
      | unfit hentry h hleast =>
          rw [hentries] at hentry
          simp at hentry
          rcases hentry with ⟨-, rfl⟩ | ⟨-, rfl⟩
          · exact nomatch hone.unique h
          · exact nomatch hother.unique h
  | lacking haccepted hlacks => simp [hplaces, hdue] at hlacks
  | @refused before rest location e hcut haccepted h =>
      have hlocation : location ∈ places twoNames := by simp [hcut]
      rw [hplaces, List.mem_singleton] at hlocation
      rw [hlocation, hdue] at h
      simp at h

end Mapping.Batch

end BuildConfig
