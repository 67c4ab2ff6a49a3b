/-
When a baseline on a platform is stable.

The baseline of options on a platform is published, and then asked for again with the
published options to start from and the same platform.  Both requests end with the
platform's flags, so one expects the same result.  But the flags may say where rules
are looked for, and which custom transition is loaded.  The second request takes both
from the published options, so it can come by other rules than those the options were
published with, and nothing ties the two together.

`publishes_again_iff` says exactly when the result is the same.  In particular it is
when no flags of the platform are about those two options.
-/
import BuildConfig.Proofs.Baseline.Refinement

namespace BuildConfig.Baseline

open Mapping.Rules (armBundle armPlatform cpuOption read_selectingText selectingRules selectingText)

/-- A request to put options on a platform. -/
def onPlatform (bundle : Bundle) (platform : Label) : Request :=
  ⟨.inline bundle, false, some platform⟩

/-- The request is done in one run, and what it publishes is the result. -/
def Publishes {σ : Type} [Environment σ] (request : Request) (settings : Settings) (world : σ)
    (result : Bundle) : Prop :=
  (Machine.run (Evaluation.begin request settings ([] : List Outcome)) world).ending = .done ∧
    (Machine.run (Evaluation.begin request settings ([] : List Outcome)) world).machine.sink =
      [.ok ⟨result⟩]

/--
The platform's flags lead from a bundle back to it, first by the rules at its place and
then by those at the place that they named, and the transition named there can be loaded.
-/
def Recurs (answers : Answers) (platform : Label) (bundle : Bundle) : Prop :=
  ∃ rules between custom rules',
    answers (.rules (.ofBundle bundle)) = .ready rules ∧
    bundle.apply (rules.flagsOf platform) = .ok between ∧
    loaded answers between = some (.ok custom) ∧
    answers (.rules (.ofBundle between)) = .ready rules' ∧
    between.apply (rules'.flagsOf platform) = .ok bundle

variable {σ : Type} [Environment σ] {answers : Answers} {settings : Settings} {platform : Label}
  {bundle result : Bundle}

theorem publishes_iff_due {world : σ} (h : Environment.Full answers world) {request : Request} :
    Publishes request settings world result ↔
      request.due settings answers = some (.ok ⟨result⟩) := by
  have hanswered := (Evaluation.owes_begin request settings answers ([] : List Outcome)).run_full h
  unfold Evaluation.Answered at hanswered
  unfold Publishes
  cases hdue : request.due settings answers with
  | none =>
      rw [hdue] at hanswered
      rw [hanswered.1]
      exact ⟨fun hpublishes => (nomatch hpublishes.1), fun hnone => (nomatch hnone)⟩
  | some outcome =>
      rw [hdue] at hanswered
      obtain ⟨hending, hsink⟩ := hanswered
      rw [hending, hsink]
      show RunEnd.done = .done ∧ [outcome] = _ ↔ _
      simp

private theorem ofBundle_congr {a b : Bundle}
    (h : a.get? .platformMappings = b.get? .platformMappings) :
    Mapping.Location.ofBundle a = .ofBundle b := by
  unfold Mapping.Location.ofBundle Bundle.stringAt
  rw [h]

private theorem loaded_congr {a b : Bundle} (h : a.get? .execTransition = b.get? .execTransition) :
    loaded answers a = loaded answers b := by
  unfold loaded Transition.Reference.ofBundle Bundle.stringAt
  rw [h]

theorem due_of_lacking (hbundle : bundle.lacksConfiguration = true) :
    (onPlatform bundle platform).due settings answers = some (.ok ⟨bundle⟩) := by
  show (onPlatform bundle platform).dueOnceStarted settings answers bundle = _
  rw [Request.dueOnceStarted, if_pos hbundle]

theorem due_onPlatform_iff (hremap : settings.remap = true)
    (hbundle : bundle.lacksConfiguration = false) :
    (onPlatform bundle platform).due settings answers = some (.ok ⟨result⟩) ↔
      ∃ first custom moved, mapped answers bundle = some (.ok first) ∧
        loaded answers first.bundle = some (.ok custom) ∧
        first.bundle.withPlatforms [platform] = .ok moved ∧
        mapped answers moved = some (.ok ⟨result⟩) := by
  have hremaps : remaps (onPlatform bundle platform) settings = true := hremap
  have hplaced : ∀ first custom,
      (onPlatform bundle platform).dueOnceLoaded settings answers first custom =
          some (.ok ⟨result⟩) ↔
        ∃ moved, first.withPlatforms [platform] = .ok moved ∧
          mapped answers moved = some (.ok ⟨result⟩) := by
    intro first custom
    have hmoved : placed (onPlatform bundle platform) settings custom first =
        first.withPlatforms [platform] := rfl
    rw [Request.dueOnceLoaded, hmoved]
    cases first.withPlatforms [platform] with
    | error e => simp
    | ok moved =>
        dsimp only
        rw [Request.dueOncePlaced, if_pos hremaps]
        simp
  show (onPlatform bundle platform).dueOnceStarted settings answers bundle = _ ↔ _
  rw [Request.dueOnceStarted, if_neg (by simpa using hbundle), Due.andThen_eq_ok_iff]
  constructor
  · rintro ⟨first, hfirst, hrest⟩
    obtain ⟨custom, hcustom, hloaded⟩ := Due.andThen_eq_ok_iff.mp hrest
    obtain ⟨moved, hmoved, hresult⟩ := (hplaced first.bundle custom).mp hloaded
    exact ⟨first, custom, moved, hfirst, hcustom, hmoved, hresult⟩
  · rintro ⟨first, custom, moved, hfirst, hcustom, hmoved, hresult⟩
    refine ⟨first, hfirst, Due.andThen_eq_ok_iff.mpr ⟨custom, hcustom, ?_⟩⟩
    exact (hplaced first.bundle custom).mpr ⟨moved, hmoved, hresult⟩

/-- With the platform selected already, the request comes back to its options when they recur. -/
theorem due_eq_self_iff
    (hrules : ∀ location rules, answers (.rules location) = .ready rules → rules.KeepsSelection)
    (hremap : settings.remap = true) (hbundle : bundle.lacksConfiguration = false)
    (hplatforms : bundle.platforms = [platform]) :
    (onPlatform bundle platform).due settings answers = some (.ok ⟨bundle⟩) ↔
      Recurs answers platform bundle := by
  rw [due_onPlatform_iff hremap hbundle]
  constructor
  · rintro ⟨first, custom, moved, hfirst, hcustom, hmoved, hresult⟩
    obtain ⟨rules, hready, hmap⟩ := mapped_eq_ok_iff.mp hfirst
    have hselected : first.bundle.platforms = [platform] := by
      have hne : bundle.platforms ≠ [] := hplatforms ▸ List.cons_ne_nil _ _
      rw [(hrules _ rules hready).platforms_map hmap hne, hplatforms]
    rw [Bundle.withPlatforms_eq_self hselected (List.cons_ne_nil _ _)] at hmoved
    cases hmoved
    obtain ⟨rules', hready', hmap'⟩ := mapped_eq_ok_iff.mp hresult
    rw [Mapping.Rules.map_of_selected hplatforms] at hmap
    rw [Mapping.Rules.map_of_selected hselected] at hmap'
    exact ⟨rules, first.bundle, custom, rules', hready, hmap, hcustom, hready', hmap'⟩
  · rintro ⟨rules, between, custom, rules', hready, hmap, hcustom, hready', hmap'⟩
    have hselected : between.platforms = [platform] := by
      have hget := Bundle.get?_apply_of_unnamed hmap (hrules _ rules hready platform)
      rw [Bundle.platforms_congr hget, hplatforms]
    rw [← Mapping.Rules.map_of_selected hplatforms] at hmap
    rw [← Mapping.Rules.map_of_selected hselected] at hmap'
    exact ⟨⟨between⟩, custom, between, mapped_eq_ok_iff.mpr ⟨rules, hready, hmap⟩, hcustom,
      Bundle.withPlatforms_eq_self hselected (List.cons_ne_nil _ _),
      mapped_eq_ok_iff.mpr ⟨rules', hready', hmap'⟩⟩

/-- What is published on a platform has the flags of that platform from the rules it named. -/
private theorem exists_rules_of_due
    (hrules : ∀ location rules, answers (.rules location) = .ready rules → rules.KeepsSelection)
    (hremap : settings.remap = true) (hbundle : bundle.lacksConfiguration = false)
    (h : (onPlatform bundle platform).due settings answers = some (.ok ⟨result⟩)) :
    ∃ moved rules custom, answers (.rules (.ofBundle moved)) = .ready rules ∧
      moved.apply (rules.flagsOf platform) = .ok result ∧
      loaded answers moved = some (.ok custom) ∧
      result.platforms = [platform] ∧ result.lacksConfiguration = false := by
  obtain ⟨first, custom, moved, hfirst, hcustom, hmoved, hresult⟩ :=
    (due_onPlatform_iff hremap hbundle).mp h
  obtain ⟨rules, hready, hmap⟩ := mapped_eq_ok_iff.mp hresult
  have hplatforms : moved.platforms = [platform] := Bundle.platforms_withPlatforms hmoved
  refine ⟨moved, rules, custom, hready, ?_, ?_, ?_, ?_⟩
  · rw [← Mapping.Rules.map_of_selected hplatforms]
    exact hmap
  · rw [← hcustom]
    refine loaded_congr ?_
    rw [Bundle.get?_withPlatforms hmoved, if_neg (by decide)]
  · have hne : moved.platforms ≠ [] := hplatforms ▸ List.cons_ne_nil _ _
    rw [(hrules _ rules hready).platforms_map hmap hne, hplatforms]
  · rw [lacksConfiguration_of_mapped hresult,
      (Bundle.sameShape_withOption hmoved).lacksConfiguration,
      lacksConfiguration_of_mapped hfirst, hbundle]

/-- Flags that do not say where to look leave a bundle to the rules it was made with. -/
theorem recurs_of_unnamed {moved : Bundle} {rules : Mapping.Rules}
    {custom : Option Transition.Custom}
    (hready : answers (.rules (.ofBundle moved)) = .ready rules)
    (hmap : moved.apply (rules.flagsOf platform) = .ok result)
    (hcustom : loaded answers moved = some (.ok custom))
    (hflags : ∀ flag ∈ rules.flagsOf platform,
      flag.name ≠ .platformMappings ∧ flag.name ≠ .execTransition) :
    Recurs answers platform result := by
  have hself : result.apply (rules.flagsOf platform) = .ok result :=
    Bundle.apply_eq_self_iff.mpr (Bundle.obeys_of_apply hmap)
  have hlocation : Mapping.Location.ofBundle result = .ofBundle moved :=
    ofBundle_congr (Bundle.get?_apply_of_unnamed hmap fun flag hflag => (hflags flag hflag).1)
  have hloaded : loaded answers result = loaded answers moved :=
    loaded_congr (Bundle.get?_apply_of_unnamed hmap fun flag hflag => (hflags flag hflag).2)
  rw [← hlocation] at hready
  rw [← hloaded] at hcustom
  exact ⟨rules, result, custom, rules, hready, hself, hcustom, hready, hself⟩

/--
**What is published on a platform is published again exactly when it recurs.**  The
options without a configuration are published as they are, and all others have to
recur under the platform's flags.  They do when none of these is about the place of
the rules or about the custom transition.
-/
theorem publishes_again_iff {τ : Type} [Environment τ] {world : σ} {again : τ}
    (hworld : Environment.Full answers world) (hagain : Environment.Full answers again)
    (hread : ∀ location rules, answers (.rules location) = .ready rules →
      ∃ text, Mapping.Rules.read text = .ok rules)
    (hremap : settings.remap = true)
    (h : Publishes (onPlatform bundle platform) settings world result) :
    (Publishes (onPlatform result platform) settings again result ↔
      result.lacksConfiguration = true ∨ Recurs answers platform result) ∧
    ((∀ location rules, answers (.rules location) = .ready rules →
        ∀ flag ∈ rules.flagsOf platform,
          flag.name ≠ .platformMappings ∧ flag.name ≠ .execTransition) →
      Publishes (onPlatform result platform) settings again result) := by
  have hrules : ∀ location rules, answers (.rules location) = .ready rules →
      rules.KeepsSelection := by
    intro location rules hready
    obtain ⟨text, htext⟩ := hread location rules hready
    exact Mapping.Rules.keepsSelection_of_read htext
  rw [publishes_iff_due hagain]
  rw [publishes_iff_due hworld] at h
  by_cases hbundle : bundle.lacksConfiguration = true
  · rw [due_of_lacking hbundle] at h
    cases h
    have hdue : (onPlatform bundle platform).due settings answers = some (.ok ⟨bundle⟩) :=
      due_of_lacking hbundle
    exact ⟨⟨fun _ => Or.inl hbundle, fun _ => hdue⟩, fun _ => hdue⟩
  · obtain ⟨moved, rules, custom, hready, hmap, hcustom, hplatforms, hresult⟩ :=
      exists_rules_of_due hrules hremap (by simpa using hbundle) h
    rw [due_eq_self_iff hrules hremap hresult hplatforms]
    refine ⟨⟨Or.inr, ?_⟩, ?_⟩
    · rintro (hlacks | hrecurs)
      · rw [hresult] at hlacks
        cases hlacks
      · exact hrecurs
    · intro hflags
      exact recurs_of_unnamed hready hmap hcustom (hflags _ rules hready)

/-! ### Both sides of the condition -/

/-- A store with rules at the default place. -/
def settledStore : Store :=
  Store.empty.insert (.rules ⟨none⟩) selectingRules

/-- Where the flags of the platform set a mode, the result is published again. -/
theorem publishes_again_of_settled :
    Publishes (onPlatform (armBundle "dbg" []) armPlatform) .default
        settledStore (armBundle "opt" [armPlatform]) ∧
      Publishes (onPlatform (armBundle "opt" [armPlatform]) armPlatform) .default
        settledStore (armBundle "opt" [armPlatform]) := by
  have hfull : Environment.Full settledStore.answer settledStore := Store.full rfl rfl fun _ => rfl
  have hrules : ∀ location rules, settledStore.answer (.rules location) = .ready rules →
      rules = selectingRules := by
    intro location rules hready
    obtain ⟨place, hentry⟩ := Store.exists_entry_of_ready hready
    cases List.mem_singleton.mp hentry
    rfl
  have hfirst : Publishes (onPlatform (armBundle "dbg" []) armPlatform)
      .default settledStore (armBundle "opt" [armPlatform]) :=
    (publishes_iff_due hfull).mpr rfl
  refine ⟨hfirst, (publishes_again_iff hfull hfull ?_ rfl hfirst).2 ?_⟩
  · intro location rules hready
    rw [hrules location rules hready]
    exact ⟨selectingText, read_selectingText⟩
  · intro location rules hready
    rw [hrules location rules hready]
    decide

/-- Rules with one flag of one platform, as text. -/
def oneFlagText (option value : String) : String :=
  "platforms:\n //p:arm\n  --core." ++ option ++ "=" ++ value ++ "\n"

/-- The rules in such a text. -/
def oneFlagRules (option value : String) : Mapping.Rules :=
  ⟨SortedMap.empty.insert armPlatform [⟨⟨OptionName.core, option⟩, value⟩], []⟩

/-- A store where the rules at the default place say that those at another place are to be used. -/
def redirectingStore : Store :=
  (Store.empty.insert (.rules ⟨none⟩) (oneFlagRules "platform_mappings" "b")).insert
    (.rules ⟨some "b"⟩) (oneFlagRules "cpu" "x")

/-- Options that name the place of their rules. -/
def placedBundle (cpu place : String) (platforms : List Label) : Bundle :=
  ((Bundle.empty.set cpuOption (.string cpu)).set .platformMappings
    (.string place)).set .platforms (.labels platforms)

/-- Where the flags of the platform say where its rules are, another result can be published. -/
theorem publishes_other_again :
    ¬ ∀ (store : Store) (settings : Settings) (bundle result : Bundle) (platform : Label),
      Environment.Full store.answer store →
      (∀ location rules, store.answer (.rules location) = .ready rules →
        ∃ text, Mapping.Rules.read text = .ok rules) →
      settings.remap = true →
      Publishes (onPlatform bundle platform) settings store result →
        Publishes (onPlatform result platform) settings store result := by
  intro h
  have hfull : Environment.Full redirectingStore.answer redirectingStore :=
    Store.full rfl rfl fun _ => rfl
  have hread : ∀ location rules, redirectingStore.answer (.rules location) = .ready rules →
      ∃ text, Mapping.Rules.read text = .ok rules := by
    intro location rules hready
    obtain ⟨place, hentry⟩ := Store.exists_entry_of_ready hready
    obtain hother | hrest := List.mem_cons.mp hentry
    · cases hother
      exact ⟨oneFlagText "cpu" "x", rfl⟩
    · cases List.mem_singleton.mp hrest
      exact ⟨oneFlagText "platform_mappings" "b", rfl⟩
  have hagain := h redirectingStore .default (placedBundle "arm" "" [])
    (placedBundle "arm" "b" [armPlatform]) armPlatform hfull hread rfl
    ((publishes_iff_due hfull).mpr rfl)
  have hother : Publishes (onPlatform (placedBundle "arm" "b" [armPlatform]) armPlatform)
      .default redirectingStore (placedBundle "x" "b" [armPlatform]) :=
    (publishes_iff_due hfull).mpr rfl
  have hsame : placedBundle "arm" "b" [armPlatform] = placedBundle "x" "b" [armPlatform] := by
    simpa using hagain.2.symm.trans hother.2
  exact absurd hsame (by decide)

end BuildConfig.Baseline
