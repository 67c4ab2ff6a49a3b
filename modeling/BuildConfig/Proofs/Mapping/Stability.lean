/-
When mapping changes nothing in its own result.

A bundle that has a platform selected gets the flags of that platform, and keeps the
platform.  So the result gets the same flags again, and they change nothing in what
they made.

A bundle without a platform may get one from a selector, and then the result is a
bundle with a platform: mapping it again applies that platform's own flags, which the
first time were not looked at.  Nothing ties the flags of a platform to the selectors
of the same rules, so this second mapping can change something, or even fail.
`map_again_iff` says exactly when it does not: the bundle that was mapped first has to
obey the flags of the selected platform already.
-/
import BuildConfig.Proofs.Mapping.Rules

namespace BuildConfig.Mapping.Rules

open BuildConfig.Bundle (SameShape)

theorem map_map_of_selected {rules : Rules} (hrules : rules.KeepsSelection)
    {bundle result : Bundle} (hne : bundle.platforms ≠ []) (h : rules.map bundle = .ok result) :
    rules.map result = .ok result := by
  obtain ⟨platform, others, hplatforms⟩ := List.exists_cons_of_ne_nil hne
  have hresult : result.platforms = platform :: others :=
    (hrules.platforms_map h hne).trans hplatforms
  rw [map_of_selected hplatforms] at h
  rw [map_of_selected hresult]
  exact Bundle.apply_eq_self_iff.mpr (Bundle.obeys_of_apply h)

/-- With its platform from a selector, a result is stable when the bundle obeys its flags. -/
private theorem map_withPlatforms_iff {rules : Rules} (hrules : rules.KeepsSelection)
    {bundle result : Bundle} {platform : Label}
    (h : bundle.withPlatforms [platform] = .ok result) :
    rules.map result = .ok result ↔ bundle.Obeys (rules.flagsOf platform) := by
  have hshape : SameShape result bundle := Bundle.sameShape_withOption h
  have hget : ∀ flag ∈ rules.flagsOf platform, result.get? flag.name = bundle.get? flag.name := by
    intro flag hflag
    rw [Bundle.get?_withPlatforms h, if_neg (hrules platform flag hflag)]
  rw [map_of_selected (Bundle.platforms_withPlatforms h), Bundle.apply_eq_self_iff]
  constructor
  · intro hobeys
    exact hobeys.congr hshape hget
  · intro hobeys
    exact hobeys.congr hshape.symm fun flag hflag => (hget flag hflag).symm

/--
**Mapping changes nothing in its own result, unless a selector picked a platform whose
flags the bundle did not obey.**  In particular nothing changes in the result of a
bundle that had a platform selected, and in that of one that no selector matched.
-/
theorem map_again_iff {text : String} {rules : Rules} (hread : Rules.read text = .ok rules)
    {bundle result : Bundle} (h : rules.map bundle = .ok result) :
    rules.map result = .ok result ↔
      (bundle.platforms = [] → ∀ platform, select bundle rules.selectors = .ok (some platform) →
        bundle.Obeys (rules.flagsOf platform)) := by
  have hrules : rules.KeepsSelection := keepsSelection_of_read hread
  by_cases hplatforms : bundle.platforms = []
  · rcases map_of_unselected hplatforms h with ⟨platform, hselect, hwith⟩ | ⟨hselect, rfl⟩
    · rw [map_withPlatforms_iff hrules hwith]
      constructor
      · intro hobeys _ other hother
        rw [hselect] at hother
        cases hother
        exact hobeys
      · intro hall
        exact hall hplatforms platform hselect
    · refine iff_of_true h ?_
      intro _ platform hother
      rw [hselect] at hother
      cases hother
  · exact iff_of_true (map_map_of_selected hrules hplatforms h)
      fun hnone => absurd hnone hplatforms

/-! ### Both sides of the condition

The two bundles differ in their compilation mode only.  Neither has a platform, and the
same selector picks one for both; the flag of that platform sets the mode.
-/

/-- The platform that is selected. -/
def armPlatform : Label :=
  ⟨"//p:arm", by decide⟩

/-- The option that the selector looks at. -/
def cpuOption : OptionName :=
  ⟨OptionName.core, "cpu"⟩

/-- Rules whose selector picks a platform that has a flag of its own. -/
def selectingRules : Rules :=
  ⟨SortedMap.empty.insert armPlatform [⟨.compilationMode, "opt"⟩],
    [⟨[⟨cpuOption, "arm"⟩], armPlatform⟩]⟩

/-- The rules as text. -/
def selectingText : String :=
  "platforms:\n //p:arm\n  --core.compilation_mode=opt\nflags:\n  --core.cpu=arm\n //p:arm\n"

theorem read_selectingText : Rules.read selectingText = .ok selectingRules := rfl

/-- A bundle with a compilation mode that the selector matches. -/
def armBundle (mode : String) (platforms : List Label) : Bundle :=
  ((Bundle.empty.set cpuOption (.string "arm")).set .compilationMode (.string mode)).set .platforms
    (.labels platforms)

/-- In the mode that the flag sets, the selected platform changes nothing more. -/
theorem map_again_of_obedient :
    selectingRules.map (armBundle "opt" []) = .ok (armBundle "opt" [armPlatform]) ∧
      selectingRules.map (armBundle "opt" [armPlatform]) = .ok (armBundle "opt" [armPlatform]) := by
  have hfirst : selectingRules.map (armBundle "opt" []) = .ok (armBundle "opt" [armPlatform]) := rfl
  refine ⟨hfirst, (map_again_iff read_selectingText hfirst).mpr ?_⟩
  intro _ platform hselect
  cases hselect
  exact Bundle.apply_eq_self_iff.mp rfl

/-- In another mode the second mapping sets it, which the first one did not. -/
theorem map_again_changes :
    ¬ ∀ (text : String) (rules : Rules) (bundle result : Bundle),
      Rules.read text = .ok rules → rules.map bundle = .ok result →
        rules.map result = .ok result := by
  intro h
  have hagain : selectingRules.map (armBundle "dbg" [armPlatform]) =
      .ok (armBundle "dbg" [armPlatform]) :=
    h selectingText selectingRules (armBundle "dbg" []) _ read_selectingText rfl
  have hopt : selectingRules.map (armBundle "dbg" [armPlatform]) =
      .ok (armBundle "opt" [armPlatform]) := rfl
  rw [hopt] at hagain
  exact absurd (Except.ok.inj hagain) (by decide)

end BuildConfig.Mapping.Rules
