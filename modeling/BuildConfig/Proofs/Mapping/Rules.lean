/-
What mapping does to a bundle, and what is true of rules that were read from a text.

Mapping has two modes.  A bundle that has a platform selected gets the flags of that
platform; a bundle without one gets the platform of the first selector that it
satisfies.  Either way the shape stays.

The grammar of rule files has no flag below a platform that changes the selected
platforms.  `KeepsSelection` is what that gives: mapping a bundle that has platforms
selected leaves them selected.
-/
import BuildConfig.Proofs.Bundle.Frame
import BuildConfig.Proofs.Mapping.Reading

namespace BuildConfig.Mapping

open BuildConfig.Bundle (Edits SameShape)

namespace Rules

/-- The flags of a platform; none when the rules do not mention it. -/
def flagsOf (rules : Rules) (platform : Label) : List Flag :=
  (rules.platforms.get? platform).getD []

/-- No platform's flags change the selected platforms. -/
def KeepsSelection (rules : Rules) : Prop :=
  ∀ platform, ∀ flag ∈ rules.flagsOf platform, flag.name ≠ .platforms

/-! ### The two modes of mapping -/

theorem map_of_selected {rules : Rules} {bundle : Bundle} {platform : Label} {others : List Label}
    (h : bundle.platforms = platform :: others) :
    rules.map bundle = bundle.apply (rules.flagsOf platform) := by
  unfold map flagsOf
  rw [h]
  cases hflags : rules.platforms.get? platform with
  | none => simp only [hflags, Option.getD_none, Bundle.apply]
  | some flags => simp only [hflags, Option.getD_some]

/-- Without a platform either a selector adds its own, or nothing changes. -/
theorem map_of_unselected {rules : Rules} {bundle result : Bundle} (h : bundle.platforms = [])
    (hmap : rules.map bundle = .ok result) :
    (∃ platform, select bundle rules.selectors = .ok (some platform) ∧
        bundle.withPlatforms [platform] = .ok result) ∨
      (select bundle rules.selectors = .ok none ∧ result = bundle) := by
  simp only [map, h] at hmap
  split at hmap
  · cases hmap
  · rename_i platform hselect
    exact Or.inl ⟨platform, hselect, hmap⟩
  · rename_i hselect
    cases hmap
    exact Or.inr ⟨hselect, rfl⟩

/-- Some platform has a flag for the option. -/
def Names (rules : Rules) (name : OptionName) : Prop :=
  ∃ platform, ∃ flag ∈ rules.flagsOf platform, flag.name = name

/-- Mapping edits the selected platforms and what some platform has a flag for. -/
theorem edits_map {rules : Rules} {bundle result : Bundle} (h : rules.map bundle = .ok result) :
    Edits (fun name => name = .platforms ∨ rules.Names name) bundle result := by
  cases hplatforms : bundle.platforms with
  | cons platform others =>
      rw [map_of_selected hplatforms] at h
      exact (Bundle.edits_apply h).mono fun name hflag => Or.inr ⟨platform, hflag⟩
  | nil =>
      rcases map_of_unselected hplatforms h with ⟨platform, -, hwith⟩ | ⟨-, hsame⟩
      · exact (Bundle.edits_withOption hwith).mono fun name hname => Or.inl hname
      · rw [hsame]
        exact .refl _ bundle

theorem sameShape_map {rules : Rules} {bundle result : Bundle} (h : rules.map bundle = .ok result) :
    SameShape result bundle :=
  (edits_map h).shape

theorem KeepsSelection.platforms_map {rules : Rules} (hrules : rules.KeepsSelection)
    {bundle result : Bundle} (h : rules.map bundle = .ok result) (hne : bundle.platforms ≠ []) :
    result.platforms = bundle.platforms := by
  obtain ⟨platform, others, hplatforms⟩ := List.exists_cons_of_ne_nil hne
  rw [map_of_selected hplatforms] at h
  exact Bundle.platforms_congr (Bundle.get?_apply_of_unnamed h (hrules platform))

/-! ### Rules that were read -/

theorem keepsSelection_rulesOf {sections : List Section} (h : Regular sections) :
    (rulesOf sections).KeepsSelection := by
  intro platform flag hflag
  unfold flagsOf at hflag
  cases hget : (rulesOf sections).platforms.get? platform with
  | none =>
      rw [hget, Option.getD_none] at hflag
      cases hflag
  | some flags =>
      rw [hget, Option.getD_some] at hflag
      have hgroup : (platform, flags) ∈ mapped sections :=
        (SortedMap.get?_ofList_eq_some_iff h.nodup).mp hget
      exact h.name_ne (platform, flags) hgroup flag hflag

/-- **Rules that were read never change a selected platform.** -/
theorem keepsSelection_of_read {text : String} {rules : Rules}
    (h : Rules.read text = .ok rules) : rules.KeepsSelection := by
  obtain ⟨sections, -, hregular, rfl⟩ := read_eq_ok_iff_spells.mp h
  exact keepsSelection_rulesOf hregular

end Rules

end BuildConfig.Mapping
