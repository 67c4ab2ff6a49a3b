/-
The shape of a bundle, and what the operations keep of it.

A bundle is built once and never changes its shape afterwards: the fragments stay,
and in each of them the options stay and go on holding values of their kind.
`SameShape` is that relation.  `withOption` keeps the shape of a bundle, and it
succeeds exactly when the value is of the kind that the shape asks for.

Two bundles of one shape with the same values are the same bundle.  That is how
bundles are proved equal throughout: the shape is carried along, and the values are
compared option by option.  The fragments have to be part of the shape, because a
fragment without options cannot be seen in any value.
-/
import BuildConfig.Bundle.Flags
import BuildConfig.Bundle.View
import BuildConfig.Proofs.SortedMap

namespace BuildConfig

namespace Bundle

/-- The kind of an option's values, if the bundle has the option. -/
def kindAt (bundle : Bundle) (name : OptionName) : Option Kind :=
  (bundle.get? name).map Value.kind

/-- Two bundles with the same fragments, and the same options of the same kinds in them. -/
structure SameShape (a b : Bundle) : Prop where
  contains : ∀ fragment, a.contains fragment = b.contains fragment
  kindAt : ∀ name, a.kindAt name = b.kindAt name

namespace SameShape

theorem refl (a : Bundle) : SameShape a a :=
  ⟨fun _ => rfl, fun _ => rfl⟩

theorem symm {a b : Bundle} (h : SameShape a b) : SameShape b a :=
  ⟨fun fragment => (h.contains fragment).symm, fun name => (h.kindAt name).symm⟩

theorem trans {a b c : Bundle} (h : SameShape a b) (k : SameShape b c) : SameShape a c :=
  ⟨fun fragment => (h.contains fragment).trans (k.contains fragment),
    fun name => (h.kindAt name).trans (k.kindAt name)⟩

/-- Whether a bundle lacks a configuration is a question about its fragments. -/
theorem lacksConfiguration {a b : Bundle} (h : SameShape a b) :
    a.lacksConfiguration = b.lacksConfiguration := by
  unfold Bundle.lacksConfiguration
  rw [h.contains, h.contains]

/-- **Bundles of one shape are told apart by their values.** -/
theorem ext {a b : Bundle} (h : SameShape a b) (hget : ∀ name, a.get? name = b.get? name) :
    a = b := by
  have hfragments : a.fragments = b.fragments := by
    refine SortedMap.ext_get? ?_
    intro fragment
    have hsome : (a.fragments.get? fragment).isSome = (b.fragments.get? fragment).isSome :=
      h.contains fragment
    cases ha : a.fragments.get? fragment with
    | none =>
        rw [ha] at hsome
        exact (Option.not_isSome_iff_eq_none.mp (by simp [← hsome])).symm
    | some options =>
        rw [ha] at hsome
        obtain ⟨others, hb⟩ := Option.isSome_iff_exists.mp (by simpa using hsome.symm)
        rw [hb]
        congr 1
        refine SortedMap.ext_get? ?_
        intro option
        have := hget ⟨fragment, option⟩
        unfold Bundle.get? at this
        simpa only [ha, hb] using this
  cases a
  cases b
  exact congrArg Bundle.mk hfragments

end SameShape

/-! ### Replacing a value -/

private theorem get?_of_fragment {bundle : Bundle} {name : OptionName} {options : Fragment}
    (h : bundle.fragments.get? name.fragment = some options) :
    bundle.get? name = options.get? name.option := by
  unfold get?
  rw [h]

/-- All that a replacement can do when it succeeds. -/
theorem withOption_cases {bundle result : Bundle} {name : OptionName} {value : Value}
    (h : bundle.withOption name value = .ok result) :
    ∃ options old, bundle.fragments.get? name.fragment = some options ∧
      bundle.get? name = some old ∧ old.kind = value.kind ∧
      result = ⟨bundle.fragments.insert name.fragment (options.insert name.option value)⟩ := by
  unfold withOption at h
  split at h
  · cases h
  · rename_i options hoptions
    split at h
    · cases h
    · rename_i old hold
      split at h
      · rename_i hkind
        cases h
        exact ⟨options, old, hoptions, (get?_of_fragment hoptions).trans hold, hkind, rfl⟩
      · cases h

theorem exists_withOption_iff {bundle : Bundle} {name : OptionName} {value : Value} :
    (∃ result, bundle.withOption name value = .ok result) ↔
      bundle.kindAt name = some value.kind := by
  constructor
  · rintro ⟨result, h⟩
    obtain ⟨-, old, -, hold, hkind, -⟩ := withOption_cases h
    rw [kindAt, hold, Option.map_some, hkind]
  · intro h
    obtain ⟨old, hold, hkind⟩ := Option.map_eq_some_iff.mp h
    cases hoptions : bundle.fragments.get? name.fragment with
    | none => simp [get?, hoptions] at hold
    | some options =>
        rw [get?_of_fragment hoptions] at hold
        exact ⟨_, by simp only [withOption, hoptions, hold, hkind, if_true]; rfl⟩

theorem contains_withOption {bundle result : Bundle} {name : OptionName} {value : Value}
    (h : bundle.withOption name value = .ok result) (fragment : String) :
    result.contains fragment = bundle.contains fragment := by
  obtain ⟨options, -, hoptions, -, -, rfl⟩ := withOption_cases h
  unfold contains SortedMap.contains
  rw [SortedMap.get?_insert]
  by_cases hf : fragment = name.fragment
  · rw [if_pos hf, hf, hoptions]
    rfl
  · rw [if_neg hf]

theorem sameShape_withOption {bundle result : Bundle} {name : OptionName} {value : Value}
    (h : bundle.withOption name value = .ok result) : SameShape result bundle := by
  refine ⟨contains_withOption h, ?_⟩
  intro other
  by_cases hother : other = name
  · subst hother
    rw [exists_withOption_iff.mp ⟨result, h⟩, kindAt, get?_withOption h, if_pos rfl]
    rfl
  · rw [kindAt, get?_withOption h, if_neg hother]
    rfl

private theorem withOption_eq_self {bundle : Bundle} {name : OptionName} {value : Value}
    (h : bundle.get? name = some value) : bundle.withOption name value = .ok bundle := by
  obtain ⟨result, hresult⟩ := exists_withOption_iff.mpr
    (show bundle.kindAt name = some value.kind by rw [kindAt, h]; rfl)
  rw [hresult]
  congr 1
  refine (sameShape_withOption hresult).ext ?_
  intro other
  rw [get?_withOption hresult]
  by_cases hother : other = name
  · rw [if_pos hother, hother, h]
  · rw [if_neg hother]

theorem contains_merge (bundle view : Bundle) (fragment : String) :
    (bundle.merge view).contains fragment =
      (view.contains fragment || bundle.contains fragment) := by
  show ((bundle.fragments.union view.fragments).get? fragment).isSome = _
  rw [SortedMap.get?_union, Option.isSome_or]
  rfl

/-! ### The selected platforms -/

theorem platforms_congr {a b : Bundle} (h : a.get? .platforms = b.get? .platforms) :
    a.platforms = b.platforms := by
  unfold platforms
  rw [h]

theorem get?_withPlatforms {bundle result : Bundle} {platforms : List Label}
    (h : bundle.withPlatforms platforms = .ok result) (other : OptionName) :
    result.get? other = if other = .platforms then some (.labels platforms)
      else bundle.get? other :=
  get?_withOption h other

theorem platforms_withPlatforms {bundle result : Bundle} {platforms : List Label}
    (h : bundle.withPlatforms platforms = .ok result) : result.platforms = platforms := by
  rw [Bundle.platforms, get?_withPlatforms h, if_pos rfl]

/-- Giving a bundle the platforms that it has, if it has any, changes nothing. -/
theorem withPlatforms_eq_self {bundle : Bundle} {platforms : List Label}
    (h : bundle.platforms = platforms) (hne : platforms ≠ []) :
    bundle.withPlatforms platforms = .ok bundle := by
  refine withOption_eq_self ?_
  unfold Bundle.platforms at h
  split at h
  · rename_i ls hls
    rw [hls, h]
  · exact absurd h.symm hne

end Bundle

end BuildConfig
