/-
What operations may change in a bundle.

`Edits` bounds the effect of an operation from both sides: the result has the shape of
the bundle, and only certain options can have other values in it.  The relation is
transitive, so the bounds of operations that follow one another are put together by
adding up the options.

A view is a bundle of its own, and what is done to it is done to the whole bundle once
the view is merged back.  `Edits.merge` is that step.
-/
import BuildConfig.Proofs.Bundle.Flags

namespace BuildConfig

namespace Bundle

/-! ### Views -/

theorem contains_restrict (bundle : Bundle) (fragments : List String) (fragment : String) :
    (bundle.restrict fragments).contains fragment =
      (fragments.contains fragment && bundle.contains fragment) := by
  show ((bundle.fragments.filterKeys fragments.contains).get? fragment).isSome = _
  rw [SortedMap.get?_filterKeys]
  cases fragments.contains fragment <;> rfl

theorem contains_restrict_iff {bundle : Bundle} {fragments : List String} {fragment : String} :
    (bundle.restrict fragments).contains fragment = true ↔
      fragment ∈ fragments ∧ bundle.contains fragment = true := by
  rw [contains_restrict, Bool.and_eq_true, List.contains_iff_mem]

theorem get?_restrict (bundle : Bundle) (fragments : List String) (name : OptionName) :
    (bundle.restrict fragments).get? name =
      if fragments.contains name.fragment then bundle.get? name else none := by
  unfold get? restrict
  rw [SortedMap.get?_filterKeys]
  cases fragments.contains name.fragment <;> rfl

theorem get?_merge (bundle view : Bundle) (name : OptionName) :
    (bundle.merge view).get? name =
      if view.contains name.fragment then view.get? name else bundle.get? name := by
  unfold get? merge contains SortedMap.contains
  rw [SortedMap.get?_union]
  cases view.fragments.get? name.fragment <;> rfl

theorem contains_of_get? {bundle : Bundle} {name : OptionName} {value : Value}
    (h : bundle.get? name = some value) : bundle.contains name.fragment = true := by
  unfold get? at h
  unfold contains SortedMap.contains
  split at h
  · cases h
  · rename_i options hoptions
    rw [hoptions]
    rfl

/-! ### Bounds on what changes -/

/-- The result has the shape of the bundle and differs from it in these options at most. -/
structure Edits (may : OptionName → Prop) (bundle result : Bundle) : Prop where
  shape : SameShape result bundle
  frame : ∀ name, result.get? name ≠ bundle.get? name → may name

namespace Edits

variable {may more : OptionName → Prop} {bundle next result : Bundle}

theorem refl (may : OptionName → Prop) (bundle : Bundle) : Edits may bundle bundle :=
  ⟨.refl bundle, fun _ hne => absurd rfl hne⟩

theorem mono (h : Edits may bundle result) (hmore : ∀ name, may name → more name) :
    Edits more bundle result :=
  ⟨h.shape, fun name hne => hmore name (h.frame name hne)⟩

theorem get?_eq (h : Edits may bundle result) {name : OptionName} (hnot : ¬ may name) :
    result.get? name = bundle.get? name :=
  Decidable.byContradiction fun hne => hnot (h.frame name hne)

theorem trans (h : Edits may bundle next) (k : Edits may next result) :
    Edits may bundle result := by
  refine ⟨k.shape.trans h.shape, ?_⟩
  intro name hne
  by_cases hnext : next.get? name = bundle.get? name
  · exact k.frame name (by rwa [hnext])
  · exact h.frame name hnext

/-- **What is done to a view is done to the bundle that it is merged into, and nothing else is.** -/
theorem merge {fragments : List String} {patched : Bundle}
    (h : Edits may (bundle.restrict fragments) patched) :
    Edits may bundle (bundle.merge patched) := by
  have hcontains : ∀ fragment, patched.contains fragment = true →
      fragments.contains fragment = true ∧ bundle.contains fragment = true := by
    intro fragment hpatched
    rwa [h.shape.contains, contains_restrict, Bool.and_eq_true] at hpatched
  have hget : ∀ name, (bundle.merge patched).get? name = bundle.get? name ∨
      (bundle.merge patched).get? name = patched.get? name ∧
        (bundle.restrict fragments).get? name = bundle.get? name := by
    intro name
    rw [get?_merge]
    by_cases hpatched : patched.contains name.fragment = true
    · rw [if_pos hpatched, get?_restrict, if_pos (hcontains _ hpatched).1]
      exact Or.inr ⟨rfl, rfl⟩
    · rw [if_neg hpatched]
      exact Or.inl rfl
  refine ⟨⟨?_, ?_⟩, ?_⟩
  · intro fragment
    rw [contains_merge]
    cases hpatched : patched.contains fragment with
    | true => rw [(hcontains fragment hpatched).2, Bool.or_true]
    | false => rw [Bool.false_or]
  · intro name
    obtain hsame | ⟨hmerged, hview⟩ := hget name
    · rw [kindAt, hsame, kindAt]
    · rw [kindAt, hmerged, ← kindAt, h.shape.kindAt, kindAt, hview, kindAt]
  · intro name hne
    obtain hsame | ⟨hmerged, hview⟩ := hget name
    · exact absurd hsame hne
    · rw [hmerged, ← hview] at hne
      exact h.frame name hne

end Edits

theorem edits_withOption {bundle result : Bundle} {name : OptionName} {value : Value}
    (h : bundle.withOption name value = .ok result) : Edits (· = name) bundle result := by
  refine ⟨sameShape_withOption h, ?_⟩
  intro other hne
  by_cases hother : other = name
  · exact hother
  · rw [get?_withOption h, if_neg hother] at hne
    exact absurd rfl hne

theorem edits_apply {bundle result : Bundle} {flags : List Flag}
    (h : bundle.apply flags = .ok result) :
    Edits (fun name => ∃ flag ∈ flags, flag.name = name) bundle result := by
  refine ⟨sameShape_apply h, ?_⟩
  intro name hne
  by_cases hnamed : ∃ flag ∈ flags, flag.name = name
  · exact hnamed
  · refine absurd (get?_apply_of_unnamed h ?_) hne
    intro flag hflag hname
    exact hnamed ⟨flag, hflag, hname⟩

end Bundle

end BuildConfig
