/-
Bundles that agree on some of their fragments.

Two bundles agree on a fragment when both have it with the same options, or neither has
it.  Agreement on fragments is what a view of these fragments can tell: the views of two
bundles are equal exactly when the bundles agree (`restrict_eq_restrict_iff`).

Views and merged bundles are looked at fragment by fragment here, not option by option,
because a fragment without options cannot be seen in any option.
-/
import BuildConfig.Proofs.Bundle.Frame

namespace BuildConfig.Bundle

theorem ext_fragments {a b : Bundle} (h : ∀ fragment, a.fragments.get? fragment =
    b.fragments.get? fragment) : a = b := by
  cases a
  cases b
  exact congrArg Bundle.mk (SortedMap.ext_get? h)

theorem fragments_restrict (bundle : Bundle) (fragments : List String) (fragment : String) :
    (bundle.restrict fragments).fragments.get? fragment =
      if fragment ∈ fragments then bundle.fragments.get? fragment else none := by
  show (bundle.fragments.filterKeys fragments.contains).get? fragment = _
  rw [SortedMap.get?_filterKeys]
  simp only [List.contains_eq_mem, decide_eq_true_eq]

theorem fragments_merge (bundle view : Bundle) (fragment : String) :
    (bundle.merge view).fragments.get? fragment =
      (view.fragments.get? fragment).or (bundle.fragments.get? fragment) :=
  SortedMap.get?_union bundle.fragments view.fragments fragment

theorem contains_eq_false_iff {bundle : Bundle} {fragment : String} :
    bundle.contains fragment = false ↔ bundle.fragments.get? fragment = none := by
  unfold contains SortedMap.contains
  cases bundle.fragments.get? fragment <;> simp

/-- A bundle whose fragments are all listed has none outside the list. -/
theorem fragments_of_unlisted {view : Bundle} {fragments : List String} {fragment : String}
    (hlisted : ∀ name, view.contains name = true → name ∈ fragments)
    (hunlisted : fragment ∉ fragments) : view.fragments.get? fragment = none := by
  refine contains_eq_false_iff.mp (Bool.eq_false_iff.mpr ?_)
  intro hcontains
  exact hunlisted (hlisted fragment hcontains)

theorem get?_of_lacking {bundle : Bundle} {name : OptionName}
    (h : bundle.contains name.fragment = false) : bundle.get? name = none := by
  unfold get?
  rw [contains_eq_false_iff.mp h]

/-! ### Agreement -/

/-- Each of the fragments is in both bundles with the same options, or in neither. -/
def AgreeOn (fragments : List String) (a b : Bundle) : Prop :=
  ∀ fragment ∈ fragments, a.fragments.get? fragment = b.fragments.get? fragment

/-- **A view tells apart the bundles that do not agree on its fragments, and no others.** -/
theorem restrict_eq_restrict_iff {fragments : List String} {a b : Bundle} :
    a.restrict fragments = b.restrict fragments ↔ AgreeOn fragments a b := by
  constructor
  · intro h fragment hmem
    have hview : (a.restrict fragments).fragments.get? fragment =
        (b.restrict fragments).fragments.get? fragment := by rw [h]
    rwa [fragments_restrict, fragments_restrict, if_pos hmem, if_pos hmem] at hview
  · intro h
    refine ext_fragments ?_
    intro fragment
    rw [fragments_restrict, fragments_restrict]
    by_cases hmem : fragment ∈ fragments
    · rw [if_pos hmem, if_pos hmem, h fragment hmem]
    · rw [if_neg hmem, if_neg hmem]

/-- Bundles that agree go on agreeing when the same view is merged into both. -/
theorem AgreeOn.merge {fragments : List String} {a b : Bundle} (h : AgreeOn fragments a b)
    (view : Bundle) : AgreeOn fragments (a.merge view) (b.merge view) := by
  intro fragment hmem
  rw [fragments_merge, fragments_merge, h fragment hmem]

end BuildConfig.Bundle
