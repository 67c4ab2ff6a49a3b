/-
The laws of views.

A view is taken of a bundle, it is worked on, and it is merged back.  Taking and merging fit
together: the view that was taken changes nothing when it comes back, what is merged one
after the other may as well be merged at once, and a view of a merged bundle is the view of
the one merged with the view of the other.

The bundle shows what was merged into it, and is the same elsewhere, when the view is one of
that bundle (`ViewOf`).  It has to hold listed fragments only, since others would be merged
and not be seen.  And it must have kept every listed fragment of the bundle, since merging
takes nothing away: a fragment that was dropped from the view comes back from the bundle.
`restrict_merge_eq_iff` says that nothing else is needed.

All of this is about whole fragments, with or without options, so bundles are compared
fragment by fragment.
-/
import BuildConfig.Proofs.Bundle.Agreement

namespace BuildConfig.Bundle

variable {bundle view : Bundle} {fragments : List String}

/-! ### Taking a view -/

theorem fragments_restrict_restrict (bundle : Bundle) (fragments others : List String)
    (fragment : String) :
    ((bundle.restrict fragments).restrict others).fragments.get? fragment =
      if fragment ∈ fragments ∧ fragment ∈ others then bundle.fragments.get? fragment else none := by
  rw [fragments_restrict, fragments_restrict]
  by_cases hothers : fragment ∈ others
  · simp only [hothers, if_true, and_true]
  · simp only [hothers, if_false, and_false]

private theorem listed_of_restrict_eq (h : bundle.restrict fragments = view) (fragment : String)
    (hcontains : view.contains fragment = true) : fragment ∈ fragments := by
  rw [← h] at hcontains
  exact (contains_restrict_iff.mp hcontains).1

theorem restrict_eq_self_iff :
    view.restrict fragments = view ↔
      ∀ fragment, view.contains fragment = true → fragment ∈ fragments := by
  refine ⟨listed_of_restrict_eq, ?_⟩
  intro hlisted
  refine ext_fragments ?_
  intro fragment
  rw [fragments_restrict]
  by_cases hmem : fragment ∈ fragments
  · rw [if_pos hmem]
  · rw [if_neg hmem, fragments_of_unlisted hlisted hmem]

/-! ### Merging -/

/-- A view that comes back as it was taken changes nothing. -/
theorem merge_restrict_self (bundle : Bundle) (fragments : List String) :
    bundle.merge (bundle.restrict fragments) = bundle := by
  refine ext_fragments ?_
  intro fragment
  rw [fragments_merge, fragments_restrict]
  by_cases hmem : fragment ∈ fragments
  · rw [if_pos hmem, Option.or_self]
  · rw [if_neg hmem, Option.none_or]

/-- The later view is the stronger one, whether the two are merged before or one by one. -/
theorem merge_assoc (bundle view later : Bundle) :
    (bundle.merge view).merge later = bundle.merge (view.merge later) := by
  refine ext_fragments ?_
  intro fragment
  rw [fragments_merge, fragments_merge, fragments_merge, fragments_merge, Option.or_assoc]

/-- A view that has all fragments of the bundle replaces it. -/
theorem merge_eq_view_iff :
    bundle.merge view = view ↔
      ∀ fragment, bundle.contains fragment = true → view.contains fragment = true := by
  constructor
  · intro h fragment hcontains
    rw [← h, contains_merge, hcontains, Bool.or_true]
  · intro h
    refine ext_fragments ?_
    intro fragment
    rw [fragments_merge]
    cases hview : view.fragments.get? fragment with
    | some options => rfl
    | none =>
        have hunseen : view.contains fragment ≠ true :=
          Bool.eq_false_iff.mp (contains_eq_false_iff.mpr hview)
        have hlacks : bundle.contains fragment = false :=
          Bool.eq_false_iff.mpr fun hcontains => hunseen (h fragment hcontains)
        rw [contains_eq_false_iff.mp hlacks, Option.or_none]

theorem restrict_merge (bundle view : Bundle) (fragments : List String) :
    (bundle.merge view).restrict fragments =
      (bundle.restrict fragments).merge (view.restrict fragments) := by
  refine ext_fragments ?_
  intro fragment
  rw [fragments_restrict, fragments_merge, fragments_merge, fragments_restrict, fragments_restrict]
  by_cases hmem : fragment ∈ fragments
  · rw [if_pos hmem, if_pos hmem, if_pos hmem]
  · rw [if_neg hmem, if_neg hmem, if_neg hmem, Option.or_none]

/-! ### Putting a view in place -/

/-- What may be put in place of a bundle's view; the options in its fragments are free. -/
structure ViewOf (fragments : List String) (bundle view : Bundle) : Prop where
  /-- It holds listed fragments only, also such that the bundle lacks. -/
  listed : ∀ fragment, view.contains fragment = true → fragment ∈ fragments
  /-- It holds every listed fragment of the bundle. -/
  covers : ∀ fragment ∈ fragments, bundle.contains fragment = true → view.contains fragment = true

theorem viewOf_iff :
    ViewOf fragments bundle view ↔
      (∀ fragment ∈ view.fragments.keys, fragment ∈ fragments) ∧
        ∀ fragment ∈ fragments, bundle.contains fragment = true → view.contains fragment = true := by
  have hkeys : ∀ fragment, fragment ∈ view.fragments.keys ↔ view.contains fragment = true :=
    fun _ => SortedMap.mem_keys_iff
  simp only [hkeys]
  exact ⟨fun h => ⟨h.listed, h.covers⟩, fun h => ⟨h.1, h.2⟩⟩

instance : Decidable (ViewOf fragments bundle view) :=
  decidable_of_iff _ viewOf_iff.symm

/-- **What is put in place of a view is seen exactly when it is a view of the bundle.** -/
theorem restrict_merge_eq_iff :
    (bundle.merge view).restrict fragments = view ↔ ViewOf fragments bundle view := by
  constructor
  · intro h
    have hlisted := listed_of_restrict_eq h
    rw [restrict_merge, restrict_eq_self_iff.mpr hlisted] at h
    -- now `h` says that the view replaces what the bundle shows, so it covers that
    refine ⟨hlisted, ?_⟩
    intro fragment hmem hcontains
    exact merge_eq_view_iff.mp h fragment (contains_restrict_iff.mpr ⟨hmem, hcontains⟩)
  · intro h
    rw [restrict_merge, restrict_eq_self_iff.mpr h.listed, merge_eq_view_iff]
    intro fragment hcontains
    obtain ⟨hmem, hbundle⟩ := contains_restrict_iff.mp hcontains
    exact h.covers fragment hmem hbundle

/-- A fragment that was dropped from the view comes back. -/
example :
    let bundle := (empty.addFragment "cpp").addFragment "java"
    (bundle.merge (empty.addFragment "cpp")).restrict ["cpp", "java"] = bundle :=
  rfl

theorem ViewOf.fragments_merge_of_unlisted (h : ViewOf fragments bundle view) {fragment : String}
    (hunlisted : fragment ∉ fragments) :
    (bundle.merge view).fragments.get? fragment = bundle.fragments.get? fragment := by
  rw [fragments_merge, fragments_of_unlisted h.listed hunlisted, Option.none_or]

/--
**Views are lawful.**  A view that comes back unchanged changes nothing, two views that are
merged one after the other may be merged with each other first, views can be taken before or
after merging, and a view of a view has the fragments that are in both lists.  A bundle that
something was merged into shows it exactly when that is a view of the bundle, and then every
fragment that is not listed is as it was.
-/
theorem views_lawful (bundle view later : Bundle) (fragments others : List String) :
    bundle.merge (bundle.restrict fragments) = bundle ∧
    (bundle.merge view).merge later = bundle.merge (view.merge later) ∧
    (bundle.merge view).restrict fragments =
      (bundle.restrict fragments).merge (view.restrict fragments) ∧
    (∀ fragment, ((bundle.restrict fragments).restrict others).fragments.get? fragment =
      if fragment ∈ fragments ∧ fragment ∈ others then bundle.fragments.get? fragment else none) ∧
    ((bundle.merge view).restrict fragments = view ↔ ViewOf fragments bundle view) ∧
    (ViewOf fragments bundle view → ∀ fragment, fragment ∉ fragments →
      (bundle.merge view).fragments.get? fragment = bundle.fragments.get? fragment) := by
  refine ⟨?unchanged, ?together, ?before, ?both, restrict_merge_eq_iff, ?elsewhere⟩
  case unchanged => exact merge_restrict_self bundle fragments
  case together => exact merge_assoc bundle view later
  case before => exact restrict_merge bundle view fragments
  case both => exact fragments_restrict_restrict bundle fragments others
  case elsewhere =>
    intro h fragment hunlisted
    exact h.fragments_merge_of_unlisted hunlisted

/-- A bundle with three fragments, one of them without options. -/
def hostBundle : Bundle :=
  ((empty.set .isExec (.bool false)).set .platforms (.labels [])).addFragment "cpp"

/-- Something to merge into it, with a fragment that it lacks. -/
def guestView : Bundle :=
  ((empty.set ⟨"cpp", "copt"⟩ (.string "-O2")).addFragment "platform").addFragment "java"

/-- A list that names one fragment twice, and one that is in neither. -/
def guestFragments : List String :=
  ["platform", "java", "absent", "cpp", "platform"]

/-- What was merged is seen, and the fragment that the list leaves out is as it was. -/
theorem views_lawful_of_guestView :
    ViewOf guestFragments hostBundle guestView ∧ "core" ∉ guestFragments ∧
      (hostBundle.merge guestView).restrict guestFragments = guestView ∧
      (hostBundle.merge guestView).fragments.get? "core" = hostBundle.fragments.get? "core" := by
  have hview : ViewOf guestFragments hostBundle guestView := by decide
  have hunlisted : "core" ∉ guestFragments := by decide
  obtain ⟨-, -, -, -, hshown, helsewhere⟩ :=
    views_lawful hostBundle guestView empty guestFragments []
  exact ⟨hview, hunlisted, hshown.mpr hview, helsewhere hview "core" hunlisted⟩

end BuildConfig.Bundle
