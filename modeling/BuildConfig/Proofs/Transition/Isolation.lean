/-
Patches are held to the fragments that they declare.

Nothing is known about the function of a patch: it may drop, add and replace fragments of
its view as it likes.  What it declares is enforced from outside, on both sides.  Before
it runs, the view hides all other fragments, so bundles that agree on the declared ones
cannot be told apart by it.  After it has run, an answer with any other fragment is
refused, so there is nothing else that merging could replace.

An answer can overstep in several fragments at once, and the error names the least of
them.  The names are tried in ascending order, which is why the first one that is found
is the least.
-/
import BuildConfig.Proofs.Bundle.Agreement
import BuildConfig.Transition.Patch

namespace BuildConfig

namespace Transition.Patch

open BuildConfig.Bundle (AgreeOn)

/-- The fragment is the least of those that the answer has and the patch did not declare. -/
structure Oversteps (patch : Patch) (answer : Bundle) (fragment : String) : Prop where
  contains : answer.contains fragment = true
  undeclared : fragment ∉ patch.fragments
  least : ∀ other, answer.contains other = true → other ∉ patch.fragments → fragment ≤ other

variable {patch : Patch} {bundle answer result : Bundle}

theorem Oversteps.unique {a b : String} (ha : patch.Oversteps answer a)
    (hb : patch.Oversteps answer b) : a = b :=
  String.le_antisymm (ha.least b hb.contains hb.undeclared) (hb.least a ha.contains ha.undeclared)

private theorem find?_undeclared_eq_some_iff {fragment : String} :
    (answer.fragments.keys.find? fun name => !patch.fragments.contains name) = some fragment ↔
      patch.Oversteps answer fragment := by
  have hfound : ∀ {found : String},
      (answer.fragments.keys.find? fun name => !patch.fragments.contains name) = some found →
        patch.Oversteps answer found := by
    intro found h
    refine ⟨SortedMap.mem_keys_iff.mp (List.mem_of_find?_eq_some h), ?_, ?_⟩
    · simpa using List.find?_some h
    · intro other hother hundeclared
      refine String.not_lt.mp (SortedMap.least_of_find?_keys h ?_ ?_)
      · exact SortedMap.mem_keys_iff.mpr hother
      · simpa using hundeclared
  constructor
  · exact hfound
  · intro hoversteps
    cases hfind : answer.fragments.keys.find? fun name => !patch.fragments.contains name with
    | some other => rw [(hfound hfind).unique hoversteps]
    | none =>
        rw [List.find?_eq_none] at hfind
        have hdeclared := hfind fragment (SortedMap.mem_keys_iff.mpr hoversteps.contains)
        exact absurd (by simpa using hdeclared) hoversteps.undeclared

private theorem find?_undeclared_eq_none_iff :
    (answer.fragments.keys.find? fun name => !patch.fragments.contains name) = none ↔
      ∀ fragment, answer.contains fragment = true → fragment ∈ patch.fragments := by
  simp [SortedMap.mem_keys_iff, Bundle.contains]

/-! ### What a patch can do to a bundle -/

/-- A patch fails with an error of its own, or for a fragment that it did not declare. -/
theorem applyWithin_eq_error_iff {e : OptionsError} :
    patch.applyWithin bundle = .error e ↔
      patch.run (bundle.restrict patch.fragments) = .error e ∨
        ∃ answer fragment, patch.run (bundle.restrict patch.fragments) = .ok answer ∧
          patch.Oversteps answer fragment ∧ e = .undeclaredFragment fragment := by
  unfold applyWithin
  cases hrun : patch.run (bundle.restrict patch.fragments) with
  | error other => simp
  | ok answer =>
      simp only [reduceCtorEq, Except.ok.injEq, exists_and_left, exists_eq_left', false_or,
        ← find?_undeclared_eq_some_iff]
      cases answer.fragments.keys.find? fun name => !patch.fragments.contains name with
      | none => simp
      | some fragment => simp [eq_comm]

theorem applyWithin_eq_ok_iff :
    patch.applyWithin bundle = .ok result ↔
      ∃ answer, patch.run (bundle.restrict patch.fragments) = .ok answer ∧
        (∀ fragment, answer.contains fragment = true → fragment ∈ patch.fragments) ∧
        result = bundle.merge answer := by
  unfold applyWithin
  cases hrun : patch.run (bundle.restrict patch.fragments) with
  | error other => simp
  | ok answer =>
      simp only [Except.ok.injEq, exists_eq_left', ← find?_undeclared_eq_none_iff]
      cases answer.fragments.keys.find? fun name => !patch.fragments.contains name with
      | none => simp [eq_comm]
      | some fragment => simp

/-- A fragment that was not declared stays, or stays away. -/
private theorem fragments_merge_of_undeclared {fragment : String}
    (hanswer : ∀ name, answer.contains name = true → name ∈ patch.fragments)
    (hundeclared : fragment ∉ patch.fragments) :
    (bundle.merge answer).fragments.get? fragment = bundle.fragments.get? fragment := by
  rw [Bundle.fragments_merge, Bundle.fragments_of_unlisted hanswer hundeclared, Option.none_or]

/-! ### Two bundles -/

/-- The same error, or bundles that agree on the fragments. -/
def Alike (fragments : List String) :
    Except OptionsError Bundle → Except OptionsError Bundle → Prop
  | .error e, .error other => e = other
  | .ok a, .ok b => AgreeOn fragments a b
  | _, _ => False

/-- What a patch does to the declared fragments depends on the declared fragments. -/
theorem alike_of_agreeOn {a b : Bundle} (h : AgreeOn patch.fragments a b) :
    Alike patch.fragments (patch.applyWithin a) (patch.applyWithin b) := by
  have hview : a.restrict patch.fragments = b.restrict patch.fragments :=
    Bundle.restrict_eq_restrict_iff.mpr h
  cases ha : patch.applyWithin a with
  | error e =>
      have hb : patch.applyWithin b = .error e := by
        rwa [applyWithin_eq_error_iff, ← hview, ← applyWithin_eq_error_iff]
      rw [hb]
      rfl
  | ok result =>
      obtain ⟨answer, hrun, hanswer, rfl⟩ := applyWithin_eq_ok_iff.mp ha
      have hb : patch.applyWithin b = .ok (b.merge answer) :=
        applyWithin_eq_ok_iff.mpr ⟨answer, hview ▸ hrun, hanswer, rfl⟩
      rw [hb]
      exact h.merge answer

/--
**A patch is isolated from what it does not declare.**  It fails exactly with the error of
its function on the view, or for the least undeclared fragment in the answer of its
function.  When it succeeds, the undeclared fragments are what they were, and the declared
ones are what the answer has, or what they were where the answer has nothing.  And it does
the same with every bundle that agrees on the declared fragments.
-/
theorem applyWithin_isolates (patch : Patch) (bundle : Bundle) :
    (∀ e, patch.applyWithin bundle = .error e ↔
      patch.run (bundle.restrict patch.fragments) = .error e ∨
        ∃ answer fragment, patch.run (bundle.restrict patch.fragments) = .ok answer ∧
          patch.Oversteps answer fragment ∧ e = .undeclaredFragment fragment) ∧
    (∀ result, patch.applyWithin bundle = .ok result →
      ∃ answer, patch.run (bundle.restrict patch.fragments) = .ok answer ∧
        (∀ fragment, fragment ∉ patch.fragments →
          result.fragments.get? fragment = bundle.fragments.get? fragment) ∧
        ∀ fragment ∈ patch.fragments, result.fragments.get? fragment =
          (answer.fragments.get? fragment).or (bundle.fragments.get? fragment)) ∧
    ∀ other, AgreeOn patch.fragments bundle other →
      Alike patch.fragments (patch.applyWithin bundle) (patch.applyWithin other) := by
  refine ⟨fun _ => applyWithin_eq_error_iff, ?frame, fun _ => alike_of_agreeOn⟩
  case frame =>
    intro result h
    obtain ⟨answer, hrun, hanswer, rfl⟩ := applyWithin_eq_ok_iff.mp h
    refine ⟨answer, hrun, ?_, ?_⟩
    · intro fragment hundeclared
      exact fragments_merge_of_undeclared hanswer hundeclared
    · intro fragment _
      exact Bundle.fragments_merge bundle answer fragment

end Transition.Patch

end BuildConfig
