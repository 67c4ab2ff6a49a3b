/-
The errors of bundles.

Whatever is done to a bundle, by flags, by rules or by a transition, comes down to a few
operations, so there are only a few kinds of errors that it can end with: `OfBundle`.  Each
kind has a wording of its own, and none of them can be taken for the error that a batch has
no configuration of some name.
-/
import BuildConfig.Baseline.Evaluation

namespace BuildConfig

/-- What a text begins with, it begins with however it goes on. -/
private theorem head?_append_of_eq {s : String} {c : Char} (t : String)
    (h : s.toList.head? = some c) : (s ++ t).toList.head? = some c := by
  rw [String.toList_append, List.head?_append, h]
  rfl

namespace OptionsError

/-- The errors that operations on bundles end with. -/
inductive OfBundle : OptionsError → Prop
  | unknownFragment (fragment : String) : OfBundle (.unknownFragment fragment)
  | unrecognized (name : OptionName) : OfBundle (.unrecognized name)
  | kindMismatch (name : OptionName) (expected got : Kind) :
      OfBundle (.kindMismatch name expected got)
  | inFlag (flag : String) (cause : OptionsError) : OfBundle (.inFlag flag cause)
  | undeclaredFragment (fragment : String) : OfBundle (.undeclaredFragment fragment)

/-- **Their wording is not that of a missing configuration.** -/
theorem OfBundle.message_ne {e : OptionsError} (h : e.OfBundle) (name : String) :
    e.message ≠ (unmapped name).message := by
  have hunmapped : (unmapped name).message.toList.head? = some 'm' :=
    head?_append_of_eq _ (head?_append_of_eq _ rfl)
  have hhead : ∃ c, e.message.toList.head? = some c ∧ c ≠ 'm' := by
    cases h with
    | unknownFragment fragment =>
        exact ⟨'u', head?_append_of_eq _ (head?_append_of_eq _ rfl), by decide⟩
    | unrecognized name =>
        exact ⟨'u', head?_append_of_eq _ (head?_append_of_eq _ rfl), by decide⟩
    | kindMismatch name expected got =>
        refine ⟨'o', ?_, by decide⟩
        iterate 5 refine head?_append_of_eq _ ?_
        rfl
    | inFlag flag cause =>
        refine ⟨'w', ?_, by decide⟩
        iterate 3 refine head?_append_of_eq _ ?_
        rfl
    | undeclaredFragment fragment =>
        exact ⟨'t', head?_append_of_eq _ (head?_append_of_eq _ rfl), by decide⟩
  obtain ⟨c, hc, hne⟩ := hhead
  intro hsame
  rw [hsame, hunmapped] at hc
  cases hc
  exact hne rfl

end OptionsError

open OptionsError (OfBundle)

namespace Bundle

variable {bundle : Bundle} {e : OptionsError}

private theorem ofBundle_of_withOption {name : OptionName} {value : Value}
    (h : bundle.withOption name value = .error e) : e.OfBundle := by
  unfold withOption at h
  split at h
  · cases h
    exact .unknownFragment _
  · split at h
    · cases h
      exact .unrecognized _
    · split at h
      · cases h
      · cases h
        exact .kindMismatch _ _ _

private theorem ofBundle_of_resolve {flag : Flag} (h : bundle.resolve flag = .error e) :
    e.OfBundle := by
  unfold resolve at h
  split at h
  · cases h
    exact .unrecognized _
  · split at h
    · cases h
      exact .inFlag _ _
    · cases h

private theorem ofBundle_of_applyFlag {flag : Flag} (h : bundle.applyFlag flag = .error e) :
    e.OfBundle := by
  unfold applyFlag at h
  split at h
  · rename_i hresolve
    cases h
    exact ofBundle_of_resolve hresolve
  · exact ofBundle_of_withOption h

theorem ofBundle_of_apply {flags : List Flag} (h : bundle.apply flags = .error e) :
    e.OfBundle := by
  induction flags generalizing bundle with
  | nil => cases h
  | cons flag rest ih =>
      rw [apply] at h
      split at h
      · rename_i happly
        cases h
        exact ofBundle_of_applyFlag happly
      · exact ih h

theorem ofBundle_of_holds {flag : Flag} (h : bundle.holds flag = .error e) : e.OfBundle := by
  unfold holds at h
  split at h
  · rename_i hresolve
    cases h
    exact ofBundle_of_resolve hresolve
  · cases h

end Bundle

namespace Mapping.Rules

variable {bundle : Bundle} {e : OptionsError}

private theorem ofBundle_of_holdsAll {flags : List Flag} (h : holdsAll bundle flags = .error e) :
    e.OfBundle := by
  induction flags with
  | nil => cases h
  | cons flag rest ih =>
      rw [holdsAll] at h
      split at h
      · rename_i hholds
        cases h
        exact Bundle.ofBundle_of_holds hholds
      · cases h
      · exact ih h

private theorem ofBundle_of_select {selectors : List Selector}
    (h : select bundle selectors = .error e) : e.OfBundle := by
  induction selectors with
  | nil => cases h
  | cons selector rest ih =>
      rw [select] at h
      split at h
      · rename_i hholds
        cases h
        exact ofBundle_of_holdsAll hholds
      · cases h
      · exact ih h

theorem ofBundle_of_map {rules : Rules} (h : rules.map bundle = .error e) : e.OfBundle := by
  unfold map at h
  split at h
  · split at h
    · exact Bundle.ofBundle_of_apply h
    · cases h
  · split at h
    · rename_i hselect
      cases h
      exact ofBundle_of_select hselect
    · exact Bundle.ofBundle_of_withOption h
    · cases h

end Mapping.Rules

theorem Mapping.Batch.ofBundle_of_mapOne {table : Table} {bundle : Bundle} {e : OptionsError}
    (h : mapOne table bundle = .error e) : e.OfBundle := by
  unfold mapOne at h
  split at h
  · cases h
  · split at h
    · rename_i rules _
      cases hmap : rules.map bundle with
      | ok mapped =>
          rw [hmap] at h
          cases h
      | error cause =>
          rw [hmap] at h
          cases h
          exact Rules.ofBundle_of_map hmap
    · cases h

namespace Transition

variable {bundle : Bundle} {e : OptionsError}

private theorem Exec.ofBundle_of_settle {platform : Label} (h : settle platform bundle = .error e) :
    e.OfBundle := by
  unfold settle at h
  split at h
  · rename_i hoption
    cases h
    exact Bundle.ofBundle_of_withOption hoption
  · split at h
    · rename_i hmode
      cases h
      unfold useHostMode at hmode
      split at hmode
      · exact Bundle.ofBundle_of_withOption hmode
      · cases hmode
    · exact Bundle.ofBundle_of_withOption h

theorem Exec.ofBundle_of_run {exec : Exec} (h : exec.run bundle = .error e) : e.OfBundle := by
  unfold run at h
  split at h
  · rename_i hcustom
    cases h
    unfold customize at hcustom
    split at hcustom
    · cases hcustom
    · exact Bundle.ofBundle_of_apply hcustom
  · exact ofBundle_of_settle h

theorem Exec.ofBundle_of_applyWithin {exec : Exec}
    (h : exec.patch.applyWithin bundle = .error e) : e.OfBundle := by
  unfold Patch.applyWithin at h
  split at h
  · rename_i hrun
    cases h
    exact ofBundle_of_run hrun
  · split at h
    · cases h
      exact .undeclaredFragment _
    · cases h

end Transition

theorem Baseline.Evaluation.ofBundle_of_move {request : Request} {settings : Settings}
    {custom : Option Transition.Custom} {bundle : Bundle} {e : OptionsError}
    (h : move request settings custom bundle = .error e) : e.OfBundle := by
  have hmap : ∀ {moved : Except OptionsError Bundle}, moved.map some = .error e →
      moved = .error e := by
    intro moved hmoved
    cases moved <;> cases hmoved
    rfl
  unfold move at h
  split at h
  · exact Transition.Exec.ofBundle_of_applyWithin (hmap h)
  · split at h
    · exact Bundle.ofBundle_of_withOption (hmap h)
    · cases h

end BuildConfig
