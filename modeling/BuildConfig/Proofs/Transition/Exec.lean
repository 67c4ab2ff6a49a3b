/-
What the transition onto an execution platform changes.

A patch that edits certain options of every view edits the same options of the bundle
that it is applied within.  For the transition these are the exec settings and the
options of the flags of the custom transition.

The platform is set last, after the custom transition, and in a fragment that the
transition is about.  So the bundle is on the execution platform in the end, whatever
the flags of the custom transition say.
-/
import BuildConfig.Proofs.Transition.Isolation
import BuildConfig.Transition.Exec

namespace BuildConfig.Transition

open BuildConfig.Bundle (Edits)

theorem Patch.edits_applyWithin {patch : Patch} {may : OptionName → Prop} {bundle result : Bundle}
    (hrun : ∀ view patched, patch.run view = .ok patched → Edits may view patched)
    (h : patch.applyWithin bundle = .ok result) : Edits may bundle result := by
  obtain ⟨patched, hpatched, -, rfl⟩ := applyWithin_eq_ok_iff.mp h
  exact (hrun _ patched hpatched).merge

namespace Exec

/-- The options that the transition can change. -/
inductive Touches (custom : Option Custom) : OptionName → Prop
  | platforms : Touches custom .platforms
  | isExec : Touches custom .isExec
  | compilationMode : Touches custom .compilationMode
  | flag {transition : Custom} {flag : Flag} (hcustom : custom = some transition)
      (hflag : flag ∈ transition.flags) : Touches custom flag.name

variable {exec : Exec} {bundle result : Bundle} {platform : Label}

theorem edits_customize (h : exec.customize bundle = .ok result) :
    Edits (Touches exec.custom) bundle result := by
  unfold customize at h
  split at h
  · cases h
    exact .refl _ bundle
  · rename_i transition hcustom
    refine (Bundle.edits_apply h).mono ?_
    rintro name ⟨flag, hflag, rfl⟩
    exact .flag hcustom hflag

theorem edits_useHostMode (h : useHostMode bundle = .ok result) :
    Edits (· = .compilationMode) bundle result := by
  unfold useHostMode at h
  split at h
  · exact Bundle.edits_withOption h
  · cases h
    exact .refl _ bundle

theorem settle_eq_ok_iff :
    settle platform bundle = .ok result ↔
      ∃ marked adjusted, bundle.withOption .isExec (.bool true) = .ok marked ∧
        useHostMode marked = .ok adjusted ∧ adjusted.withPlatforms [platform] = .ok result := by
  unfold settle
  cases bundle.withOption .isExec (.bool true) with
  | error e => simp
  | ok marked =>
      cases hadjusted : useHostMode marked with
      | error e => simp [hadjusted]
      | ok adjusted => simp [hadjusted]

theorem run_eq_ok_iff :
    exec.run bundle = .ok result ↔
      ∃ customized, exec.customize bundle = .ok customized ∧
        settle exec.platform customized = .ok result := by
  unfold run
  cases exec.customize bundle <;> simp

theorem edits_settle (custom : Option Custom) (h : settle platform bundle = .ok result) :
    Edits (Touches custom) bundle result := by
  obtain ⟨marked, adjusted, hmarked, hadjusted, hresult⟩ := settle_eq_ok_iff.mp h
  have hmark : Edits (Touches custom) bundle marked :=
    (Bundle.edits_withOption hmarked).mono fun _ hname => hname ▸ .isExec
  have hadjust : Edits (Touches custom) marked adjusted :=
    (edits_useHostMode hadjusted).mono fun _ hname => hname ▸ .compilationMode
  have hplatforms : Edits (Touches custom) adjusted result :=
    (Bundle.edits_withOption hresult).mono fun _ hname => hname ▸ .platforms
  exact (hmark.trans hadjust).trans hplatforms

/-- **The transition edits the exec settings and what the custom transition has flags for.** -/
theorem edits_patch (h : exec.patch.applyWithin bundle = .ok result) :
    Edits (Touches exec.custom) bundle result := by
  refine Patch.edits_applyWithin ?_ h
  intro view patched hrun
  obtain ⟨customized, hcustomized, hsettled⟩ := run_eq_ok_iff.mp hrun
  exact (edits_customize hcustomized).trans (edits_settle exec.custom hsettled)

/-- **The bundle ends on the execution platform.** -/
theorem platforms_patch (h : exec.patch.applyWithin bundle = .ok result) :
    result.platforms = [exec.platform] := by
  obtain ⟨patched, hrun, -, rfl⟩ := Patch.applyWithin_eq_ok_iff.mp h
  obtain ⟨customized, -, hsettled⟩ := run_eq_ok_iff.mp hrun
  obtain ⟨marked, adjusted, -, -, hpatched⟩ := settle_eq_ok_iff.mp hsettled
  have hget : patched.get? .platforms = some (.labels [exec.platform]) := by
    rw [Bundle.get?_withPlatforms hpatched, if_pos rfl]
  have hmerged : (bundle.merge patched).get? .platforms = patched.get? .platforms := by
    rw [Bundle.get?_merge, if_pos (Bundle.contains_of_get? hget)]
  rw [Bundle.platforms_congr hmerged, Bundle.platforms_withPlatforms hpatched]

end Exec

end BuildConfig.Transition
