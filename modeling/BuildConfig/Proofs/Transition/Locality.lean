/-
The transition onto an execution platform declares all that it is about.

A function on bundles is local to some fragments when it works on a view of them as it
works on the whole bundle: it fails with the same error, or its result on the view is the
view of its result, and it edits no option outside.  `Local` is that.  Replacing a value
is local to the fragment of its option, and locality is kept when functions follow one
another or choose what to do by what they read in their fragments.  So it is checked
where an option is named, and nowhere else.

A patch with a local function does not notice that it is given a view, and what it leaves
out of its answer is what it would not have changed.  So holding it to its declaration
changes nothing (`applyWithin_eq_run`).  The transition is such a patch: its fragments
are those of the exec settings and of all flags of the custom transition.
-/
import BuildConfig.Proofs.Transition.Exec

namespace BuildConfig

/-! ### Sequences as binds -/

namespace Bundle

private theorem applyFlag_eq_bind (bundle : Bundle) (flag : Flag) :
    bundle.applyFlag flag = (bundle.resolve flag).bind (bundle.withOption flag.name) := by
  unfold applyFlag
  cases bundle.resolve flag <;> rfl

private theorem apply_cons_eq_bind (bundle : Bundle) (flag : Flag) (flags : List Flag) :
    bundle.apply (flag :: flags) = (bundle.applyFlag flag).bind (·.apply flags) := by
  rw [apply]
  cases bundle.applyFlag flag <;> rfl

end Bundle

namespace Transition

open BuildConfig.Bundle (Edits SameShape)

/-- The function reads and writes the fragments only, whether it succeeds or fails. -/
structure Local (fragments : List String) (run : Bundle → Except OptionsError Bundle) : Prop where
  restrict : ∀ bundle, run (bundle.restrict fragments) = (run bundle).map (·.restrict fragments)
  edits : ∀ bundle result, run bundle = .ok result →
    Edits (fun name => name.fragment ∈ fragments) bundle result

namespace Local

variable {fragments : List String} {run next : Bundle → Except OptionsError Bundle}

/-! ### Local functions -/

theorem fail (fragments : List String) (e : OptionsError) : Local fragments fun _ => .error e :=
  ⟨fun _ => rfl, fun _ _ h => nomatch h⟩

theorem skip (fragments : List String) : Local fragments .ok := by
  refine ⟨fun _ => rfl, ?_⟩
  intro bundle result h
  cases h
  exact .refl _ bundle

theorem bind (h : Local fragments run) (k : Local fragments next) :
    Local fragments fun bundle => (run bundle).bind next := by
  refine ⟨?_, ?_⟩
  · intro bundle
    show (run (bundle.restrict fragments)).bind next = ((run bundle).bind next).map _
    rw [h.restrict]
    cases run bundle with
    | error e => rfl
    | ok middle => exact k.restrict middle
  · intro bundle result hresult
    cases hrun : run bundle with
    | error e =>
        rw [hrun] at hresult
        cases hresult
    | ok middle =>
        rw [hrun] at hresult
        exact (h.edits bundle middle hrun).trans (k.edits middle result hresult)

theorem reading {α : Type} (read : Bundle → α) (act : α → Bundle → Except OptionsError Bundle)
    (hread : ∀ bundle, read (bundle.restrict fragments) = read bundle)
    (hact : ∀ a, Local fragments (act a)) :
    Local fragments fun bundle => act (read bundle) bundle := by
  refine ⟨?_, fun bundle => (hact (read bundle)).edits bundle⟩
  intro bundle
  rw [hread]
  exact (hact (read bundle)).restrict bundle

/-! ### Options -/

private theorem get?_restrict_of_mem {name : OptionName} (hmem : name.fragment ∈ fragments)
    (bundle : Bundle) : (bundle.restrict fragments).get? name = bundle.get? name := by
  rw [Bundle.get?_restrict, if_pos (by simpa using hmem)]

private theorem withOption_restrict {name : OptionName} (hmem : name.fragment ∈ fragments)
    (value : Value) (bundle : Bundle) :
    (bundle.restrict fragments).withOption name value =
      (bundle.withOption name value).map (·.restrict fragments) := by
  unfold Bundle.withOption
  rw [Bundle.fragments_restrict, if_pos hmem]
  cases bundle.fragments.get? name.fragment with
  | none => rfl
  | some options =>
      cases hold : options.get? name.option with
      | none => simp only [hold, Except.map]
      | some old =>
          by_cases hkind : old.kind = value.kind
          · simp only [hold, hkind, if_true, Except.map, Except.ok.injEq]
            refine Bundle.ext_fragments ?_
            intro fragment
            rw [Bundle.fragments_restrict, SortedMap.get?_insert, SortedMap.get?_insert,
              Bundle.fragments_restrict]
            by_cases hf : fragment = name.fragment
            · rw [if_pos hf, if_pos hf, if_pos (hf ▸ hmem)]
            · rw [if_neg hf, if_neg hf]
          · simp only [hold, hkind, if_false, Except.map]

theorem withOption {name : OptionName} (hmem : name.fragment ∈ fragments) (value : Value) :
    Local fragments fun bundle => bundle.withOption name value := by
  refine ⟨withOption_restrict hmem value, ?_⟩
  intro bundle result h
  exact (Bundle.edits_withOption h).mono fun other hother => hother ▸ hmem

theorem applyFlag {flag : Flag} (hmem : flag.name.fragment ∈ fragments) :
    Local fragments fun bundle => bundle.applyFlag flag := by
  simp only [Bundle.applyFlag_eq_bind]
  refine reading (fun bundle => bundle.resolve flag)
    (fun resolved bundle => resolved.bind fun value => bundle.withOption flag.name value) ?_ ?_
  · intro bundle
    exact Bundle.resolve_congr (by rw [Bundle.kindAt, get?_restrict_of_mem hmem, Bundle.kindAt])
  · intro resolved
    cases resolved with
    | error e => exact fail fragments e
    | ok value => exact withOption hmem value

/-- Flags are local to the fragments that they name. -/
theorem apply {flags : List Flag} (hmem : ∀ flag ∈ flags, flag.name.fragment ∈ fragments) :
    Local fragments fun bundle => bundle.apply flags := by
  induction flags with
  | nil => exact skip fragments
  | cons flag rest ih =>
      rw [List.forall_mem_cons] at hmem
      simp only [Bundle.apply_cons_eq_bind]
      exact (applyFlag hmem.1).bind (ih hmem.2)

/-! ### Local functions as patches -/

/-- A result that is the same outside some fragments is put together again from its view. -/
theorem merge_restrict {bundle result : Bundle}
    (h : Edits (fun name => name.fragment ∈ fragments) bundle result) :
    bundle.merge (result.restrict fragments) = result := by
  have hget : ∀ name, (bundle.merge (result.restrict fragments)).get? name = result.get? name := by
    intro name
    rw [Bundle.get?_merge, Bundle.contains_restrict]
    by_cases hmem : name.fragment ∈ fragments
    · rw [get?_restrict_of_mem hmem]
      cases hresult : result.contains name.fragment with
      | true => simp [hmem]
      | false =>
          have hbundle : bundle.contains name.fragment = false :=
            (h.shape.contains name.fragment).symm.trans hresult
          rw [Bundle.get?_of_lacking hresult, Bundle.get?_of_lacking hbundle, Bool.and_false]
          rfl
    · simp [hmem, h.get?_eq hmem]
  refine SameShape.ext ⟨?_, ?_⟩ hget
  · intro fragment
    rw [Bundle.contains_merge, Bundle.contains_restrict, h.shape.contains]
    cases fragments.contains fragment <;> simp
  · intro name
    rw [Bundle.kindAt, hget, Bundle.kindAt]

/-- **A patch whose function is local does to a bundle what its function does.** -/
theorem applyWithin_eq_run {patch : Patch} (h : Local patch.fragments patch.run) (bundle : Bundle) :
    patch.applyWithin bundle = patch.run bundle := by
  cases hrun : patch.run bundle with
  | error e =>
      refine Patch.applyWithin_eq_error_iff.mpr (.inl ?_)
      rw [h.restrict, hrun]
      rfl
  | ok result =>
      refine Patch.applyWithin_eq_ok_iff.mpr ⟨result.restrict patch.fragments, ?_, ?_, ?_⟩
      · rw [h.restrict, hrun]
        rfl
      · intro fragment hcontains
        exact (Bundle.contains_restrict_iff.mp hcontains).1
      · exact (merge_restrict (h.edits bundle result hrun)).symm

end Local

/-! ### The transition onto an execution platform -/

namespace Exec

private theorem settle_eq_bind (platform : Label) (bundle : Bundle) :
    settle platform bundle = (bundle.withOption .isExec (.bool true)).bind fun marked =>
      (useHostMode marked).bind fun adjusted => adjusted.withPlatforms [platform] := by
  unfold settle
  cases bundle.withOption .isExec (.bool true) with
  | error e => rfl
  | ok marked =>
      show _ = (useHostMode marked).bind _
      cases hadjusted : useHostMode marked <;> simp only [hadjusted] <;> rfl

private theorem run_eq_bind (exec : Exec) (bundle : Bundle) :
    exec.run bundle = (exec.customize bundle).bind (settle exec.platform) := by
  unfold run
  cases exec.customize bundle <;> rfl

private theorem core_mem_fragments (exec : Exec) : OptionName.core ∈ exec.fragments := by
  unfold fragments
  cases exec.custom <;> simp

private theorem platform_mem_fragments (exec : Exec) : OptionName.platform ∈ exec.fragments := by
  unfold fragments
  cases exec.custom <;> simp

private theorem fragment_mem_fragments {exec : Exec} {custom : Custom} {flag : Flag}
    (hcustom : exec.custom = some custom) (hflag : flag ∈ custom.flags) :
    flag.name.fragment ∈ exec.fragments := by
  have hnamed : flag.name.fragment ∈ custom.fragments := by
    rw [Custom.fragments, List.mem_eraseDups]
    exact List.mem_map.mpr ⟨flag, hflag, rfl⟩
  unfold fragments
  rw [hcustom]
  by_cases hown : flag.name.fragment ∈ [OptionName.core, OptionName.platform]
  · exact List.mem_append_left _ hown
  · refine List.mem_append_right _ (List.mem_filter.mpr ⟨hnamed, ?_⟩)
    simpa using hown

theorem local_customize (exec : Exec) : Local exec.fragments exec.customize := by
  unfold customize
  cases hcustom : exec.custom with
  | none => exact .skip exec.fragments
  | some custom => exact .apply fun flag hflag => fragment_mem_fragments hcustom hflag

/-- The mode is read and written in one fragment. -/
theorem local_useHostMode {fragments : List String} (hcore : OptionName.core ∈ fragments) :
    Local fragments useHostMode := by
  refine ⟨?_, ?_⟩
  · intro bundle
    unfold useHostMode
    rw [Local.get?_restrict_of_mem hcore bundle]
    split
    · exact Local.withOption_restrict hcore _ bundle
    · rfl
  · intro bundle result h
    exact (edits_useHostMode h).mono fun name hname => hname ▸ hcore

theorem local_settle {fragments : List String} (hcore : OptionName.core ∈ fragments)
    (hplatform : OptionName.platform ∈ fragments) (platform : Label) :
    Local fragments (settle platform) := by
  have hsettle : settle platform = fun bundle =>
      (bundle.withOption .isExec (.bool true)).bind fun marked =>
        (useHostMode marked).bind fun adjusted => adjusted.withPlatforms [platform] :=
    funext (settle_eq_bind platform)
  rw [hsettle]
  exact (Local.withOption hcore (.bool true)).bind
    ((local_useHostMode hcore).bind (.withOption hplatform (.labels [platform])))

/--
**The transition declares all that it is about.**  Applied within its fragments it gives
what it gives on the whole bundle: the same error, or the same bundle.
-/
theorem applyWithin_patch (exec : Exec) (bundle : Bundle) :
    exec.patch.applyWithin bundle = exec.patch.run bundle := by
  refine Local.applyWithin_eq_run ?_ bundle
  have hrun : exec.run = fun bundle => (exec.customize bundle).bind (settle exec.platform) :=
    funext exec.run_eq_bind
  show Local exec.fragments exec.run
  rw [hrun]
  exact (local_customize exec).bind
    (local_settle exec.core_mem_fragments exec.platform_mem_fragments exec.platform)

end Exec

end Transition

end BuildConfig
