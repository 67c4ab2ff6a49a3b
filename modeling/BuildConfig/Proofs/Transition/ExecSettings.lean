/-
The exec settings have the last word.

The custom transition is a list of flags and may name any option, also those that the exec
settings write or read.  It runs first, so for what it writes to an option of the settings
there is no trace left, and for what they read (the compilation mode of tools) its value
is the one that counts.  `Setting` says what value the settings give to which option, and
`settle_assigns` that they give it and touch nothing else.

Whether the settings can be made is a question about the shape of the bundle, which flags
keep; so it is asked of the bundle at the start (`exists_settle_iff`).

Running the transition again on its own result changes nothing.  The flags may well change
the result, but only in options of the settings: everywhere else the result has what the
flags made of the first bundle, and flags mean the same in both.
-/
import BuildConfig.Proofs.Transition.Exec

namespace BuildConfig

namespace Bundle

private theorem kindAt_eq_string_iff {bundle : Bundle} {name : OptionName} :
    bundle.kindAt name = some .string ↔ ∃ s, bundle.get? name = some (.string s) := by
  unfold kindAt
  cases bundle.get? name with
  | none => simp
  | some value => cases value <;> simp [Value.kind]

/-- In a bundle of the same shape flags give the same values, and leave the rest of it alone. -/
theorem apply_sameShape {bundle result other : Bundle} {flags : List Flag}
    (h : bundle.apply flags = .ok result) (hshape : SameShape other bundle) :
    ∃ again, other.apply flags = .ok again ∧
      ∀ name, again.get? name = result.get? name ∨ again.get? name = other.get? name := by
  have hresolve : ∀ flag, other.resolve flag = bundle.resolve flag := fun flag =>
    resolve_congr (hshape.kindAt flag.name)
  obtain ⟨again, hagain⟩ : ∃ again, other.apply flags = .ok again := by
    refine exists_apply_iff.mpr ?_
    intro flag hflag
    rw [hresolve]
    exact exists_apply_iff.mp ⟨result, h⟩ flag hflag
  refine ⟨again, hagain, ?_⟩
  intro name
  rw [get?_apply hagain, get?_apply h]
  cases lastFor name flags with
  | some flag => exact .inl (congrArg Except.toOption (hresolve flag))
  | none => exact .inr rfl

end Bundle

namespace Transition.Exec

open BuildConfig.Bundle (SameShape)

variable {exec : Exec} {bundle result customized : Bundle} {platform : Label}

/-- The value that the exec settings give to an option, by what the bundle has. -/
inductive Setting (platform : Label) (bundle : Bundle) : OptionName → Value → Prop
  | isExec : Setting platform bundle .isExec (.bool true)
  | platforms : Setting platform bundle .platforms (.labels [platform])
  | mode {mode : String} (h : bundle.get? .hostCompilationMode = some (.string mode)) :
      Setting platform bundle .compilationMode (.string mode)

/-- The options of the exec settings are there and of the right kinds. -/
structure Settable (bundle : Bundle) : Prop where
  isExec : bundle.kindAt .isExec = some .bool
  platforms : bundle.kindAt .platforms = some .labels
  /-- The mode of tools is only of use if it is a text, and then goes into a text. -/
  mode : bundle.kindAt .hostCompilationMode = some .string →
    bundle.kindAt .compilationMode = some .string

theorem Settable.congr {a b : Bundle} (h : Settable a) (hshape : SameShape a b) : Settable b := by
  refine ⟨?_, ?_, ?_⟩
  · rw [← hshape.kindAt, h.isExec]
  · rw [← hshape.kindAt, h.platforms]
  · rw [← hshape.kindAt, ← hshape.kindAt]
    exact h.mode

/-! ### When the settings can be made -/

private theorem useHostMode_cases (h : useHostMode bundle = .ok result) :
    (∃ mode, bundle.get? .hostCompilationMode = some (.string mode) ∧
      bundle.withOption .compilationMode (.string mode) = .ok result) ∨
    (∀ mode, bundle.get? .hostCompilationMode ≠ some (.string mode)) ∧ result = bundle := by
  unfold useHostMode at h
  split at h
  · rename_i mode hmode
    exact .inl ⟨mode, hmode, h⟩
  · rename_i hother
    cases h
    exact .inr ⟨hother, rfl⟩

private theorem exists_useHostMode_iff :
    (∃ result, useHostMode bundle = .ok result) ↔
      (bundle.kindAt .hostCompilationMode = some .string →
        bundle.kindAt .compilationMode = some .string) := by
  rw [Bundle.kindAt_eq_string_iff]
  unfold useHostMode
  split
  · rename_i mode hmode
    rw [Bundle.exists_withOption_iff]
    exact ⟨fun h _ => h, fun h => h ⟨mode, hmode⟩⟩
  · rename_i hother
    refine iff_of_true ⟨bundle, rfl⟩ ?_
    rintro ⟨mode, hmode⟩
    exact absurd hmode (hother mode)

/-- The settings can be made exactly where their options are. -/
theorem exists_settle_iff : (∃ result, settle platform bundle = .ok result) ↔ Settable bundle := by
  constructor
  · rintro ⟨result, h⟩
    obtain ⟨marked, adjusted, hmarked, hadjusted, hresult⟩ := settle_eq_ok_iff.mp h
    have hshape : SameShape marked bundle := Bundle.sameShape_withOption hmarked
    have hshape' : SameShape adjusted marked := (edits_useHostMode hadjusted).shape
    refine ⟨Bundle.exists_withOption_iff.mp ⟨marked, hmarked⟩, ?_, ?_⟩
    · rw [← hshape.kindAt, ← hshape'.kindAt]
      exact Bundle.exists_withOption_iff.mp ⟨result, hresult⟩
    · rw [← hshape.kindAt, ← hshape.kindAt]
      exact exists_useHostMode_iff.mp ⟨adjusted, hadjusted⟩
  · intro h
    obtain ⟨marked, hmarked⟩ := Bundle.exists_withOption_iff.mpr
      (show bundle.kindAt .isExec = some (Value.bool true).kind from h.isExec)
    have hsettable := h.congr (Bundle.sameShape_withOption hmarked).symm
    obtain ⟨adjusted, hadjusted⟩ := exists_useHostMode_iff.mpr hsettable.mode
    have hsettable' := hsettable.congr (edits_useHostMode hadjusted).shape.symm
    obtain ⟨result, hresult⟩ := Bundle.exists_withOption_iff.mpr
      (show adjusted.kindAt .platforms = some (Value.labels [platform]).kind from
        hsettable'.platforms)
    exact ⟨result, settle_eq_ok_iff.mpr ⟨marked, adjusted, hmarked, hadjusted, hresult⟩⟩

/-! ### What the settings do -/

private theorem get?_useHostMode (h : useHostMode bundle = .ok result) {name : OptionName}
    (hname : name ≠ .compilationMode) : result.get? name = bundle.get? name :=
  (edits_useHostMode h).get?_eq hname

theorem setting_iff (h : result.get? .hostCompilationMode = bundle.get? .hostCompilationMode)
    {name : OptionName} {value : Value} :
    Setting platform result name value ↔ Setting platform bundle name value := by
  constructor
  · rintro (_ | _ | hmode)
    · exact .isExec
    · exact .platforms
    · exact .mode (h ▸ hmode)
  · rintro (_ | _ | hmode)
    · exact .isExec
    · exact .platforms
    · exact .mode (h.trans hmode)

/-- An option has the value of its setting, or what it had when there is no setting for it. -/
theorem settle_assigns (h : settle platform bundle = .ok result) :
    (∀ name value, Setting platform bundle name value → result.get? name = some value) ∧
    ∀ name, (∀ value, ¬ Setting platform bundle name value) →
      result.get? name = bundle.get? name := by
  obtain ⟨marked, adjusted, hmarked, hadjusted, hresult⟩ := settle_eq_ok_iff.mp h
  have hhost : marked.get? .hostCompilationMode = bundle.get? .hostCompilationMode := by
    rw [Bundle.get?_withOption hmarked, if_neg (by decide)]
  refine ⟨?_, ?_⟩
  · intro name value hsetting
    cases hsetting with
    | isExec =>
        rw [Bundle.get?_withPlatforms hresult, if_neg (by decide),
          get?_useHostMode hadjusted (by decide), Bundle.get?_withOption hmarked, if_pos rfl]
    | platforms => rw [Bundle.get?_withPlatforms hresult, if_pos rfl]
    | @mode mode hmode =>
        rw [Bundle.get?_withPlatforms hresult, if_neg (by decide)]
        rw [← hhost] at hmode
        rcases useHostMode_cases hadjusted with ⟨other, hother, hwith⟩ | ⟨hnone, -⟩
        · rw [hmode] at hother
          cases hother
          rw [Bundle.get?_withOption hwith, if_pos rfl]
        · exact absurd hmode (hnone mode)
  · intro name hnone
    have hplatforms : name ≠ .platforms := by
      rintro rfl
      exact hnone _ .platforms
    have hisExec : name ≠ .isExec := by
      rintro rfl
      exact hnone _ .isExec
    have hadjust : adjusted.get? name = marked.get? name := by
      rcases useHostMode_cases hadjusted with ⟨mode, hmode, hwith⟩ | ⟨-, rfl⟩
      · rw [Bundle.get?_withOption hwith, if_neg]
        rintro rfl
        exact hnone _ (.mode (hhost ▸ hmode))
      · rfl
    rw [Bundle.get?_withPlatforms hresult, if_neg hplatforms, hadjust,
      Bundle.get?_withOption hmarked, if_neg hisExec]

theorem get?_hostCompilationMode_settle (h : settle platform bundle = .ok result) :
    result.get? .hostCompilationMode = bundle.get? .hostCompilationMode := by
  refine (settle_assigns h).2 _ ?_
  intro value hsetting
  generalize hname : OptionName.hostCompilationMode = name at hsetting
  cases hsetting with
  | isExec => exact absurd hname (by decide)
  | platforms => exact absurd hname (by decide)
  | mode _ => exact absurd hname (by decide)

theorem sameShape_settle (h : settle platform bundle = .ok result) : SameShape result bundle :=
  (edits_settle none h).shape

/--
The settings make the same result of every bundle that lies between the bundle and the
result, in that each of its options is as in one of the two.
-/
theorem settle_between (h : settle platform bundle = .ok result) {between : Bundle}
    (hshape : SameShape between bundle)
    (hbetween : ∀ name, between.get? name = bundle.get? name ∨
      between.get? name = result.get? name) : settle platform between = .ok result := by
  have hsettable : Settable bundle := exists_settle_iff.mp ⟨result, h⟩
  obtain ⟨final, hfinal⟩ : ∃ final, settle platform between = .ok final :=
    exists_settle_iff.mpr (hsettable.congr hshape.symm)
  have hhost : between.get? .hostCompilationMode = bundle.get? .hostCompilationMode := by
    rcases hbetween .hostCompilationMode with hsame | hsame
    · exact hsame
    · exact hsame.trans (get?_hostCompilationMode_settle h)
  rw [hfinal]
  congr 1
  refine ((sameShape_settle hfinal).trans (hshape.trans (sameShape_settle h).symm)).ext ?_
  intro name
  by_cases hsetting : ∃ value, Setting platform between name value
  · obtain ⟨value, hvalue⟩ := hsetting
    rw [(settle_assigns hfinal).1 name value hvalue,
      (settle_assigns h).1 name value ((setting_iff hhost).mp hvalue)]
  · have hnone : ∀ value, ¬ Setting platform bundle name value := fun value hvalue =>
      hsetting ⟨value, (setting_iff hhost).mpr hvalue⟩
    rw [(settle_assigns hfinal).2 name fun value hvalue => hsetting ⟨value, hvalue⟩]
    rcases hbetween name with hsame | hsame
    · rw [hsame, (settle_assigns h).2 name hnone]
    · exact hsame

/-! ### The whole transition -/

/-- What the flags of the custom transition make of a bundle; without one it stays as it is. -/
inductive Customized (bundle : Bundle) : Option Custom → Bundle → Prop
  | without : Customized bundle none bundle
  | flags {custom : Custom} {customized : Bundle} (h : bundle.apply custom.flags = .ok customized) :
      Customized bundle (some custom) customized

theorem customize_eq_ok_iff :
    exec.customize bundle = .ok customized ↔ Customized bundle exec.custom customized := by
  unfold customize
  cases exec.custom with
  | none =>
      constructor
      · rintro ⟨⟩
        exact .without
      · rintro ⟨⟩
        rfl
  | some custom =>
      constructor
      · exact .flags
      · intro h
        cases h with
        | flags happlied => exact happlied

/-- Flags keep the shape, so it can be asked at the start whether the settings can be made. -/
theorem exists_run_iff :
    (∃ result, exec.run bundle = .ok result) ↔
      (∃ customized, Customized bundle exec.custom customized) ∧ Settable bundle := by
  simp only [run_eq_ok_iff, ← customize_eq_ok_iff]
  constructor
  · rintro ⟨result, customized, hcustomized, hsettled⟩
    exact ⟨⟨customized, hcustomized⟩,
      (exists_settle_iff.mp ⟨result, hsettled⟩).congr (edits_customize hcustomized).shape⟩
  · rintro ⟨⟨customized, hcustomized⟩, hsettable⟩
    obtain ⟨result, hsettled⟩ : ∃ result, settle exec.platform customized = .ok result :=
      exists_settle_iff.mpr (hsettable.congr (edits_customize hcustomized).shape.symm)
    exact ⟨result, customized, hcustomized, hsettled⟩

theorem customize_sameShape {other : Bundle} (h : exec.customize bundle = .ok customized)
    (hshape : SameShape other bundle) :
    ∃ again, exec.customize other = .ok again ∧
      ∀ name, again.get? name = customized.get? name ∨ again.get? name = other.get? name := by
  unfold customize at h ⊢
  cases hcustom : exec.custom with
  | none => exact ⟨other, rfl, fun _ => .inr rfl⟩
  | some custom =>
      rw [hcustom] at h
      exact Bundle.apply_sameShape h hshape

theorem run_run (h : exec.run bundle = .ok result) : exec.run result = .ok result := by
  obtain ⟨customized, hcustomized, hsettled⟩ := run_eq_ok_iff.mp h
  have hcustomize : SameShape customized bundle := (edits_customize hcustomized).shape
  have hsettle : SameShape result customized := sameShape_settle hsettled
  obtain ⟨again, hagain, hbetween⟩ := customize_sameShape hcustomized (hsettle.trans hcustomize)
  have hshape : SameShape again customized := (edits_customize hagain).shape.trans hsettle
  exact run_eq_ok_iff.mpr ⟨again, hagain, settle_between hsettled hshape hbetween⟩

/--
**The exec settings override the custom transition.**  There is a result exactly when the
custom transition can be applied and the options of the settings are there at the start.
In the result every setting is in force, whatever the flags of the custom transition say;
all other options have what the custom transition gives them; and the transition changes
nothing more in it.
-/
theorem run_overrides (exec : Exec) (bundle : Bundle) :
    ((∃ result, exec.run bundle = .ok result) ↔
      (∃ customized, Customized bundle exec.custom customized) ∧ Settable bundle) ∧
    ∀ result, exec.run bundle = .ok result →
      (∀ name value, Setting exec.platform result name value →
        result.get? name = some value) ∧
      (∃ customized, Customized bundle exec.custom customized ∧ SameShape result customized ∧
        ∀ name, (∀ value, ¬ Setting exec.platform result name value) →
          result.get? name = customized.get? name) ∧
      exec.run result = .ok result := by
  refine ⟨exists_run_iff, ?_⟩
  intro result h
  obtain ⟨customized, hcustomized, hsettled⟩ := run_eq_ok_iff.mp h
  have hhost := get?_hostCompilationMode_settle hsettled
  refine ⟨?_, ⟨customized, customize_eq_ok_iff.mp hcustomized, sameShape_settle hsettled, ?_⟩,
    run_run h⟩
  · intro name value hsetting
    exact (settle_assigns hsettled).1 name value ((setting_iff hhost).mp hsetting)
  · intro name hnone
    refine (settle_assigns hsettled).2 name ?_
    intro value hsetting
    exact hnone value ((setting_iff hhost).mpr hsetting)

end Transition.Exec

end BuildConfig
