/-
What a list of flags does to a bundle.

Flags are applied one after the other, each to the bundle that the ones before it
left.  But what a flag means depends on the shape of the bundle only, and flags keep
the shape.  So every flag means what it means in the bundle at the start, and the
list as a whole is a simultaneous assignment: an option that is named gets the value
of the last flag naming it, and all others keep what they have.  `get?_apply` says
this, and `exists_apply_iff` says when there is a result at all.

From these two it follows that the flags change nothing in their own result, and
which bundles they change nothing in: `Obeys` is that condition.
-/
import BuildConfig.Proofs.Bundle.Shape

namespace BuildConfig.Bundle

/-- The last of the flags that names the option. -/
def lastFor (name : OptionName) : List Flag → Option Flag
  | [] => none
  | flag :: flags => (lastFor name flags).or (if flag.name = name then some flag else none)

theorem lastFor_mem {name : OptionName} {flags : List Flag} {flag : Flag}
    (h : lastFor name flags = some flag) : flag ∈ flags ∧ flag.name = name := by
  induction flags with
  | nil => simp [lastFor] at h
  | cons first rest ih =>
      rw [lastFor] at h
      cases hrest : lastFor name rest with
      | some other =>
          rw [hrest, Option.some_or] at h
          obtain ⟨hmem, hname⟩ := ih (hrest.trans h)
          exact ⟨List.mem_cons_of_mem _ hmem, hname⟩
      | none =>
          rw [hrest, Option.none_or] at h
          by_cases hname : first.name = name
          · rw [if_pos hname] at h
            cases h
            exact ⟨List.mem_cons_self, hname⟩
          · rw [if_neg hname] at h
            cases h

theorem lastFor_eq_none {name : OptionName} {flags : List Flag}
    (h : ∀ flag ∈ flags, flag.name ≠ name) : lastFor name flags = none := by
  cases hlast : lastFor name flags with
  | none => rfl
  | some flag =>
      obtain ⟨hmem, hname⟩ := lastFor_mem hlast
      exact absurd hname (h flag hmem)

/-! ### One flag -/

/-- A flag means the same in bundles where its option is of the same kind. -/
theorem resolve_congr {a b : Bundle} {flag : Flag} (h : a.kindAt flag.name = b.kindAt flag.name) :
    a.resolve flag = b.resolve flag := by
  unfold kindAt at h
  unfold resolve
  cases ha : a.get? flag.name with
  | none =>
      cases hb : b.get? flag.name with
      | none => rfl
      | some y => simp [ha, hb] at h
  | some x =>
      cases hb : b.get? flag.name with
      | none => simp [ha, hb] at h
      | some y =>
          have hkind : x.kind = y.kind := by simpa [ha, hb] using h
          simp only [hkind]

private theorem kindAt_of_resolve {bundle : Bundle} {flag : Flag} {value : Value}
    (h : bundle.resolve flag = .ok value) : bundle.kindAt flag.name = some value.kind := by
  unfold resolve at h
  split at h
  · cases h
  · rename_i current hcurrent
    split at h
    · cases h
    · rename_i read hread
      cases h
      rw [kindAt, hcurrent, Option.map_some, Kind.kind_of_read hread]

theorem applyFlag_eq_ok_iff {bundle result : Bundle} {flag : Flag} :
    bundle.applyFlag flag = .ok result ↔
      ∃ value, bundle.resolve flag = .ok value ∧
        bundle.withOption flag.name value = .ok result := by
  unfold applyFlag
  cases hresolve : bundle.resolve flag with
  | error e => simp
  | ok value => simp

theorem exists_applyFlag_iff {bundle : Bundle} {flag : Flag} :
    (∃ result, bundle.applyFlag flag = .ok result) ↔
      ∃ value, bundle.resolve flag = .ok value := by
  constructor
  · rintro ⟨result, h⟩
    obtain ⟨value, hvalue, -⟩ := applyFlag_eq_ok_iff.mp h
    exact ⟨value, hvalue⟩
  · rintro ⟨value, hvalue⟩
    obtain ⟨result, h⟩ := exists_withOption_iff.mpr (kindAt_of_resolve hvalue)
    exact ⟨result, applyFlag_eq_ok_iff.mpr ⟨value, hvalue, h⟩⟩

theorem sameShape_applyFlag {bundle result : Bundle} {flag : Flag}
    (h : bundle.applyFlag flag = .ok result) : SameShape result bundle := by
  obtain ⟨value, -, hwith⟩ := applyFlag_eq_ok_iff.mp h
  exact sameShape_withOption hwith

theorem holds_eq_true_iff {bundle : Bundle} {flag : Flag} :
    bundle.holds flag = .ok true ↔
      ∃ value, bundle.resolve flag = .ok value ∧ bundle.get? flag.name = some value := by
  unfold holds
  cases hresolve : bundle.resolve flag with
  | error e => simp
  | ok value => simp

/-! ### All flags -/

theorem apply_cons_eq_ok_iff {bundle result : Bundle} {flag : Flag} {flags : List Flag} :
    bundle.apply (flag :: flags) = .ok result ↔
      ∃ next, bundle.applyFlag flag = .ok next ∧ next.apply flags = .ok result := by
  rw [apply]
  cases hflag : bundle.applyFlag flag with
  | error e => simp
  | ok next => simp

theorem sameShape_apply {bundle result : Bundle} {flags : List Flag}
    (h : bundle.apply flags = .ok result) : SameShape result bundle := by
  induction flags generalizing bundle with
  | nil =>
      cases h
      exact SameShape.refl _
  | cons flag rest ih =>
      obtain ⟨next, hnext, hrest⟩ := apply_cons_eq_ok_iff.mp h
      exact (ih hrest).trans (sameShape_applyFlag hnext)

/-- Flags can be applied exactly when each of them means something at the start. -/
theorem exists_apply_iff {bundle : Bundle} {flags : List Flag} :
    (∃ result, bundle.apply flags = .ok result) ↔
      ∀ flag ∈ flags, ∃ value, bundle.resolve flag = .ok value := by
  induction flags generalizing bundle with
  | nil => simp [apply]
  | cons flag rest ih =>
      rw [List.forall_mem_cons]
      constructor
      · rintro ⟨result, h⟩
        obtain ⟨next, hnext, hrest⟩ := apply_cons_eq_ok_iff.mp h
        refine ⟨exists_applyFlag_iff.mp ⟨next, hnext⟩, ?_⟩
        intro other hother
        rw [← resolve_congr ((sameShape_applyFlag hnext).kindAt other.name)]
        exact ih.mp ⟨result, hrest⟩ other hother
      · rintro ⟨hfirst, hrest⟩
        obtain ⟨next, hnext⟩ := exists_applyFlag_iff.mpr hfirst
        obtain ⟨result, h⟩ := ih.mpr fun other hother => by
          rw [resolve_congr ((sameShape_applyFlag hnext).kindAt other.name)]
          exact hrest other hother
        exact ⟨result, apply_cons_eq_ok_iff.mpr ⟨next, hnext, h⟩⟩

/--
**A list of flags is one assignment.**  An option has the value of the last flag that
names it, read as at the start, and an option that no flag names has what it had.
-/
theorem get?_apply {bundle result : Bundle} {flags : List Flag}
    (h : bundle.apply flags = .ok result) (name : OptionName) :
    result.get? name = match lastFor name flags with
      | some flag => (bundle.resolve flag).toOption
      | none => bundle.get? name := by
  induction flags generalizing bundle with
  | nil =>
      cases h
      rfl
  | cons flag rest ih =>
      obtain ⟨next, hnext, hrest⟩ := apply_cons_eq_ok_iff.mp h
      obtain ⟨value, hvalue, hwith⟩ := applyFlag_eq_ok_iff.mp hnext
      rw [ih hrest, lastFor]
      cases hlast : lastFor name rest with
      | some other =>
          rw [Option.some_or]
          show (next.resolve other).toOption = (bundle.resolve other).toOption
          rw [resolve_congr ((sameShape_applyFlag hnext).kindAt other.name)]
      | none =>
          rw [Option.none_or]
          show next.get? name = _
          rw [get?_withOption hwith]
          by_cases hname : flag.name = name
          · rw [if_pos hname.symm, if_pos hname]
            show _ = (bundle.resolve flag).toOption
            rw [hvalue]
            rfl
          · rw [if_neg (Ne.symm hname), if_neg hname]

theorem get?_apply_of_lastFor {bundle result : Bundle} {flags : List Flag} {name : OptionName}
    {flag : Flag} (h : bundle.apply flags = .ok result) (hlast : lastFor name flags = some flag) :
    ∃ value, bundle.resolve flag = .ok value ∧ result.get? name = some value := by
  obtain ⟨value, hvalue⟩ := exists_apply_iff.mp ⟨result, h⟩ flag (lastFor_mem hlast).1
  refine ⟨value, hvalue, ?_⟩
  rw [get?_apply h, hlast]
  show (bundle.resolve flag).toOption = some value
  rw [hvalue]
  rfl

theorem get?_apply_of_unnamed {bundle result : Bundle} {flags : List Flag} {name : OptionName}
    (h : bundle.apply flags = .ok result) (hnamed : ∀ flag ∈ flags, flag.name ≠ name) :
    result.get? name = bundle.get? name := by
  rw [get?_apply h, lastFor_eq_none hnamed]

/-! ### What the flags change nothing in -/

/-- Every flag means something, and every option holds the value of the last flag naming it. -/
structure Obeys (bundle : Bundle) (flags : List Flag) : Prop where
  readable : ∀ flag ∈ flags, ∃ value, bundle.resolve flag = .ok value
  held : ∀ name flag, lastFor name flags = some flag → bundle.holds flag = .ok true

/-- **The result of applying flags obeys them.** -/
theorem obeys_of_apply {bundle result : Bundle} {flags : List Flag}
    (h : bundle.apply flags = .ok result) : result.Obeys flags := by
  have hresolve : ∀ flag, result.resolve flag = bundle.resolve flag := fun flag =>
    resolve_congr ((sameShape_apply h).kindAt flag.name)
  refine ⟨?_, ?_⟩
  · intro flag hflag
    rw [hresolve]
    exact exists_apply_iff.mp ⟨result, h⟩ flag hflag
  · intro name flag hlast
    obtain ⟨value, hvalue, hget⟩ := get?_apply_of_lastFor h hlast
    rw [← (lastFor_mem hlast).2] at hget
    exact holds_eq_true_iff.mpr ⟨value, (hresolve flag).trans hvalue, hget⟩

/-- **Flags change nothing exactly in the bundles that obey them.** -/
theorem apply_eq_self_iff {bundle : Bundle} {flags : List Flag} :
    bundle.apply flags = .ok bundle ↔ bundle.Obeys flags := by
  constructor
  · exact obeys_of_apply
  · intro h
    obtain ⟨result, hresult⟩ := exists_apply_iff.mpr h.readable
    rw [hresult]
    congr 1
    refine (sameShape_apply hresult).ext ?_
    intro name
    rw [get?_apply hresult]
    cases hlast : lastFor name flags with
    | none => rfl
    | some flag =>
        obtain ⟨value, hvalue, hget⟩ := holds_eq_true_iff.mp (h.held name flag hlast)
        show (bundle.resolve flag).toOption = bundle.get? name
        rw [hvalue, ← (lastFor_mem hlast).2, hget]
        rfl

/-- Whether a bundle obeys flags depends on its shape and on the options that they name. -/
theorem Obeys.congr {a b : Bundle} {flags : List Flag} (h : a.Obeys flags) (hshape : SameShape a b)
    (hget : ∀ flag ∈ flags, a.get? flag.name = b.get? flag.name) : b.Obeys flags := by
  have hresolve : ∀ flag, a.resolve flag = b.resolve flag := fun flag =>
    resolve_congr (hshape.kindAt flag.name)
  refine ⟨?_, ?_⟩
  · intro flag hflag
    rw [← hresolve]
    exact h.readable flag hflag
  · intro name flag hlast
    obtain ⟨value, hvalue, hheld⟩ := holds_eq_true_iff.mp (h.held name flag hlast)
    refine holds_eq_true_iff.mpr ⟨value, (hresolve flag).symm.trans hvalue, ?_⟩
    rw [← hget flag (lastFor_mem hlast).1, hheld]

end BuildConfig.Bundle
