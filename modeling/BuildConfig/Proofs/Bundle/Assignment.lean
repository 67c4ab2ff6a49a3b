/-
A list of flags as one assignment to a bundle.

Flags are applied one after the other, but the list means what a simultaneous
assignment means: each flag is read in the bundle at the start, whatever stands before
it.  `apply_eq_error_iff` is the half of this about failure.  A replacement never fails
on its own, since a flag that can be read gives a value of the kind that its option
has; so the error is always that of reading a flag, and the first flag that cannot be
read is to blame.

The order of the list matters between flags for one option only, because the last of
them counts.  `Rearranged` is the freedom that is left, and it changes neither whether
there is a result nor which one.
-/
import BuildConfig.Proofs.Bundle.Flags

namespace BuildConfig.Bundle

/-- The bundle has the flag's option, and as one of its kind the flag's text is the value. -/
def Gives (bundle : Bundle) (flag : Flag) (value : Value) : Prop :=
  ∃ current, bundle.get? flag.name = some current ∧ current.kind.read flag.value = .ok value

theorem resolve_eq_ok_iff {bundle : Bundle} {flag : Flag} {value : Value} :
    bundle.resolve flag = .ok value ↔ bundle.Gives flag value := by
  unfold resolve Gives
  cases hget : bundle.get? flag.name with
  | none => simp
  | some current =>
      cases hread : current.kind.read flag.value with
      | error cause => simp [hread]
      | ok other => simp [hread]

/-- Flags can be applied exactly when each of them gives a value at the start. -/
theorem exists_apply_iff_gives {bundle : Bundle} {flags : List Flag} :
    (∃ result, bundle.apply flags = .ok result) ↔
      ∀ flag ∈ flags, ∃ value, bundle.Gives flag value := by
  simp only [exists_apply_iff, resolve_eq_ok_iff]

/-! ### The flag to blame -/

/-- Applying a flag fails only where reading it does, and with that error. -/
theorem applyFlag_eq_error_iff {bundle : Bundle} {flag : Flag} {e : OptionsError} :
    bundle.applyFlag flag = .error e ↔ bundle.resolve flag = .error e := by
  cases hresolve : bundle.resolve flag with
  | error other => simp [applyFlag, hresolve]
  | ok value =>
      obtain ⟨result, hresult⟩ := exists_applyFlag_iff.mpr ⟨value, hresolve⟩
      simp [hresult]

private theorem apply_singleton_eq_error_iff {bundle : Bundle} {flag : Flag} {e : OptionsError} :
    bundle.apply [flag] = .error e ↔ bundle.resolve flag = .error e := by
  rw [← applyFlag_eq_error_iff]
  cases hflag : bundle.applyFlag flag with
  | error other => simp [apply, hflag]
  | ok next => simp [apply, hflag]

/-- The error is that of the first flag that cannot be read at the start. -/
theorem apply_eq_error_iff {bundle : Bundle} {flags : List Flag} {e : OptionsError} :
    bundle.apply flags = .error e ↔
      ∃ before flag after, flags = before ++ flag :: after ∧
        (∀ earlier ∈ before, ∃ value, bundle.resolve earlier = .ok value) ∧
        bundle.resolve flag = .error e := by
  induction flags generalizing bundle with
  | nil => simp [apply]
  | cons first rest ih =>
      rw [apply]
      cases hfirst : bundle.applyFlag first with
      | error other =>
          have hread := applyFlag_eq_error_iff.mp hfirst
          show Except.error other = Except.error e ↔ _
          constructor
          · rintro ⟨⟩
            exact ⟨[], first, rest, rfl, by simp, hread⟩
          · rintro ⟨before, flag, after, hsplit, hbefore, hflag⟩
            cases before with
            | nil =>
                obtain ⟨rfl, rfl⟩ := List.cons.inj hsplit
                rw [hread] at hflag
                cases hflag
                rfl
            | cons head tail =>
                obtain ⟨rfl, -⟩ := List.cons.inj hsplit
                obtain ⟨value, hvalue⟩ := hbefore first List.mem_cons_self
                rw [hread] at hvalue
                cases hvalue
      | ok next =>
          -- What comes after the first flag is read in `next` as at the start.
          have hsame : ∀ flag, next.resolve flag = bundle.resolve flag := fun flag =>
            resolve_congr ((sameShape_applyFlag hfirst).kindAt flag.name)
          obtain ⟨value, hread⟩ := exists_applyFlag_iff.mp ⟨next, hfirst⟩
          show next.apply rest = .error e ↔ _
          simp only [ih, hsame]
          constructor
          · rintro ⟨before, flag, after, rfl, hbefore, hflag⟩
            exact ⟨first :: before, flag, after, rfl,
              List.forall_mem_cons.mpr ⟨⟨value, hread⟩, hbefore⟩, hflag⟩
          · rintro ⟨before, flag, after, hsplit, hbefore, hflag⟩
            cases before with
            | nil =>
                obtain ⟨rfl, -⟩ := List.cons.inj hsplit
                rw [hread] at hflag
                cases hflag
            | cons head tail =>
                obtain ⟨-, rfl⟩ := List.cons.inj hsplit
                exact ⟨tail, flag, after, rfl, (List.forall_mem_cons.mp hbefore).2, hflag⟩

/-! ### The flag that counts -/

private theorem lastFor_append (name : OptionName) (flags others : List Flag) :
    lastFor name (flags ++ others) = (lastFor name others).or (lastFor name flags) := by
  induction flags with
  | nil => simp [lastFor]
  | cons flag rest ih => simp only [List.cons_append, lastFor, ih, Option.or_assoc]

theorem lastFor_of_unnamed_after (before : List Flag) {flag : Flag} {after : List Flag}
    (h : ∀ later ∈ after, later.name ≠ flag.name) :
    lastFor flag.name (before ++ flag :: after) = some flag := by
  rw [lastFor_append, lastFor, lastFor_eq_none h, if_pos rfl]
  rfl

theorem get?_apply_of_last {bundle result : Bundle} {before : List Flag} {flag : Flag}
    {after : List Flag} (h : bundle.apply (before ++ flag :: after) = .ok result)
    (hlast : ∀ later ∈ after, later.name ≠ flag.name) :
    ∃ value, bundle.Gives flag value ∧ result.get? flag.name = some value := by
  obtain ⟨value, hvalue, hget⟩ := get?_apply_of_lastFor h (lastFor_of_unnamed_after before hlast)
  exact ⟨value, resolve_eq_ok_iff.mp hvalue, hget⟩

/-! ### The order of the flags -/

/-- The same flags in another order that is the same among the flags for each option. -/
def Rearranged (flags others : List Flag) : Prop :=
  ∀ name, flags.filter (·.name = name) = others.filter (·.name = name)

theorem Rearranged.perm {flags others : List Flag} (h : Rearranged flags others) :
    flags.Perm others := by
  refine List.perm_iff_count.mpr ?_
  intro flag
  have hcount : ∀ list : List Flag,
      (list.filter (·.name = flag.name)).count flag = list.count flag := fun list =>
    List.count_filter (decide_eq_true rfl)
  rw [← hcount flags, ← hcount others, h flag.name]

private theorem lastFor_eq_getLast?_filter (name : OptionName) (flags : List Flag) :
    lastFor name flags = (flags.filter (·.name = name)).getLast? := by
  induction flags with
  | nil => rfl
  | cons flag rest ih =>
      rw [lastFor, ih]
      by_cases hname : flag.name = name
      · rw [List.filter_cons_of_pos (by simpa using hname), if_pos hname, List.getLast?_cons]
        cases (rest.filter (·.name = name)).getLast? <;> rfl
      · rw [List.filter_cons_of_neg (by simpa using hname), if_neg hname, Option.or_none]

/-- A new order of the flags for different options changes nothing in what comes out. -/
theorem apply_rearranged {bundle result : Bundle} {flags others : List Flag}
    (h : Rearranged flags others) (happly : bundle.apply flags = .ok result) :
    bundle.apply others = .ok result := by
  have hreads : ∀ flag ∈ others, ∃ value, bundle.resolve flag = .ok value := fun flag hflag =>
    exists_apply_iff.mp ⟨result, happly⟩ flag (h.perm.mem_iff.mpr hflag)
  obtain ⟨other, hother⟩ := exists_apply_iff.mpr hreads
  rw [hother]
  congr 1
  refine ((sameShape_apply hother).trans (sameShape_apply happly).symm).ext ?_
  intro name
  rw [get?_apply hother, get?_apply happly, lastFor_eq_getLast?_filter,
    lastFor_eq_getLast?_filter, h name]

/--
**A list of flags is applied as one assignment.**  There is a result exactly when every
flag gives a value in the bundle at the start, and otherwise the error is the one that
the first flag giving none has by itself.  The result has the shape of the bundle; an
option has the value that the last flag for it gives, or what it had when there is none.
So flags for different options can change places.
-/
theorem apply_assigns (bundle : Bundle) (flags : List Flag) :
    ((∃ result, bundle.apply flags = .ok result) ↔
      ∀ flag ∈ flags, ∃ value, bundle.Gives flag value) ∧
    (∀ e, bundle.apply flags = .error e ↔
      ∃ before flag after, flags = before ++ flag :: after ∧
        (∀ earlier ∈ before, ∃ value, bundle.Gives earlier value) ∧
        (¬ ∃ value, bundle.Gives flag value) ∧ bundle.apply [flag] = .error e) ∧
    (∀ result, bundle.apply flags = .ok result →
      SameShape result bundle ∧
      (∀ before flag after, flags = before ++ flag :: after →
        (∀ later ∈ after, later.name ≠ flag.name) →
        ∃ value, bundle.Gives flag value ∧ result.get? flag.name = some value) ∧
      ∀ name, (∀ flag ∈ flags, flag.name ≠ name) → result.get? name = bundle.get? name) ∧
    ∀ others, Rearranged flags others →
      (bundle.apply others).toOption = (bundle.apply flags).toOption := by
  refine ⟨exists_apply_iff_gives, ?blame, ?result, ?order⟩
  case blame =>
    intro e
    rw [apply_eq_error_iff]
    simp only [resolve_eq_ok_iff, apply_singleton_eq_error_iff]
    constructor
    · rintro ⟨before, flag, after, hsplit, hbefore, hflag⟩
      refine ⟨before, flag, after, hsplit, hbefore, ?_, hflag⟩
      rintro ⟨value, hvalue⟩
      rw [resolve_eq_ok_iff.mpr hvalue] at hflag
      cases hflag
    · rintro ⟨before, flag, after, hsplit, hbefore, -, hflag⟩
      exact ⟨before, flag, after, hsplit, hbefore, hflag⟩
  case result =>
    intro result happly
    refine ⟨sameShape_apply happly, ?_, ?_⟩
    · rintro before flag after rfl hlast
      exact get?_apply_of_last happly hlast
    · intro name hnamed
      exact get?_apply_of_unnamed happly hnamed
  case order =>
    intro others h
    cases happly : bundle.apply flags with
    | ok result => rw [apply_rearranged h happly]
    | error e =>
        cases hother : bundle.apply others with
        | error other => rfl
        | ok result =>
            have hback := apply_rearranged (fun name => (h name).symm) hother
            rw [happly] at hback
            cases hback

end BuildConfig.Bundle
