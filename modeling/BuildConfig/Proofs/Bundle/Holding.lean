/-
The flags that a bundle holds, and the flags that were applied to it.

A bundle holds a flag when the flag's option has the value that the flag gives.  To apply
flags is to make them hold, but not all of them at once, as several flags may be for one
option.  `holds_apply_iff` says which ones hold in the end: those that give what the last
flag for their option gives, be it in another spelling.  The last ones themselves are
among these.

What the flags ask of a bundle (`Obeys`) is that it holds the last ones.  A result obeys
the flags that were applied, and a bundle that holds all flags obeys them; in both cases
applying the flags changes nothing.
-/
import BuildConfig.Proofs.Bundle.Assignment

namespace BuildConfig.Bundle

variable {bundle result : Bundle} {flags : List Flag}

/-- Of the flags that were applied those hold that agree with the last one for their option. -/
theorem holds_apply_iff (h : bundle.apply flags = .ok result) {flag last : Flag}
    (hlast : lastFor flag.name flags = some last) :
    result.holds flag = .ok true ↔ bundle.resolve flag = bundle.resolve last := by
  obtain ⟨value, hvalue, hget⟩ := get?_apply_of_lastFor h hlast
  have hresolve : result.resolve flag = bundle.resolve flag :=
    resolve_congr ((sameShape_apply h).kindAt flag.name)
  rw [holds_eq_true_iff, hresolve, hget, hvalue]
  constructor
  · rintro ⟨other, hother, hsame⟩
    rw [hother, Option.some.inj hsame]
  · intro hflag
    exact ⟨value, hflag, rfl⟩

/-- A bundle that holds all flags obeys them, since it holds the last ones. -/
theorem obeys_of_holds (h : ∀ flag ∈ flags, bundle.holds flag = .ok true) : bundle.Obeys flags := by
  refine ⟨?_, ?_⟩
  · intro flag hflag
    obtain ⟨value, hvalue, -⟩ := holds_eq_true_iff.mp (h flag hflag)
    exact ⟨value, hvalue⟩
  · intro name flag hlast
    exact h flag (lastFor_mem hlast).1

/--
**Applying flags and holding them agree.**  Applied to their own result, flags change
nothing, and of the flags for one option the result holds the last.  A bundle that holds
all of the flags is not changed by them in the first place.
-/
theorem apply_agrees_holds (bundle : Bundle) (flags : List Flag) :
    (∀ result, bundle.apply flags = .ok result →
      result.apply flags = .ok result ∧
      ∀ before flag after, flags = before ++ flag :: after →
        (∀ later ∈ after, later.name ≠ flag.name) → result.holds flag = .ok true) ∧
    ((∀ flag ∈ flags, bundle.holds flag = .ok true) → bundle.apply flags = .ok bundle) := by
  refine ⟨?_, ?_⟩
  · intro result h
    refine ⟨apply_eq_self_iff.mpr (obeys_of_apply h), ?_⟩
    rintro before flag after rfl hlater
    exact (holds_apply_iff h (lastFor_of_unnamed_after before hlater)).mpr rfl
  · intro h
    exact apply_eq_self_iff.mpr (obeys_of_holds h)

/-- A bundle with one option. -/
def execBundle (isExec : Bool) : Bundle :=
  Bundle.empty.set .isExec (.bool isExec)

/-- Flags for this option, the last two of which give one value in two spellings. -/
def execFlags : List Flag :=
  [⟨.isExec, "no"⟩, ⟨.isExec, "yes"⟩, ⟨.isExec, "1"⟩]

/-- The result holds the last flag, and the flags change nothing in it. -/
theorem apply_agrees_holds_of_exec :
    (execBundle false).apply execFlags = .ok (execBundle true) ∧
      (execBundle true).apply execFlags = .ok (execBundle true) ∧
      (execBundle true).holds ⟨.isExec, "1"⟩ = .ok true := by
  have happly : (execBundle false).apply execFlags = .ok (execBundle true) := rfl
  obtain ⟨hagain, hholds⟩ := (apply_agrees_holds _ _).1 _ happly
  exact ⟨happly, hagain, hholds [⟨.isExec, "no"⟩, ⟨.isExec, "yes"⟩] _ [] rfl nofun⟩

end BuildConfig.Bundle
