/-
Transitions that declare what they touch.

A patch makes one bundle of another and says beforehand which fragments it reads and
writes.  `applyWithin` holds it to that: the patch sees only those fragments, an answer
with any other fragment is refused, and all the rest of the bundle stays as it was.
-/
import BuildConfig.Bundle.Flags
import BuildConfig.Bundle.View

namespace BuildConfig.Transition

/-- A function on bundles together with the fragments that it is about. -/
structure Patch where
  fragments : List String
  run : Bundle → Except OptionsError Bundle

namespace Patch

/-- The bundle with the patch applied to the declared fragments, and to nothing else. -/
def applyWithin (patch : Patch) (bundle : Bundle) : Except OptionsError Bundle :=
  match patch.run (bundle.restrict patch.fragments) with
  | .error e => .error e
  | .ok patched =>
    match patched.fragments.keys.find? fun fragment => !patch.fragments.contains fragment with
    | some fragment => .error (.undeclaredFragment fragment)
    | none => .ok (bundle.merge patched)

/-- The patch that applies flags and then takes over the fragments of another bundle. -/
def ofFlags (fragments : List String) (flags : List Flag) (adds : Bundle) : Patch where
  fragments := fragments
  run view := (view.apply flags).map fun patched => patched.merge adds

end Patch

end BuildConfig.Transition
