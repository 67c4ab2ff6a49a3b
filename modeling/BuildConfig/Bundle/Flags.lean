/-
Flags applied to bundles.

The value of a flag is read as the kind of the option that it names, so a flag means
something only together with a bundle: `resolve` is that meaning.  Flags are applied in
order, each to the bundle that the ones before it left, and a later flag for the same
option replaces what an earlier one set.
-/
import BuildConfig.Flag
import BuildConfig.Bundle.Basic

namespace BuildConfig.Bundle

/-- The value that a flag gives to its option in the bundle. -/
def resolve (bundle : Bundle) (flag : Flag) : Except OptionsError Value :=
  match bundle.get? flag.name with
  | none => .error (.unrecognized flag.name)
  | some current =>
    match current.kind.read flag.value with
    | .error cause => .error (.inFlag flag.text cause)
    | .ok value => .ok value

/-- The bundle with one flag applied. -/
def applyFlag (bundle : Bundle) (flag : Flag) : Except OptionsError Bundle :=
  match bundle.resolve flag with
  | .error e => .error e
  | .ok value => bundle.withOption flag.name value

/-- The bundle with the flags applied in order. -/
def apply (bundle : Bundle) : List Flag → Except OptionsError Bundle
  | [] => .ok bundle
  | flag :: flags =>
    match bundle.applyFlag flag with
    | .error e => .error e
    | .ok next => next.apply flags

/-- Whether the option that the flag names holds the flag's value. -/
def holds (bundle : Bundle) (flag : Flag) : Except OptionsError Bool :=
  match bundle.resolve flag with
  | .error e => .error e
  | .ok value => .ok (bundle.get? flag.name == some value)

end BuildConfig.Bundle
