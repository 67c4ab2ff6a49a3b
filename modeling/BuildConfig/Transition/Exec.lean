/-
The transition onto an execution platform.

A custom transition comes first, if there is one.  What makes a configuration one for an
execution platform is set after it, so a custom transition cannot undo it.
-/
import BuildConfig.Transition.Patch
import BuildConfig.Transition.Custom

namespace BuildConfig.Transition

/-- The move of a bundle onto an execution platform. -/
structure Exec where
  platform : Label
  custom : Option Custom

namespace Exec

/-- The fragments of the exec settings, and those of the custom transition not among them. -/
def fragments (exec : Exec) : List String :=
  let own := [OptionName.core, OptionName.platform]
  match exec.custom with
  | none => own
  | some custom => own ++ custom.fragments.filter fun fragment => !own.contains fragment

/-- The bundle with the compilation mode of tools, if it has such a mode. -/
def useHostMode (bundle : Bundle) : Except OptionsError Bundle :=
  match bundle.get? .hostCompilationMode with
  | some (.string mode) => bundle.withOption .compilationMode (.string mode)
  | _ => .ok bundle

/-- The bundle with the exec settings. -/
def settle (platform : Label) (bundle : Bundle) : Except OptionsError Bundle :=
  match bundle.withOption .isExec (.bool true) with
  | .error e => .error e
  | .ok bundle =>
    match useHostMode bundle with
    | .error e => .error e
    | .ok bundle => bundle.withPlatforms [platform]

/-- The bundle after the custom transition, if there is one. -/
def customize (exec : Exec) (bundle : Bundle) : Except OptionsError Bundle :=
  match exec.custom with
  | none => .ok bundle
  | some custom => custom.apply bundle

/-- The bundle moved onto the execution platform. -/
def run (exec : Exec) (bundle : Bundle) : Except OptionsError Bundle :=
  match exec.customize bundle with
  | .error e => .error e
  | .ok bundle => settle exec.platform bundle

/-- The move as a patch of the fragments that it is about. -/
def patch (exec : Exec) : Patch :=
  ⟨exec.fragments, exec.run⟩

end Exec

end BuildConfig.Transition
