/-
Why an evaluation, or something it depends on, has no result.

An evaluation ends in one of four errors, of which only an interruption can go away by
trying again.  A failed dependency is known by its cause and by what was being done when
it failed.  Whoever asks for a dependency declares the kind of error that it can handle,
and is told about a failure only when its cause is of that kind: `Declared.ofCause?`
looks at the cause itself, not at the texts around it and not at failures inside it.
-/
import BuildConfig.Mapping.Error
import BuildConfig.Transition.Error

namespace BuildConfig

/-- Why a baseline could not be evaluated. -/
inductive EvaluationError
  | options (cause : OptionsError)
  | mapping (cause : MappingError)
  | load (cause : LoadError)
  | interrupted
  deriving DecidableEq

namespace EvaluationError

/-- The wording of an interruption. -/
def interruptedText : String :=
  "Evaluation was interrupted"

/-- The wording of an error. -/
def text : EvaluationError → String
  | options cause => cause.text
  | mapping cause => cause.text
  | load cause => cause.text
  | interrupted => interruptedText

/-- Whether the same evaluation would end in the same error again. -/
def persistent : EvaluationError → Bool
  | interrupted => false
  | _ => true

end EvaluationError

/-- The evaluation is being abandoned. -/
structure Interruption where
  deriving DecidableEq

/-- What made a dependency fail. -/
inductive Cause
  | options (e : OptionsError)
  | mapping (e : MappingError)
  | load (e : LoadError)
  | interrupted
  /-- The evaluation of a baseline failed. -/
  | evaluation (e : EvaluationError)
  /-- Another dependency failed, while the things in the texts were being done, innermost first. -/
  | dependency (cause : Cause) (contexts : List String)
  /-- An error of another kind, of which only the text is known. -/
  | other (text : String)
  deriving DecidableEq

/-- What was being done, from the outside in, and then what went wrong. -/
def chain (contexts : List String) (cause : String) : String :=
  ": ".intercalate (contexts.reverse ++ [cause])

/-- The wording of a cause. -/
def Cause.text : Cause → String
  | options e => e.text
  | mapping e => e.text
  | load e => e.text
  | interrupted => EvaluationError.interruptedText
  | evaluation e => e.text
  | dependency cause contexts => chain contexts cause.text
  | other text => text

/-- A dependency that failed, and what was being done then, innermost first. -/
structure Failure where
  cause : Cause
  contexts : List String
  deriving DecidableEq

/-- The wording of a failure. -/
def Failure.text (failure : Failure) : String :=
  chain failure.contexts failure.cause.text

/-- A kind of error that can be declared when a dependency is asked for. -/
class Declared (ε : Type) where
  /-- The error that a cause is, if it is of this kind. -/
  ofCause? : Cause → Option ε

namespace Declared

/-- No error is declared. -/
instance : Declared Empty :=
  ⟨fun _ => none⟩

instance : Declared OptionsError where
  ofCause?
    | .options e => some e
    | _ => none

instance : Declared MappingError where
  ofCause?
    | .mapping e => some e
    | _ => none

instance : Declared LoadError where
  ofCause?
    | .load e => some e
    | _ => none

instance : Declared Interruption where
  ofCause?
    | .interrupted => some ⟨⟩
    | _ => none

end Declared

end BuildConfig
