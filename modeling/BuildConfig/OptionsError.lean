/-
What can be wrong with options.

An error says what went wrong in terms of the options; the wording is one function,
`OptionsError.message`, and nothing else in the library builds the text of such an
error.  `reported` is for errors that arose elsewhere and of which only the text is
known.
-/
import BuildConfig.Kind
import BuildConfig.OptionName

namespace BuildConfig

/-- Option values are malformed, or do not fit the options they are meant for. -/
inductive OptionsError
  /-- The text is no label. -/
  | notALabel (text : String)
  /-- The text does not begin like a flag. -/
  | notAFlag (text : String)
  /-- The flag has no point between a fragment and an option. -/
  | unnamedOption (flag : String)
  /-- The fragment or the option of the flag is empty or has a character that names do not have. -/
  | malformedName (flag : String)
  /-- The text is no truth value. -/
  | notABoolean (raw : String)
  /-- The text is no whole number of sixty-four bits. -/
  | notAnInteger (raw : String)
  /-- The bundle does not have the fragment. -/
  | unknownFragment (fragment : String)
  /-- The bundle does not have the option. -/
  | unrecognized (name : OptionName)
  /-- The option holds values of another kind. -/
  | kindMismatch (name : OptionName) (expected got : Kind)
  /-- The value of the flag could not be read. -/
  | inFlag (flag : String) (cause : OptionsError)
  /-- A transition wrote to a fragment that it did not declare. -/
  | undeclaredFragment (fragment : String)
  /-- A batch was mapped, but has no configuration of this name. -/
  | unmapped (name : String)
  /-- An error that arose elsewhere. -/
  | reported (text : String)
  deriving DecidableEq

namespace OptionsError

/-- The wording of an error. -/
def message : OptionsError → String
  | notALabel text => s!"'{text}' is not a valid label"
  | notAFlag text => s!"'{text}' is not a flag"
  | unnamedOption flag => s!"flag '{flag}' must name an option as 'fragment.option'"
  | malformedName flag => s!"flag '{flag}' has a malformed option name"
  | notABoolean raw => s!"'{raw}' is not a boolean"
  | notAnInteger raw => s!"'{raw}' is not an integer"
  | unknownFragment fragment => s!"unknown options fragment '{fragment}'"
  | unrecognized name => s!"unrecognized option '{name.text}'"
  | kindMismatch name expected got =>
    s!"option '{name.text}' expects a {expected.name}, got a {got.name}"
  | inFlag flag cause => s!"while parsing '{flag}': {cause.message}"
  | undeclaredFragment fragment => s!"transition produced undeclared fragment '{fragment}'"
  | unmapped name => s!"mapping produced no '{name}' configuration"
  | reported text => text

/-- The message with what it is about in front. -/
def text (e : OptionsError) : String :=
  "Invalid options: " ++ e.message

end OptionsError

end BuildConfig
