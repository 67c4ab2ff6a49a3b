/-
What can be wrong with platform mapping rules.

Most errors belong to a line and show it together with its number.  The one error that
does not is found only at the end of the text.
-/
import BuildConfig.OptionsError

namespace BuildConfig

/-- What is wrong with a line of a rule file. -/
inductive RuleProblem
  /-- Flags are followed by a header where a platform should be. -/
  | flagsWithoutPlatform
  /-- There is no header before the line. -/
  | outsideSections
  /-- A platform's flag changes the selected platforms. -/
  | selectsPlatform
  /-- A flag is not below a platform. -/
  | flagWithoutPlatform
  /-- A platform has been mapped before. -/
  | mappedTwice
  /-- A platform is not below any flags. -/
  | platformWithoutFlags
  /-- The flag or label on the line is malformed. -/
  | malformed (cause : OptionsError)
  deriving DecidableEq

/-- The wording of a problem. -/
def RuleProblem.message : RuleProblem → String
  | flagsWithoutPlatform => "flags are not followed by a platform"
  | outsideSections => "expected 'platforms:' or 'flags:'"
  | selectsPlatform => "a platform mapping cannot select another platform"
  | flagWithoutPlatform => "flag is not preceded by a platform"
  | mappedTwice => "platform is mapped more than once"
  | platformWithoutFlags => "platform is not preceded by any flags"
  | malformed cause => cause.message

/-- Platform mapping rules are malformed. -/
inductive MappingError
  /-- A line is wrong. -/
  | onLine (number : Nat) (line : String) (problem : RuleProblem)
  /-- The text ends where a platform should be. -/
  | unfinished
  /-- An error that arose elsewhere. -/
  | reported (text : String)
  deriving DecidableEq

namespace MappingError

/-- The wording of an error. -/
def message : MappingError → String
  | onLine number line problem => s!"line {number}: {problem.message}: '{line}'"
  | unfinished => "flags at the end of the file are not followed by a platform"
  | reported text => text

/-- The message with what it is about in front. -/
def text (e : MappingError) : String :=
  "Platform mapping failed: " ++ e.message

end MappingError

end BuildConfig
