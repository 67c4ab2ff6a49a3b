/-
What can be wrong with the custom transition onto an execution platform.

Errors in the definitions belong to a line, which they show with its number and the book
that it stands in.
-/
import BuildConfig.Label

namespace BuildConfig

/-- What is wrong with a line of a book of transitions. -/
inductive DefinitionProblem
  /-- A header has no name. -/
  | unnamed
  /-- A transition has been defined before. -/
  | definedTwice
  /-- There is no header before the flag. -/
  | outsideTransitions
  /-- The flag on the line is malformed. -/
  | malformed (cause : OptionsError)
  deriving DecidableEq

/-- The wording of a problem. -/
def DefinitionProblem.message : DefinitionProblem → String
  | unnamed => "transition name is empty"
  | definedTwice => "transition is defined more than once"
  | outsideTransitions => "flag outside of a transition"
  | malformed cause => cause.message

/-- The custom transition could not be loaded. -/
inductive LoadError
  /-- A line is wrong. -/
  | onLine (book : Label) (number : Nat) (line : String) (problem : DefinitionProblem)
  /-- The book does not define the transition. -/
  | undefined (book : Label) (name : String)
  /-- The option does not name a transition in a book. -/
  | notAReference (text : String)
  /-- The book is not named by a label. -/
  | badBook (cause : OptionsError)
  /-- An error that arose elsewhere. -/
  | reported (text : String)
  deriving DecidableEq

namespace LoadError

/-- The wording of an error. -/
def message : LoadError → String
  | onLine book number line problem => s!"{book.text}:{number}: {problem.message}: '{line}'"
  | undefined book name => s!"module {book.text} does not define transition '{name}'"
  | notAReference text => s!"'{text}' is not of the form '<module>%<name>'"
  | badBook cause => cause.message
  | reported text => text

/-- The message with what it is about in front. -/
def text (e : LoadError) : String :=
  "Couldn't load exec transition: " ++ e.message

end LoadError

end BuildConfig
