/-
Custom transitions, and the books that define them.

A custom transition is a list of flags with a name.  A book is a text of definitions: a
header with the name in square brackets, and below it the flags.  All of a book is read
before anything is looked up in it, so a wrong line is an error for every name.
-/
import BuildConfig.Text.Lines
import BuildConfig.Bundle.Flags
import BuildConfig.Transition.Error

namespace BuildConfig.Transition

/-- Flags under a name. -/
structure Custom where
  name : String
  flags : List Flag
  deriving DecidableEq

namespace Custom

/-- The fragments that the transition writes, in the order in which it first does. -/
def fragments (custom : Custom) : List String :=
  (custom.flags.map fun flag => flag.name.fragment).eraseDups

/-- The bundle with the flags applied. -/
def apply (custom : Custom) (bundle : Bundle) : Except OptionsError Bundle :=
  bundle.apply custom.flags

end Custom

/-- A text of definitions, known by a label. -/
structure Book where
  label : Label
  source : String
  deriving DecidableEq

/-! ### Reading definitions

Transitions are collected in the order of their headers.  A flag belongs to the last one.
-/

/-- The name in a header, trimmed, if the line is one. -/
def headerName? : List Char → Option (List Char)
  | '[' :: rest => if rest.getLast? = some ']' then some (Text.trim rest.dropLast) else none
  | _ => none

/-- The transitions with a flag added to the last one, if there is one. -/
def addFlag? (flag : Flag) : List Custom → Option (List Custom)
  | [] => none
  | [last] => some [⟨last.name, last.flags ++ [flag]⟩]
  | custom :: rest => (addFlag? flag rest).map (custom :: ·)

/-- A header begins another transition. -/
def takeHeader (defined : List Custom) (name : List Char) :
    Except DefinitionProblem (List Custom) :=
  let name := String.ofList name
  if name.isEmpty then .error .unnamed
  else if defined.any (·.name == name) then .error .definedTwice
  else .ok (defined ++ [⟨name, []⟩])

/-- A line that is no header has to be a flag. -/
def takeFlag (defined : List Custom) (text : String) : Except DefinitionProblem (List Custom) :=
  match Flag.read text with
  | .error cause => .error (.malformed cause)
  | .ok flag =>
    match addFlag? flag defined with
    | none => .error .outsideTransitions
    | some next => .ok next

/-- The transitions defined after one more significant line. -/
def takeLine (defined : List Custom) (line : Text.Line) :
    Except DefinitionProblem (List Custom) :=
  match headerName? line.chars with
  | some name => takeHeader defined name
  | none => takeFlag defined line.shown

/-- The transitions defined after all the lines, or the error of the first that is wrong. -/
def takeLines (book : Label) (defined : List Custom) :
    List Text.Line → Except LoadError (List Custom)
  | [] => .ok defined
  | line :: lines =>
    match takeLine defined line with
    | .error problem => .error (.onLine book line.number line.shown problem)
    | .ok next => takeLines book next lines

namespace Book

/-- All transitions that the book defines. -/
def definitions (book : Book) : Except LoadError (List Custom) :=
  takeLines book.label [] (Text.significant book.source)

/-- The transition that the book defines under a name. -/
def find (book : Book) (name : String) : Except LoadError Custom :=
  match book.definitions with
  | .error e => .error e
  | .ok defined =>
    match defined.find? (·.name == name) with
    | some custom => .ok custom
    | none => .error (.undefined book.label name)

end Book

end BuildConfig.Transition
