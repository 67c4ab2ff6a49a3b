/-
Kinds of values.

An option holds values of one kind and never of another.  The kind is what a text is read
as when it is meant for the option, and errors call it by its name.
-/

namespace BuildConfig

/-- The kinds of values that an option can hold. -/
inductive Kind
  | bool
  | int
  | string
  | label
  | labels
  deriving DecidableEq

/-- The name of a kind, as errors show it. -/
def Kind.name : Kind → String
  | bool => "bool"
  | int => "int"
  | string => "string"
  | label => "label"
  | labels => "label list"

end BuildConfig
