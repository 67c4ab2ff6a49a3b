/-
Keys, by which evaluations ask for what they depend on.

Every key has a type of values, so an answer can only be of the type that was asked for.
Keys of different sorts are never the same, whatever they hold.  Two keys of rules are
the same when they name the same place, however its path is written; all other keys are
the same when they are equal.
-/
import BuildConfig.Mapping.Location
import BuildConfig.Mapping.Rules
import BuildConfig.Transition.Custom

namespace BuildConfig

/-- What an evaluation can ask for. -/
inductive Key
  /-- The options of the build, before anything is done with them. -/
  | baseline
  /-- The platform mapping rules at a place. -/
  | rules (location : Mapping.Location)
  /-- The book of transitions with a label. -/
  | book (label : Label)
  /-- The text of this name on a shelf; each shelf is a sort of its own. -/
  | note (shelf name : String)
  deriving DecidableEq

namespace Key

/-- The values that a key has. -/
abbrev Value : Key → Type
  | baseline => Bundle
  | rules _ => Mapping.Rules
  | book _ => Transition.Book
  | note _ _ => String

/-- What a key is compared by. -/
inductive Identity
  | baseline
  | rules (place : Option Mapping.Path)
  | book (label : Label)
  | note (shelf name : String)
  deriving DecidableEq

/-- The identity of a key. -/
def identity : Key → Identity
  | baseline => .baseline
  | rules location => .rules location.place
  | book label => .book label
  | note shelf name => .note shelf name

/-- Whether two keys ask for the same thing. -/
def same (a b : Key) : Bool :=
  a.identity == b.identity

theorem same_iff {a b : Key} : a.same b = true ↔ a.identity = b.identity := by
  simp [same]

/-- Keys that ask for the same thing have the same values. -/
theorem value_eq_of_same {a b : Key} (h : a.same b = true) : a.Value = b.Value := by
  have h := same_iff.1 h
  cases a <;> cases b <;> first | rfl | cases h

/-- The key as it stands in descriptions. -/
def describe : Key → String
  | baseline => "PrecomputedBaselineKey"
  | rules location => location.describe
  | book label => "TransitionModuleKey \x7b label: " ++ label.describe ++ " \x7d"
  | note shelf name => shelf ++ "(" ++ Text.Quoted.quote name ++ ")"

end Key

end BuildConfig
