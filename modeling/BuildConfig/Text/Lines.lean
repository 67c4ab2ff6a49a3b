/-
The significant lines of a text.

Rule files and transition modules are read line by line.  A line ends at a line
feed; what follows a `#` is a comment; blanks at the ends do not count, and neither
does a line on which nothing else is left.  A carriage return before the line feed
needs no rule of its own, because it is a blank at the end of its line.

A line keeps the number it has in the text, counted from one, so that an error can
name it whatever was skipped before it.
-/
import BuildConfig.Text.Blank
import BuildConfig.Text.Split

namespace BuildConfig.Text

/-- A line with its number in the text, counted from one. -/
structure Line where
  number : Nat
  chars : List Char
  deriving DecidableEq

namespace Line

/-- What stands on the line, as the text an error shows. -/
def shown (line : Line) : String :=
  String.ofList line.chars

end Line

/-- A line without its comment and without the blanks at its ends. -/
def content (cs : List Char) : List Char :=
  match cut? '#' cs with
  | some (before, _) => trim before
  | none => trim cs

/-- The contents of the lines that have any, with their numbers from `first` on. -/
def significantFrom (first : Nat) : List (List Char) → List Line
  | [] => []
  | cs :: rest =>
    if (content cs).isEmpty then significantFrom (first + 1) rest
    else ⟨first, content cs⟩ :: significantFrom (first + 1) rest

/-- The significant lines of a text, in order. -/
def significant (text : String) : List Line :=
  significantFrom 1 (pieces '\n' text.toList)

/-! ### Numbering -/

/-- Lines before a point do not depend on what follows it. -/
theorem significantFrom_append (first : Nat) (xs ys : List (List Char)) :
    significantFrom first (xs ++ ys) =
      significantFrom first xs ++ significantFrom (first + xs.length) ys := by
  induction xs generalizing first with
  | nil => simp [significantFrom]
  | cons cs xs ih =>
    have hsum : first + 1 + xs.length = first + (xs.length + 1) := by omega
    by_cases h : (content cs).isEmpty
    · simp [significantFrom, h, ih, hsum]
    · simp [significantFrom, h, ih, hsum]

end BuildConfig.Text
