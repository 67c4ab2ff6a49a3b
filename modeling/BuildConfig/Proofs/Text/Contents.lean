/-
What a text says line by line, when the numbers of the lines do not matter.

Readers look at significant lines, which know where in the text they stand, so that an
error can say so.  A grammar is about what stands on them and nothing else.  `contents`
is that part of a text, and what a reader is shown of the lines.
-/
import BuildConfig.Text.Lines

namespace BuildConfig.Text

/-- What stands on the lines of a text, the lines with nothing but blanks and comments aside. -/
def contents (text : String) : List String :=
  (((pieces '\n' text.toList).map content).filter (!·.isEmpty)).map String.ofList

@[simp] theorem Line.toList_shown (line : Line) : line.shown.toList = line.chars :=
  String.toList_ofList

private theorem shown_significantFrom (first : Nat) (lines : List (List Char)) :
    (significantFrom first lines).map Line.shown =
      ((lines.map content).filter (!·.isEmpty)).map String.ofList := by
  induction lines generalizing first with
  | nil => rfl
  | cons cs rest ih =>
      by_cases h : (content cs).isEmpty
      · simp [significantFrom, h, ih]
      · simp [significantFrom, h, ih, Line.shown]

theorem shown_significant (text : String) : (significant text).map Line.shown = contents text :=
  shown_significantFrom 1 _

end BuildConfig.Text
