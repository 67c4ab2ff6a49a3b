/-
Blank characters, and the text left when the blanks around it are dropped.

A character is blank when it carries the Unicode property White_Space.  The
property is a short list of ranges, so it is written here as that list: tab to
carriage return, the space, and the wider spaces and separators of the later
blocks.  Every reader of this library trims what it is given with `trim`, so that
no reader has to say what it does with blanks at the ends.
-/

namespace BuildConfig.Text

/-- The code points with the property White_Space, as closed ranges in ascending order. -/
def blankRanges : List (Nat × Nat) :=
  [(0x09, 0x0D), (0x20, 0x20), (0x85, 0x85), (0xA0, 0xA0), (0x1680, 0x1680),
   (0x2000, 0x200A), (0x2028, 0x2029), (0x202F, 0x202F), (0x205F, 0x205F), (0x3000, 0x3000)]

/-- A character is blank when its code point lies in one of the ranges. -/
def isBlank (c : Char) : Bool :=
  blankRanges.any fun (low, high) => low ≤ c.toNat && c.toNat ≤ high

/-- The text from its first character that is not blank. -/
def trimStart (cs : List Char) : List Char :=
  cs.dropWhile isBlank

/-- The text up to its last character that is not blank. -/
def trimEnd (cs : List Char) : List Char :=
  (trimStart cs.reverse).reverse

/-- The text without the blanks at its two ends. -/
def trim (cs : List Char) : List Char :=
  trimEnd (trimStart cs)

/-! ### What trimming does

Only blanks are dropped, and none is left at an end.
-/

/-- What is dropped in front is blank. -/
theorem trimStart_split (cs : List Char) :
    ∃ blanks, (∀ c ∈ blanks, isBlank c = true) ∧ cs = blanks ++ trimStart cs :=
  ⟨cs.takeWhile isBlank, fun _ h => List.all_eq_true.1 List.all_takeWhile _ h,
    List.takeWhile_append_dropWhile.symm⟩

/-- What is dropped behind is blank. -/
theorem trimEnd_split (cs : List Char) :
    ∃ blanks, (∀ c ∈ blanks, isBlank c = true) ∧ cs = trimEnd cs ++ blanks := by
  obtain ⟨blanks, hblank, hsplit⟩ := trimStart_split cs.reverse
  refine ⟨blanks.reverse, fun c hc => hblank c (List.mem_reverse.1 hc), ?_⟩
  rw [trimEnd, ← List.reverse_append, ← hsplit, List.reverse_reverse]

theorem head_trimStart {cs : List Char} {c : Char} (h : (trimStart cs).head? = some c) :
    isBlank c = false := by
  have := List.head?_dropWhile_not isBlank cs
  rw [trimStart] at h
  rw [h] at this
  simpa using this

end BuildConfig.Text
