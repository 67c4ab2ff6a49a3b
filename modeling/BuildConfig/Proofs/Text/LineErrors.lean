/-
An error on a line is about the first wrong line.

Rule files and books are read by one line after the other, and a reader stops at the first
line that it cannot take: `takeEach` is that loop, and both readers are instances of it.  All
that the loop has seen by then is the lines up to the wrong one, so whatever comes after them
makes no difference, and without the wrong line there is nothing wrong so far
(`takeEach_stops`).

A reader can still be dissatisfied at the end of the text.  This is another kind of error, and
it comes after all lines, so it neither hides an error on a line nor is taken for one.
-/
import BuildConfig.Mapping.Reader
import BuildConfig.Proofs.Text.Numbering
import BuildConfig.Transition.Custom

namespace BuildConfig

namespace Text

/-- The line of this number has something on it besides blanks and a comment, and it is this. -/
def Shows (text : String) (number : Nat) (shown : String) : Prop :=
  0 < number ∧ ∃ cs, (lines text)[number - 1]? = some cs ∧ content cs ≠ [] ∧
    String.ofList (content cs) = shown

/-! ### Reading line by line -/

section

variable {σ π ε : Type} {take : σ → Line → Except π σ} {wrong : Line → π → ε}

/-- Takes one line after the other, up to the first that is wrong. -/
def takeEach (take : σ → Line → Except π σ) (wrong : Line → π → ε) (state : σ) :
    List Line → Except ε σ
  | [] => .ok state
  | line :: rest =>
    match take state line with
    | .error problem => .error (wrong line problem)
    | .ok next => takeEach take wrong next rest

theorem takeEach_append_of_error {state : σ} {earlier later : List Line} {e : ε}
    (h : takeEach take wrong state earlier = .error e) :
    takeEach take wrong state (earlier ++ later) = .error e := by
  induction earlier generalizing state with
  | nil => cases h
  | cons line rest ih =>
      rw [takeEach] at h
      rw [List.cons_append, takeEach]
      cases htake : take state line with
      | error problem => rwa [htake] at h
      | ok next => exact ih (by rwa [htake] at h)

/-- An error is that of a line which the reader comes to and cannot take. -/
private theorem exists_of_takeEach_eq_error {state : σ} {lines : List Line} {e : ε}
    (h : takeEach take wrong state lines = .error e) :
    ∃ earlier line later problem, lines = earlier ++ line :: later ∧ e = wrong line problem ∧
      (∃ reached, takeEach take wrong state earlier = .ok reached) ∧
      takeEach take wrong state (earlier ++ [line]) = .error e := by
  induction lines generalizing state with
  | nil => cases h
  | cons line rest ih =>
      rw [takeEach] at h
      cases htake : take state line with
      | error problem =>
          rw [htake] at h
          refine ⟨[], line, rest, problem, rfl, (Except.error.inj h).symm, ⟨state, rfl⟩, ?_⟩
          rw [List.nil_append, takeEach, htake]
          exact h
      | ok next =>
          rw [htake] at h
          obtain ⟨earlier, wrongLine, later, problem, rfl, he, ⟨reached, hreached⟩, herror⟩ := ih h
          refine ⟨line :: earlier, wrongLine, later, problem, rfl, he, ⟨reached, ?_⟩, ?_⟩
          · rw [takeEach, htake]
            exact hreached
          · rw [List.cons_append, takeEach, htake]
            exact herror

/--
**A reader stops at a line of the text, and the lines after it do not matter.**  The error is
the same in all texts with the same lines up to there, and before that line there is none.
-/
theorem takeEach_stops {state : σ} {text : String} {e : ε}
    (h : takeEach take wrong state (significant text) = .error e) :
    ∃ line problem, e = wrong line problem ∧ Shows text line.number line.shown ∧
      (∀ other, (lines other).take line.number = (lines text).take line.number →
        takeEach take wrong state (significant other) = .error e) ∧
      ∃ reached,
        takeEach take wrong state (significant (before line.number text)) = .ok reached := by
  obtain ⟨earlier, line, later, problem, hlines, he, hreached, herror⟩ :=
    exists_of_takeEach_eq_error h
  rw [significant_eq] at hlines
  obtain ⟨ys, cs, zs, htext, hearlier, rfl, hcs⟩ := exists_of_significantFrom_eq hlines
  have hnumber : 1 + ys.length - 1 = ys.length := by omega
  have hline : significantFrom (1 + ys.length) [cs] = [⟨1 + ys.length, content cs⟩] := by
    simp [significantFrom, hcs]
  refine ⟨_, problem, he, ⟨Nat.le_add_right 1 ys.length, cs, ?_, hcs, rfl⟩, ?_, ?_⟩
  · simp [htext, hnumber]
  · intro other hother
    have htake : (lines text).take (1 + ys.length) = ys ++ [cs] := by
      rw [htext, Nat.add_comm, List.take_length_add_append]
      rfl
    rw [significant_eq, ← List.take_append_drop (1 + ys.length) (lines other), hother, htake,
      significantFrom_append, significantFrom_append, hearlier, hline]
    exact takeEach_append_of_error herror
  · rw [significant_eq, lines_before, htext, hnumber, List.take_left, hearlier]
    exact hreached

/-- The error is about this line, and apart from it there is at most the error at the end. -/
structure FailsAt {α : Type} (read : String → Except ε α) (atEnd : ε) (text : String) (number : Nat)
    (shown : String) (e : ε) : Prop where
  shows : Shows text number shown
  /-- What comes after the line does not matter. -/
  same : ∀ other, (lines other).take number = (lines text).take number → read other = .error e
  /-- What comes before the line is not wrong. -/
  earlier : (∃ a, read (before number text) = .ok a) ∨ read (before number text) = .error atEnd

/-- All errors but the one at the end are about a line. -/
theorem failsAt_of_read {α : Type} {read : String → Except ε α} {start : σ}
    {finish : σ → Except ε α} {atEnd : ε}
    (hread : ∀ text, read text = (takeEach take wrong start (significant text)).bind finish)
    (hfinish : ∀ reached, (∃ a, finish reached = .ok a) ∨ finish reached = .error atEnd)
    {text : String} {e : ε} (h : read text = .error e) (hne : e ≠ atEnd) :
    ∃ line problem, e = wrong line problem ∧ FailsAt read atEnd text line.number line.shown e := by
  have hstop : takeEach take wrong start (significant text) = .error e := by
    rw [hread] at h
    cases htaken : takeEach take wrong start (significant text) with
    | error first =>
        rw [htaken] at h
        obtain rfl : first = e := Except.error.inj h
        rfl
    | ok reached =>
        rw [htaken] at h
        rcases hfinish reached with ⟨a, hok⟩ | hend
        · exact nomatch hok.symm.trans h
        · exact absurd (Except.error.inj (h.symm.trans hend)) hne
  obtain ⟨line, problem, he, hshows, hsame, reached, hreached⟩ := takeEach_stops hstop
  refine ⟨line, problem, he, hshows, ?_, ?_⟩
  · intro other hother
    rw [hread, hsame other hother]
    rfl
  · rw [hread, hreached]
    exact hfinish reached

end

end Text

/-! ### The two readers -/

theorem Mapping.Reading.takeAll_eq_takeEach (reading : Reading) (lines : List Text.Line) :
    reading.takeAll lines = Text.takeEach Reading.take
      (fun line problem => MappingError.onLine line.number line.shown problem) reading lines := by
  induction lines generalizing reading with
  | nil => rfl
  | cons line rest ih =>
      rw [Reading.takeAll, Text.takeEach]
      cases reading.take line with
      | error problem => rfl
      | ok next => exact ih next

/-- Of a rule file that has been read nothing can be wrong but its end. -/
private theorem Mapping.Reading.finish_cases (reading : Reading) :
    (∃ rules, reading.finish = .ok rules) ∨ reading.finish = .error .unfinished := by
  unfold Reading.finish
  split
  · exact Or.inl ⟨reading.rules, rfl⟩
  · exact Or.inr rfl

theorem Transition.takeLines_eq_takeEach (book : Label) (defined : List Custom)
    (lines : List Text.Line) :
    takeLines book defined lines = Text.takeEach takeLine
      (fun line problem => LoadError.onLine book line.number line.shown problem) defined lines := by
  induction lines generalizing defined with
  | nil => rfl
  | cons line rest ih =>
      rw [takeLines, Text.takeEach]
      cases takeLine defined line with
      | error problem => rfl
      | ok next => exact ih next

/-- The transition of a name among those that are defined. -/
def Transition.pick (book : Label) (name : String) (defined : List Custom) :
    Except LoadError Custom :=
  match defined.find? (·.name == name) with
  | some custom => .ok custom
  | none => .error (.undefined book name)

private theorem Transition.pick_cases (book : Label) (name : String) (defined : List Custom) :
    (∃ custom, pick book name defined = .ok custom) ∨
      pick book name defined = .error (.undefined book name) := by
  unfold pick
  split
  · rename_i custom _
    exact Or.inl ⟨custom, rfl⟩
  · exact Or.inr rfl

namespace Text

open Mapping Transition

private theorem read_eq_bind (text : String) :
    Rules.read text = (takeEach Reading.take
      (fun line problem => MappingError.onLine line.number line.shown problem) Reading.start
      (significant text)).bind Reading.finish := by
  rw [Rules.read, ← Reading.takeAll_eq_takeEach]
  cases Reading.start.takeAll (significant text) <;> rfl

private theorem find_eq_bind (book : Label) (name source : String) :
    (Book.mk book source).find name = (takeEach takeLine
      (fun line problem => LoadError.onLine book line.number line.shown problem) []
      (significant source)).bind (pick book name) := by
  rw [Book.find, Book.definitions, ← takeLines_eq_takeEach]
  cases takeLines book [] (significant source) <;> rfl

/--
**An error on a line is about the first wrong line, and nothing after it matters.**  A text that
ends before the line is accepted or else refused because it ends there: a rule file because
flags have no platform yet, a book because the transition is not in it.
-/
theorem fails_at_first_wrong_line :
    (∀ text n shown problem, Rules.read text = .error (.onLine n shown problem) →
      FailsAt Rules.read .unfinished text n shown (.onLine n shown problem)) ∧
    ∀ (book : Book) name label n shown problem,
      book.find name = .error (.onLine label n shown problem) →
      label = book.label ∧
        FailsAt (fun source => (Book.mk book.label source).find name)
          (.undefined book.label name) book.source n shown (.onLine label n shown problem) := by
  refine ⟨?_, ?_⟩
  · intro text n shown problem h
    obtain ⟨line, _, he, hfails⟩ := failsAt_of_read read_eq_bind Reading.finish_cases h nofun
    cases he
    exact hfails
  · intro book name label n shown problem h
    obtain ⟨line, _, he, hfails⟩ :=
      failsAt_of_read (find_eq_bind book.label name) (pick_cases book.label name) h nofun
    cases he
    exact ⟨rfl, hfails⟩

/-- Flags lack a platform, which is said at the header after the blank line. -/
def danglingText : String :=
  "flags:\n  --core.cpu=arm # 32 bits\n\nplatforms:\n"

/-- The second header has the name of the first. -/
def repeatingBook : Book :=
  ⟨⟨"//p:book", rfl⟩, "[exec]\n--core.cpu=arm\n[ exec ]\n[other]"⟩

/-- Up to the wrong line the rules end too early, and the book is all right. -/
theorem fails_at_first_wrong_line_of_headers :
    (Rules.read danglingText = .error (.onLine 4 "platforms:" .flagsWithoutPlatform) ∧
      FailsAt Rules.read .unfinished danglingText 4 "platforms:"
        (.onLine 4 "platforms:" .flagsWithoutPlatform)) ∧
    (repeatingBook.find "exec" = .error (.onLine repeatingBook.label 3 "[ exec ]" .definedTwice) ∧
      FailsAt (fun source => (Book.mk repeatingBook.label source).find "exec")
        (.undefined repeatingBook.label "exec") repeatingBook.source 3 "[ exec ]"
        (.onLine repeatingBook.label 3 "[ exec ]" .definedTwice)) := by
  have hread : Rules.read danglingText = .error (.onLine 4 "platforms:" .flagsWithoutPlatform) :=
    rfl
  have hfind : repeatingBook.find "exec" =
      .error (.onLine repeatingBook.label 3 "[ exec ]" .definedTwice) := rfl
  exact ⟨⟨hread, fails_at_first_wrong_line.1 _ _ _ _ hread⟩, hfind,
    (fails_at_first_wrong_line.2 _ _ _ _ _ _ hfind).2⟩

end Text

end BuildConfig
