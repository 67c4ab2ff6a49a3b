/-
Books are read by their grammar, whatever name is looked up.

The reader collects transitions, and what it has collected is always what it has read:
after one more line, the transitions are those that are written like the ones before with
the item of the line below (`takeLine_eq_ok_iff`).  Flags go to the last transition for
this reason alone, and cannot end up anywhere else.  An initial part of written
transitions is a list of written transitions itself, so the equation carries over from a
line to all lines (`takeLines_nil_eq_ok_iff`), which is the invariant of the loop.

The name that is looked up plays no part in this.  It only selects among the transitions
when all lines have been read, and as their names are distinct there is nothing to choose.
-/
import BuildConfig.Proofs.Text.Contents
import BuildConfig.Proofs.Transition.Grammar
import Mathlib.Data.List.Induction

namespace BuildConfig.Transition

/-! ### One line -/

section

variable {defined next : List Custom} {flag : Flag}

private theorem addFlag?_snoc (flag : Flag) (before : List Custom) (last : Custom) :
    addFlag? flag (before ++ [last]) =
      some (before ++ [⟨last.name, last.flags ++ [flag]⟩]) := by
  induction before with
  | nil => rfl
  | cons custom rest ih =>
      cases rest with
      | nil => rfl
      | cons second rest =>
          rw [List.cons_append, List.cons_append, addFlag?, ← List.cons_append, ih]
          · rfl
          · simp

/-- A flag is added where it is written: at the end of the last transition, if there is one. -/
private theorem addFlag?_eq_some_iff :
    addFlag? flag defined = some next ↔ written next = written defined ++ [.flag flag] := by
  rcases List.eq_nil_or_concat defined with rfl | ⟨before, last, rfl⟩
  · refine iff_of_false nofun ?_
    intro h
    cases next with
    | nil => cases h
    | cons custom rest => cases h
  · rw [List.concat_eq_append, addFlag?_snoc, Option.some.injEq, eq_comm, ← written_inj]
    simp

private theorem takeHeader_eq_ok_iff_eq_snoc {name : List Char} :
    takeHeader defined name = .ok next ↔
      (String.ofList name ≠ "" ∧ String.ofList name ∉ defined.map (·.name)) ∧
        next = defined ++ [⟨String.ofList name, []⟩] := by
  have hany : defined.any (·.name == String.ofList name) = true ↔
      String.ofList name ∈ defined.map (·.name) := by simp
  simp only [takeHeader, String.isEmpty_iff, hany]
  by_cases hempty : String.ofList name = ""
  · rw [if_pos hempty]
    exact iff_of_false nofun fun h => h.1.1 hempty
  rw [if_neg hempty]
  by_cases hold : String.ofList name ∈ defined.map (·.name)
  · rw [if_pos hold]
    exact iff_of_false nofun fun h => h.1.2 hold
  · rw [if_neg hold, Except.ok.injEq, eq_comm]
    exact (and_iff_right ⟨hempty, hold⟩).symm

theorem takeHeader_eq_ok_iff {name : List Char} (h : Regular defined) :
    takeHeader defined name = .ok next ↔
      written next = written defined ++ [.header (String.ofList name)] ∧ Regular next := by
  have hnext : written next = written defined ++ [.header (String.ofList name)] ↔
      next = defined ++ [⟨String.ofList name, []⟩] := by
    rw [← written_inj, written_append]
    simp
  rw [takeHeader_eq_ok_iff_eq_snoc, hnext]
  constructor
  · rintro ⟨hname, rfl⟩
    exact ⟨rfl, regular_snoc_iff.mpr ⟨hname, h⟩⟩
  · rintro ⟨rfl, hregular⟩
    exact ⟨(regular_snoc_iff.mp hregular).1, rfl⟩

private theorem takeFlag_eq_ok_iff {text : String} (h : Regular defined) :
    takeFlag defined text = .ok next ↔
      ∃ flag, Flag.read text = .ok flag ∧
        written next = written defined ++ [.flag flag] ∧ Regular next := by
  unfold takeFlag
  cases Flag.read text with
  | error cause => simp
  | ok flag =>
      have hregular : addFlag? flag defined = some next → Regular next := by
        intro hadd
        have hnames := names_eq_of_written_snoc (addFlag?_eq_some_iff.mp hadd)
        refine h.of_sublist ?_
        rw [hnames, Item.name?, Option.toList_none, List.append_nil]
      simp only [Except.ok.injEq, exists_eq_left', ← addFlag?_eq_some_iff]
      rw [and_iff_left_of_imp hregular]
      cases addFlag? flag defined with
      | none => simp
      | some added => simp

/-- **A line is taken for what it adds to the transitions as they are written.** -/
theorem takeLine_eq_ok_iff {line : Text.Line} (h : Regular defined) :
    takeLine defined line = .ok next ↔
      ∃ item, Item.ofLine? line.shown = some item ∧
        written next = written defined ++ [item] ∧ Regular next := by
  unfold takeLine Item.ofLine? headerOf?
  rw [line.toList_shown]
  cases headerName? line.chars with
  | some name => simp [takeHeader_eq_ok_iff h]
  | none =>
      rw [Option.map_none, takeFlag_eq_ok_iff h]
      cases Flag.read line.shown with
      | error cause => simp [Except.toOption]
      | ok flag => simp [Except.toOption]

end

/-! ### All lines -/

section

variable {book : Label} {defined next : List Custom} {lines : List Text.Line}

private theorem takeLines_snoc_eq_ok_iff {line : Text.Line} :
    takeLines book defined (lines ++ [line]) = .ok next ↔
      ∃ middle, takeLines book defined lines = .ok middle ∧ takeLine middle line = .ok next := by
  induction lines generalizing defined with
  | nil =>
      rw [List.nil_append, takeLines]
      cases htake : takeLine defined line with
      | error problem => simp [takeLines, htake]
      | ok middle => simp [takeLines, htake]
  | cons first rest ih =>
      rw [List.cons_append, takeLines, takeLines]
      cases takeLine defined first with
      | error problem => simp
      | ok middle => exact ih

/-- Lines lead to the transitions that they spell, if those have names of their own. -/
private theorem takeLines_nil_eq_ok_iff :
    takeLines book [] lines = .ok defined ↔
      Spells (lines.map Text.Line.shown) (written defined) ∧ Regular defined := by
  -- The last line is split off, because transitions are added to at their end.
  induction lines using List.reverseRecOn generalizing defined with
  | nil =>
      constructor
      · intro h
        cases h
        exact ⟨rfl, regular_nil⟩
      · rintro ⟨hspells, -⟩
        have hwritten : written defined = written [] := List.map_eq_nil_iff.mp hspells.symm
        rw [takeLines, written_inj.mp hwritten]
  | append_singleton lines line ih =>
      rw [takeLines_snoc_eq_ok_iff, List.map_append, List.map_singleton, snoc_spells_iff]
      constructor
      · rintro ⟨middle, hmiddle, hline⟩
        obtain ⟨hspells, hregular⟩ := ih.mp hmiddle
        obtain ⟨item, hitem, hwritten, hnext⟩ := (takeLine_eq_ok_iff hregular).mp hline
        exact ⟨⟨written middle, item, hwritten, hspells, hitem⟩, hnext⟩
      · rintro ⟨⟨items, item, hnext, hlines, hitem⟩, hregular⟩
        obtain ⟨middle, rfl⟩ := exists_written_eq_of_snoc hnext
        have hmiddle : Regular middle := by
          refine hregular.of_sublist ?_
          rw [names_eq_of_written_snoc hnext]
          exact List.sublist_append_left _ _
        exact ⟨middle, ih.mpr ⟨hlines, hmiddle⟩,
          (takeLine_eq_ok_iff hmiddle).mpr ⟨item, hitem, hnext, hregular⟩⟩

end

/-! ### Whole books -/

namespace Book

variable {book : Book} {defined : List Custom} {name : String} {custom : Custom}

theorem definitions_eq_ok_iff :
    book.definitions = .ok defined ↔
      Spells (Text.contents book.source) (written defined) ∧ Regular defined := by
  unfold definitions
  rw [takeLines_nil_eq_ok_iff, Text.shown_significant]

theorem exists_definitions_iff :
    (∃ defined, book.definitions = .ok defined) ↔ WellFormed (Text.contents book.source) := by
  simp only [definitions_eq_ok_iff, wellFormed_iff]

theorem find?_name_eq_some_iff (h : Regular defined) :
    defined.find? (·.name == name) = some custom ↔ custom.name = name ∧ custom ∈ defined := by
  constructor
  · intro hfound
    exact ⟨by simpa using List.find?_some hfound, List.mem_of_find?_eq_some hfound⟩
  · rintro ⟨rfl, hmem⟩
    obtain ⟨other, hother⟩ : ∃ other, defined.find? (·.name == custom.name) = some other :=
      Option.isSome_iff_exists.mp (List.find?_isSome.mpr ⟨custom, hmem, beq_self_eq_true _⟩)
    have hname : other.name = custom.name := by simpa using List.find?_some hother
    rw [hother, List.inj_on_of_nodup_map h.nodup (List.mem_of_find?_eq_some hother) hmem hname]

theorem find_eq_ok_iff (h : book.definitions = .ok defined) :
    book.find name = .ok custom ↔ custom.name = name ∧ custom ∈ defined := by
  rw [← find?_name_eq_some_iff (definitions_eq_ok_iff.mp h).2]
  simp only [find, h]
  cases defined.find? (·.name == name) with
  | none => simp
  | some other => simp

/--
**Books are read by their grammar.**  If the lines are well-formed, a name is found exactly
when it stands in a header, and with just the flags below that header.  If they are not,
there is one error for all names.
-/
theorem find_reads_grammar (book : Book) :
    (WellFormed (Text.contents book.source) → ∀ name,
      ((∃ custom, book.find name = .ok custom) ↔
        ∃ line ∈ Text.contents book.source, Heads line name) ∧
      ∀ custom, book.find name = .ok custom ↔
        custom.name = name ∧ Defines (Text.contents book.source) name custom.flags) ∧
    (¬ WellFormed (Text.contents book.source) → ∃ e, ∀ name, book.find name = .error e) := by
  refine ⟨?_, ?_⟩
  · intro hwell name
    obtain ⟨defined, hdefined⟩ := exists_definitions_iff.mpr hwell
    obtain ⟨hspells, -⟩ := definitions_eq_ok_iff.mp hdefined
    refine ⟨?_, ?_⟩
    · rw [hspells.exists_heads_iff]
      simp only [find_eq_ok_iff hdefined, and_comm]
    · intro custom
      rw [find_eq_ok_iff hdefined, hspells.defines_iff]
      refine and_congr_right ?_
      rintro rfl
      rfl
  · intro hwell
    rw [← exists_definitions_iff] at hwell
    cases hdefined : book.definitions with
    | ok defined => exact absurd ⟨defined, hdefined⟩ hwell
    | error e => exact ⟨e, fun name => by rw [find, hdefined]⟩

/-- The wrong line belongs to another transition. -/
example :
    (Book.mk ⟨"//p:book", rfl⟩ "[exec]\n--core.cpu=arm # 32 bits\n\n[ other ]\narm").find "exec" =
      .error (.onLine ⟨"//p:book", rfl⟩ 5 "arm" (.malformed (.notAFlag "arm"))) :=
  rfl

end Book

end BuildConfig.Transition
