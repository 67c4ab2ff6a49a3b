/-
The grammar of books.

Two descriptions of a book are given here.  The first is about its lines: `WellFormed` is
what has to hold of them, and `Defines` is which flags a name stands for, the lines below
its header up to the next one.  The second is about transitions: `written` puts them down,
one item a line, and a book with their items on its lines spells them.

They come together because items can be told apart again.  Whatever the items are, they
are flags that stand under no header and then transitions, in one way only; that is
`grouped`.  So the flags between two headers are those of one transition and of no other
(`Spells.defines_iff`), and the well-formed lines are those that spell transitions with
names of their own (`wellFormed_iff`).
-/
import BuildConfig.Transition.Custom
import Mathlib.Data.List.Basic
import Mathlib.Data.List.Nodup

namespace BuildConfig.Transition

/-! ### Lines -/

/-- The line is the header of a name: the brackets are there, and the name between them. -/
def Heads (line name : String) : Prop :=
  ∃ inner, line.toList = '[' :: inner ++ [']'] ∧ name = String.ofList (Text.trim inner)

/-- The first line, if there is any, is a header. -/
def Headed (lines : List String) : Prop :=
  ∀ line ∈ lines.head?, ∃ name, Heads line name

/-- Lines that make up a book. -/
structure WellFormed (lines : List String) : Prop where
  /-- No flag stands under no header. -/
  headed : Headed lines
  /-- Every header has a name. -/
  named : ∀ line ∈ lines, ¬ Heads line ""
  /-- No two headers have the same name. -/
  distinct : lines.Pairwise fun a b =>
    ∀ name, Heads a name → ∀ other, Heads b other → name ≠ other
  /-- What is no header is a flag. -/
  flags : ∀ line ∈ lines, (¬ ∃ name, Heads line name) → ∃ flag, Flag.read line = .ok flag

/-- Below the header of the name stand the flags, in order, and then the next header or nothing. -/
def Defines (lines : List String) (name : String) (flags : List Flag) : Prop :=
  ∃ before header block after, lines = before ++ header :: (block ++ after) ∧
    Heads header name ∧ (∀ line ∈ block, ¬ ∃ other, Heads line other) ∧ Headed after ∧
    block.map Flag.read = flags.map .ok

/-- The name that a line is the header of. -/
def headerOf? (line : String) : Option String :=
  (headerName? line.toList).map String.ofList

theorem headerName?_eq_some_iff {cs name : List Char} :
    headerName? cs = some name ↔ ∃ inner, cs = '[' :: inner ++ [']'] ∧ name = Text.trim inner := by
  constructor
  · intro h
    unfold headerName? at h
    split at h
    · rename_i rest
      split at h
      · rename_i hlast
        cases h
        obtain ⟨inner, rfl⟩ := List.getLast?_eq_some_iff.mp hlast
        exact ⟨inner, rfl, by simp⟩
      · cases h
    · cases h
  · rintro ⟨inner, rfl, rfl⟩
    simp [headerName?]

theorem headerOf?_eq_some_iff {line name : String} :
    headerOf? line = some name ↔ Heads line name := by
  unfold headerOf? Heads
  rw [Option.map_eq_some_iff]
  constructor
  · rintro ⟨cs, hcs, rfl⟩
    obtain ⟨inner, hline, rfl⟩ := headerName?_eq_some_iff.mp hcs
    exact ⟨inner, hline, rfl⟩
  · rintro ⟨inner, hline, rfl⟩
    exact ⟨_, headerName?_eq_some_iff.mpr ⟨inner, hline, rfl⟩, rfl⟩

theorem headerOf?_eq_none_iff {line : String} :
    headerOf? line = none ↔ ¬ ∃ name, Heads line name := by
  simp only [Option.eq_none_iff_forall_ne_some, ne_eq, headerOf?_eq_some_iff, not_exists]

/-! ### Items -/

/-- What a line of a book is. -/
inductive Item
  | header (name : String)
  | flag (flag : Flag)

/-- The name in a header. -/
def Item.name? : Item → Option String
  | .header name => some name
  | .flag _ => none

/-- The item on a line: whatever is no header has to be a flag. -/
def Item.ofLine? (line : String) : Option Item :=
  match headerOf? line with
  | some name => some (.header name)
  | none => (Flag.read line).toOption.map .flag

theorem ofLine?_eq_header_iff {line name : String} :
    Item.ofLine? line = some (.header name) ↔ Heads line name := by
  rw [← headerOf?_eq_some_iff]
  unfold Item.ofLine?
  cases headerOf? line with
  | some other => simp
  | none => simp

theorem ofLine?_eq_flag_iff {line : String} {flag : Flag} :
    Item.ofLine? line = some (.flag flag) ↔
      (¬ ∃ name, Heads line name) ∧ Flag.read line = .ok flag := by
  rw [← headerOf?_eq_none_iff]
  unfold Item.ofLine?
  cases headerOf? line with
  | some name => simp
  | none => cases Flag.read line <;> simp [Except.toOption]

theorem exists_ofLine?_iff {line : String} :
    (∃ item, Item.ofLine? line = some item) ↔
      ((¬ ∃ name, Heads line name) → ∃ flag, Flag.read line = .ok flag) := by
  constructor
  · rintro ⟨item, hitem⟩ hheader
    cases item with
    | header name => exact absurd ⟨name, ofLine?_eq_header_iff.mp hitem⟩ hheader
    | flag flag => exact ⟨flag, (ofLine?_eq_flag_iff.mp hitem).2⟩
  · intro hflag
    by_cases hheader : ∃ name, Heads line name
    · obtain ⟨name, hname⟩ := hheader
      exact ⟨.header name, ofLine?_eq_header_iff.mpr hname⟩
    · obtain ⟨flag, hread⟩ := hflag hheader
      exact ⟨.flag flag, ofLine?_eq_flag_iff.mpr ⟨hheader, hread⟩⟩

private theorem bind_name?_ofLine? (line : String) :
    (Item.ofLine? line).bind Item.name? = headerOf? line := by
  unfold Item.ofLine?
  cases headerOf? line with
  | some name => rfl
  | none => cases Flag.read line <;> rfl

/-! ### Transitions as they are written -/

/-- A transition as it is written. -/
def Custom.items (custom : Custom) : List Item :=
  .header custom.name :: custom.flags.map .flag

/-- Transitions as they are written. -/
def written (defined : List Custom) : List Item :=
  defined.flatMap Custom.items

@[simp] theorem written_nil : written [] = [] := rfl

@[simp] theorem written_cons (custom : Custom) (defined : List Custom) :
    written (custom :: defined) =
      .header custom.name :: (custom.flags.map .flag ++ written defined) := by
  simp [written, Custom.items]

@[simp] theorem written_append (defined more : List Custom) :
    written (defined ++ more) = written defined ++ written more := by
  simp [written]

private theorem filterMap_name?_written (defined : List Custom) :
    (written defined).filterMap Item.name? = defined.map (·.name) := by
  induction defined with
  | nil => rfl
  | cons custom rest ih =>
      have hflags : (custom.flags.map Item.flag).filterMap Item.name? = [] := by
        simp [List.filterMap_map, Function.comp_def, Item.name?]
      simp [Item.name?, hflags, ih]

theorem names_eq_of_written_snoc {defined next : List Custom} {item : Item}
    (h : written next = written defined ++ [item]) :
    next.map (·.name) = defined.map (·.name) ++ item.name?.toList := by
  rw [← filterMap_name?_written, h, List.filterMap_append, filterMap_name?_written]
  cases item with
  | header name => rfl
  | flag flag => rfl

/-- The flags that stand under no header, and the transitions that the items after them make. -/
def grouped : List Item → List Flag × List Custom
  | [] => ([], [])
  | .header name :: items => ([], ⟨name, (grouped items).1⟩ :: (grouped items).2)
  | .flag flag :: items => (flag :: (grouped items).1, (grouped items).2)

private theorem grouped_flags_append (flags : List Flag) (items : List Item) :
    grouped (flags.map .flag ++ items) = (flags ++ (grouped items).1, (grouped items).2) := by
  induction flags with
  | nil => rfl
  | cons flag flags ih => simp [grouped, ih]

theorem grouped_written (defined : List Custom) : grouped (written defined) = ([], defined) := by
  induction defined with
  | nil => rfl
  | cons custom rest ih => simp [grouped, grouped_flags_append, ih]

/-- Items are flags under no header and then transitions. -/
private theorem exists_eq_flags_append_written (items : List Item) :
    ∃ (flags : List Flag) (defined : List Custom),
      items = flags.map .flag ++ written defined := by
  induction items with
  | nil => exact ⟨[], [], rfl⟩
  | cons item rest ih =>
      obtain ⟨flags, defined, rfl⟩ := ih
      cases item with
      | header name => exact ⟨[], ⟨name, flags⟩ :: defined, by simp⟩
      | flag flag => exact ⟨flag :: flags, defined, rfl⟩

private theorem eq_of_written_eq (flags : List Flag) {defined others : List Custom}
    (h : written defined = flags.map .flag ++ written others) : defined = others := by
  have hgrouped := congrArg grouped h
  rw [grouped_written, grouped_flags_append, grouped_written] at hgrouped
  exact (Prod.mk.inj hgrouped).2

theorem written_inj {defined others : List Custom} :
    written defined = written others ↔ defined = others :=
  ⟨eq_of_written_eq [], congrArg written⟩

/-- All but the last item of written transitions are written transitions again. -/
theorem exists_written_eq_of_snoc {defined : List Custom} {items : List Item} {item : Item}
    (h : written defined = items ++ [item]) : ∃ before, written before = items := by
  rcases List.eq_nil_or_concat defined with rfl | ⟨before, ⟨name, flags⟩, rfl⟩
  · simp at h
  rw [List.concat_eq_append, written_append, written_cons, written_nil, List.append_nil] at h
  rcases List.eq_nil_or_concat flags with rfl | ⟨above, flag, rfl⟩
  · exact ⟨before, (List.append_inj' h rfl).1⟩
  · have hitems : written (before ++ [⟨name, above⟩]) ++ [.flag flag] = items ++ [item] := by
      simp [← h]
    exact ⟨before ++ [⟨name, above⟩], (List.append_inj' hitems rfl).1⟩

/-! ### Spelling -/

/-- The items stand on the lines. -/
def Spells (lines : List String) (items : List Item) : Prop :=
  lines.map Item.ofLine? = items.map some

section

variable {lines before after : List String} {line name : String} {items : List Item} {item : Item}
  {flags : List Flag} {defined : List Custom}

theorem spells_cons_iff :
    Spells lines (item :: items) ↔
      ∃ line rest, lines = line :: rest ∧ Item.ofLine? line = some item ∧ Spells rest items := by
  unfold Spells
  rw [List.map_cons, List.map_eq_cons_iff]

theorem spells_append_iff {more : List Item} :
    Spells lines (items ++ more) ↔
      ∃ before after, lines = before ++ after ∧ Spells before items ∧ Spells after more := by
  unfold Spells
  rw [List.map_append, List.map_eq_append_iff]

private theorem append_spells_iff :
    Spells (before ++ after) items ↔
      ∃ front back, items = front ++ back ∧ Spells before front ∧ Spells after back := by
  unfold Spells
  rw [List.map_append, eq_comm, List.map_eq_append_iff]
  simp only [eq_comm]

private theorem cons_spells_iff :
    Spells (line :: lines) items ↔
      ∃ item rest, items = item :: rest ∧ Item.ofLine? line = some item ∧ Spells lines rest := by
  unfold Spells
  rw [List.map_cons, eq_comm, List.map_eq_cons_iff]
  simp only [eq_comm]

theorem snoc_spells_iff :
    Spells (lines ++ [line]) items ↔
      ∃ front item, items = front ++ [item] ∧ Spells lines front ∧
        Item.ofLine? line = some item := by
  rw [append_spells_iff]
  constructor
  · rintro ⟨front, back, rfl, hfront, hback⟩
    obtain ⟨item, rfl, hitem⟩ := List.map_eq_singleton_iff.mp hback.symm
    exact ⟨front, item, rfl, hfront, hitem.symm⟩
  · rintro ⟨front, item, rfl, hfront, hitem⟩
    exact ⟨front, [item], rfl, hfront, congrArg (fun found => [found]) hitem⟩

theorem Spells.unique {others : List Item} (h : Spells lines items)
    (hothers : Spells lines others) : items = others :=
  List.map_injective_iff.mpr (fun _ _ => Option.some.inj) (h.symm.trans hothers)

private theorem spells_flags_iff :
    Spells lines (flags.map .flag) ↔
      (∀ line ∈ lines, ¬ ∃ name, Heads line name) ∧ lines.map Flag.read = flags.map .ok := by
  induction lines generalizing flags with
  | nil => cases flags <;> simp [Spells]
  | cons line rest ih =>
      cases flags with
      | nil => simp [Spells]
      | cons flag flags =>
          -- The hypothesis is unfolded as the goal is, so that the two can be matched.
          have hrest : rest.map Item.ofLine? = (flags.map Item.flag).map some ↔ _ := ih
          simp only [Spells, List.map_cons, List.cons.injEq, ofLine?_eq_flag_iff, hrest,
            List.forall_mem_cons]
          tauto

/-- Lines spell something exactly when those that are no headers are flags. -/
theorem exists_spells_iff :
    (∃ items, Spells lines items) ↔
      ∀ line ∈ lines, (¬ ∃ name, Heads line name) → ∃ flag, Flag.read line = .ok flag := by
  induction lines with
  | nil => simp [Spells]
  | cons line rest ih =>
      rw [List.forall_mem_cons, ← ih, ← exists_ofLine?_iff]
      simp only [cons_spells_iff]
      constructor
      · rintro ⟨-, item, items, rfl, hitem, hitems⟩
        exact ⟨⟨item, hitem⟩, items, hitems⟩
      · rintro ⟨⟨item, hitem⟩, items, hitems⟩
        exact ⟨_, item, items, rfl, hitem, hitems⟩

/-- Spelled lines begin with a header when no flag comes before the transitions. -/
theorem Spells.headed_iff (flags : List Flag)
    (h : Spells lines (flags.map .flag ++ written defined)) : Headed lines ↔ flags = [] := by
  unfold Headed
  cases flags with
  | nil =>
      refine iff_of_true ?_ rfl
      cases defined with
      | nil =>
          have hlines : lines = [] := List.map_eq_nil_iff.mp h
          simp [hlines]
      | cons custom rest =>
          obtain ⟨line, after, rfl, hline, -⟩ := spells_cons_iff.mp h
          simpa using ⟨custom.name, ofLine?_eq_header_iff.mp hline⟩
  | cons flag flags =>
      obtain ⟨line, after, rfl, hline, -⟩ := spells_cons_iff.mp h
      simpa using (ofLine?_eq_flag_iff.mp hline).1

/-- Lines spell transitions exactly when they begin with a header and have no item missing. -/
theorem exists_spells_written_iff :
    (∃ defined, Spells lines (written defined)) ↔ Headed lines ∧ ∃ items, Spells lines items := by
  constructor
  · rintro ⟨defined, h⟩
    exact ⟨(Spells.headed_iff [] h).mpr rfl, _, h⟩
  · rintro ⟨hheaded, items, h⟩
    obtain ⟨flags, defined, rfl⟩ := exists_eq_flags_append_written items
    obtain rfl := (Spells.headed_iff flags h).mp hheaded
    exact ⟨defined, h⟩

theorem Spells.filterMap_headerOf? (h : Spells lines (written defined)) :
    lines.filterMap headerOf? = defined.map (·.name) := by
  have hlines : lines.filterMap headerOf? =
      (lines.map Item.ofLine?).filterMap (·.bind Item.name?) := by
    rw [List.filterMap_map]
    exact congrArg (lines.filterMap ·) (funext fun line => (bind_name?_ofLine? line).symm)
  rw [hlines, h, List.filterMap_map, ← filterMap_name?_written]
  rfl

theorem Spells.exists_heads_iff (h : Spells lines (written defined)) :
    (∃ line ∈ lines, Heads line name) ↔ ∃ custom ∈ defined, custom.name = name := by
  rw [← List.mem_map, ← h.filterMap_headerOf?, List.mem_filterMap]
  simp only [headerOf?_eq_some_iff]

/-- What lines define is what is written on them. -/
theorem Spells.defines_iff (h : Spells lines (written defined)) :
    Defines lines name flags ↔ ⟨name, flags⟩ ∈ defined := by
  constructor
  · rintro ⟨before, header, block, after, rfl, hheader, hblock, hafter, hflags⟩
    obtain ⟨front, items, hitems, hbefore, hrest⟩ := append_spells_iff.mp h
    obtain ⟨item, items, rfl, hitem, hrest⟩ := cons_spells_iff.mp hrest
    obtain ⟨between, back, rfl, hbetween, hback⟩ := append_spells_iff.mp hrest
    obtain rfl := Option.some.inj (hitem.symm.trans (ofLine?_eq_header_iff.mpr hheader))
    obtain rfl := hbetween.unique (spells_flags_iff.mpr ⟨hblock, hflags⟩)
    obtain ⟨above, earlier, rfl⟩ := exists_eq_flags_append_written front
    obtain ⟨below, later, rfl⟩ := exists_eq_flags_append_written back
    obtain rfl := (Spells.headed_iff below hback).mp hafter
    -- The lines above may begin with flags as far as we know here, but the whole does not.
    have hdefined : defined = earlier ++ ⟨name, flags⟩ :: later := by
      refine eq_of_written_eq above ?_
      rw [hitems, List.append_assoc, written_append, written_cons]
      rfl
    rw [hdefined]
    exact List.mem_append_right _ List.mem_cons_self
  · intro hmem
    obtain ⟨earlier, later, rfl⟩ := List.append_of_mem hmem
    rw [written_append, written_cons, spells_append_iff] at h
    obtain ⟨before, rest, rfl, -, hrest⟩ := h
    obtain ⟨header, rest, rfl, hheader, hrest⟩ := spells_cons_iff.mp hrest
    obtain ⟨block, after, rfl, hblock, hafter⟩ := spells_append_iff.mp hrest
    obtain ⟨hblock, hflags⟩ := spells_flags_iff.mp hblock
    have hheaded : Headed after := (Spells.headed_iff [] hafter).mpr rfl
    exact ⟨before, header, block, after, rfl, ofLine?_eq_header_iff.mp hheader, hblock, hheaded,
      hflags⟩

end

/-! ### Well-formed lines -/

/-- Transitions with names of their own. -/
structure Regular (defined : List Custom) : Prop where
  ne_empty : "" ∉ defined.map (·.name)
  nodup : (defined.map (·.name)).Nodup

theorem regular_nil : Regular [] :=
  ⟨by simp, by simp⟩

/-- Only the names count, and leaving some out does no harm. -/
theorem Regular.of_sublist {defined others : List Custom} (h : Regular defined)
    (hnames : (others.map (·.name)).Sublist (defined.map (·.name))) : Regular others :=
  ⟨fun hempty => h.ne_empty (hnames.subset hempty), h.nodup.sublist hnames⟩

theorem regular_snoc_iff {defined : List Custom} {custom : Custom} :
    Regular (defined ++ [custom]) ↔
      (custom.name ≠ "" ∧ custom.name ∉ defined.map (·.name)) ∧ Regular defined := by
  have hempty : "" ∉ (defined ++ [custom]).map (·.name) ↔
      "" ∉ defined.map (·.name) ∧ custom.name ≠ "" := by
    rw [List.map_append, List.mem_append, not_or, List.map_singleton, List.mem_singleton, eq_comm]
  have hnodup : ((defined ++ [custom]).map (·.name)).Nodup ↔
      custom.name ∉ defined.map (·.name) ∧ (defined.map (·.name)).Nodup := by
    rw [List.map_append, List.map_singleton, ← List.concat_eq_append, List.nodup_concat]
  constructor
  · intro h
    obtain ⟨hearlier, hname⟩ := hempty.mp h.ne_empty
    obtain ⟨hnew, hdistinct⟩ := hnodup.mp h.nodup
    exact ⟨⟨hname, hnew⟩, hearlier, hdistinct⟩
  · rintro ⟨⟨hname, hnew⟩, h⟩
    exact ⟨hempty.mpr ⟨h.ne_empty, hname⟩, hnodup.mpr ⟨hnew, h.nodup⟩⟩

/-- The well-formed lines are those that spell transitions with names of their own. -/
theorem wellFormed_iff {lines : List String} :
    WellFormed lines ↔ ∃ defined, Spells lines (written defined) ∧ Regular defined := by
  have hnamed : (∀ line ∈ lines, ¬ Heads line "") ↔ "" ∉ lines.filterMap headerOf? := by
    simp [headerOf?_eq_some_iff]
  have hdistinct : (lines.Pairwise fun a b =>
      ∀ name, Heads a name → ∀ other, Heads b other → name ≠ other) ↔
      (lines.filterMap headerOf?).Nodup := by
    simp only [List.Nodup, List.pairwise_filterMap, headerOf?_eq_some_iff]
  constructor
  · intro h
    obtain ⟨defined, hspells⟩ :=
      exists_spells_written_iff.mpr ⟨h.headed, exists_spells_iff.mpr h.flags⟩
    refine ⟨defined, hspells, ?_, ?_⟩
    · exact hspells.filterMap_headerOf? ▸ hnamed.mp h.named
    · exact hspells.filterMap_headerOf? ▸ hdistinct.mp h.distinct
  · rintro ⟨defined, hspells, hne, hnodup⟩
    obtain ⟨hheaded, hitems⟩ := exists_spells_written_iff.mp ⟨defined, hspells⟩
    rw [← hspells.filterMap_headerOf?] at hne hnodup
    exact ⟨hheaded, hnamed.mpr hne, hdistinct.mpr hnodup, exists_spells_iff.mp hitems⟩

/-- Blanks in a header do not count, and a header may have nothing below it. -/
example : WellFormed ["[ exec ]", "--core.cpu=arm", "[other]"] :=
  wellFormed_iff.mpr
    ⟨[⟨"exec", [⟨⟨"core", "cpu"⟩, "arm"⟩]⟩, ⟨"other", []⟩], rfl, by decide, by decide⟩

end BuildConfig.Transition
