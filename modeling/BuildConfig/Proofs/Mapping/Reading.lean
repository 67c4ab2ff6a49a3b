/-
The reader of rule files accepts their grammar and makes the rules that a file says.

`Takes` is everything that the reader can do with a line: which items it takes in which
place, and what becomes of the rules.  Side by side with it, a draft grows by the same
items, and `Draft.reading` is what the reader has made of a draft.  The two go together
step by step (`takes_reading_iff`), so the readings that lines can lead to are those of
the regular drafts that the lines spell (`takeAll_start_eq_ok_iff`), which is the
invariant of the reader's loop.

A file must end where no platform is missing.  The drafts of that kind are sequences of
sections, and that is the theorem about whole files.
-/
import BuildConfig.Proofs.Mapping.Grammar
import BuildConfig.Proofs.SortedMap
import Mathlib.Data.List.Induction

namespace BuildConfig

namespace Mapping

open Draft (Grows)

/-! ### One line -/

namespace Reading

/-- All that the reader can do with an item. -/
inductive Takes : Reading → Item → Reading → Prop
  | enterPlatforms {reading : Reading} (h : reading.pending = []) :
      Takes reading .platforms ⟨reading.rules, .platforms none⟩
  | enterSelectors {reading : Reading} (h : reading.pending = []) :
      Takes reading .selectors ⟨reading.rules, .selectors []⟩
  | platform {rules : Rules} {current : Option Label} {label : Label}
      (h : rules.platforms.contains label = false) :
      Takes ⟨rules, .platforms current⟩ (.label label)
        ⟨⟨rules.platforms.insert label [], rules.selectors⟩, .platforms (some label)⟩
  | platformFlag {rules : Rules} {current : Label} {flag : Flag} (h : flag.name ≠ .platforms) :
      Takes ⟨rules, .platforms (some current)⟩ (.flag flag)
        ⟨⟨rules.platforms.insert current ((rules.platforms.get? current).getD [] ++ [flag]),
          rules.selectors⟩, .platforms (some current)⟩
  | selectorFlag {rules : Rules} {pending : List Flag} {flag : Flag} :
      Takes ⟨rules, .selectors pending⟩ (.flag flag) ⟨rules, .selectors (pending ++ [flag])⟩
  | selected {rules : Rules} {pending : List Flag} {label : Label} (h : pending ≠ []) :
      Takes ⟨rules, .selectors pending⟩ (.label label)
        ⟨⟨rules.platforms, rules.selectors ++ [⟨pending, label⟩]⟩, .selectors []⟩

theorem Takes.unique {reading a b : Reading} {item : Item} (ha : Takes reading item a)
    (hb : Takes reading item b) : a = b := by
  cases ha <;> cases hb <;> rfl

section

variable {reading next : Reading} {rules : Rules} {text : String}

theorem Takes.pending_of_platforms (h : Takes reading .platforms next) : reading.pending = [] := by
  cases h with
  | enterPlatforms hpending => exact hpending

theorem Takes.pending_of_selectors (h : Takes reading .selectors next) : reading.pending = [] := by
  cases h with
  | enterSelectors hpending => exact hpending

theorem enter_eq_ok_iff {place : Place} :
    reading.enter place = .ok next ↔ reading.pending = [] ∧ next = ⟨reading.rules, place⟩ := by
  unfold enter
  cases reading.pending with
  | nil => simp [eq_comm]
  | cons flag rest => simp

private theorem takePlatformFlag_eq_ok_iff {current : Option Label} :
    takePlatformFlag rules current text = .ok next ↔
      ∃ flag, Flag.read text = .ok flag ∧
        Takes ⟨rules, .platforms current⟩ (.flag flag) next := by
  unfold takePlatformFlag
  cases hread : Flag.read text with
  | error e => simp
  | ok flag =>
      constructor
      · intro h
        refine ⟨flag, rfl, ?_⟩
        simp only at h
        split at h
        · cases h
        · rename_i hname
          cases current with
          | none => cases h
          | some label =>
              cases h
              exact .platformFlag hname
      · rintro ⟨_, ⟨⟩, htakes⟩
        cases htakes with
        | platformFlag hname => simp [hname]

private theorem takePlatform_eq_ok_iff {current : Option Label} :
    takePlatform rules text = .ok next ↔
      ∃ label, Label.read text = .ok label ∧
        Takes ⟨rules, .platforms current⟩ (.label label) next := by
  unfold takePlatform
  cases hread : Label.read text with
  | error e => simp
  | ok label =>
      constructor
      · intro h
        refine ⟨label, rfl, ?_⟩
        simp only at h
        split at h
        · cases h
        · rename_i hnew
          cases h
          exact .platform (by simpa using hnew)
      · rintro ⟨_, ⟨⟩, htakes⟩
        cases htakes with
        | platform hnew => simp [hnew]

private theorem takeSelectorFlag_eq_ok_iff {pending : List Flag} :
    takeSelectorFlag rules pending text = .ok next ↔
      ∃ flag, Flag.read text = .ok flag ∧
        Takes ⟨rules, .selectors pending⟩ (.flag flag) next := by
  unfold takeSelectorFlag
  cases hread : Flag.read text with
  | error e => simp
  | ok flag =>
      constructor
      · intro h
        cases h
        exact ⟨flag, rfl, .selectorFlag⟩
      · rintro ⟨_, ⟨⟩, htakes⟩
        cases htakes with
        | selectorFlag => rfl

private theorem takeSelected_eq_ok_iff {pending : List Flag} :
    takeSelected rules pending text = .ok next ↔
      ∃ label, Label.read text = .ok label ∧
        Takes ⟨rules, .selectors pending⟩ (.label label) next := by
  unfold takeSelected
  cases hread : Label.read text with
  | error e => simp
  | ok label =>
      constructor
      · intro h
        refine ⟨label, rfl, ?_⟩
        simp only at h
        split at h
        · cases h
        · rename_i hpending
          cases h
          exact .selected (by simpa using hpending)
      · rintro ⟨_, ⟨⟩, htakes⟩
        cases htakes with
        | selected hpending => simp [hpending]

end

theorem exists_item_iff {ε α : Type} {result : Except ε α} {wrap : α → Item} {P : Item → Prop} :
    (∃ item, result.toOption.map wrap = some item ∧ P item) ↔
      ∃ a, result = .ok a ∧ P (wrap a) := by
  cases result with
  | error e => simp [Except.toOption]
  | ok a => simp [Except.toOption]

/-- A line is taken exactly when it is an item that the reader takes. -/
theorem take_eq_ok_iff {reading next : Reading} {line : Text.Line} :
    reading.take line = .ok next ↔
      ∃ item, Item.ofLine? line.shown = some item ∧ Takes reading item next := by
  unfold take Item.ofLine?
  by_cases hplatforms : line.shown = "platforms:"
  · rw [if_pos hplatforms, if_pos hplatforms, enter_eq_ok_iff]
    constructor
    · rintro ⟨hpending, rfl⟩
      exact ⟨.platforms, rfl, .enterPlatforms hpending⟩
    · rintro ⟨_, ⟨⟩, htakes⟩
      cases htakes with
      | enterPlatforms hpending => exact ⟨hpending, rfl⟩
  rw [if_neg hplatforms, if_neg hplatforms]
  by_cases hselectors : line.shown = "flags:"
  · rw [if_pos hselectors, if_pos hselectors, enter_eq_ok_iff]
    constructor
    · rintro ⟨hpending, rfl⟩
      exact ⟨.selectors, rfl, .enterSelectors hpending⟩
    · rintro ⟨_, ⟨⟩, htakes⟩
      cases htakes with
      | enterSelectors hpending => exact ⟨hpending, rfl⟩
  rw [if_neg hselectors, if_neg hselectors, line.toList_shown]
  obtain ⟨rules, place⟩ := reading
  cases hbegins : Flag.begins line.chars with
  | true =>
      rw [if_pos rfl, exists_item_iff]
      cases place with
      | outside => exact ⟨nofun, fun ⟨_, _, htakes⟩ => nomatch htakes⟩
      | platforms current => exact takePlatformFlag_eq_ok_iff
      | selectors pending => exact takeSelectorFlag_eq_ok_iff
  | false =>
      rw [if_neg Bool.false_ne_true, exists_item_iff]
      cases place with
      | outside => exact ⟨nofun, fun ⟨_, _, htakes⟩ => nomatch htakes⟩
      | platforms current => exact takePlatform_eq_ok_iff
      | selectors pending => exact takeSelected_eq_ok_iff

end Reading

/-! ### What the reader makes of a draft -/

/-- The rules that sections make. -/
def rulesOf (sections : List Section) : Rules :=
  ⟨.ofList (mapped sections), selecting sections⟩

theorem says_iff {sections : List Section} {rules : Rules} (h : Regular sections) :
    Says sections rules ↔ rules = rulesOf sections := by
  constructor
  · intro hrules
    have hplatforms : rules.platforms = .ofList (mapped sections) := by
      refine SortedMap.ext_get? ?_
      intro platform
      refine Option.ext ?_
      intro flags
      rw [hrules.platforms, SortedMap.get?_ofList_eq_some_iff h.nodup]
    cases rules
    exact congrArg₂ Rules.mk hplatforms hrules.selectors
  · rintro rfl
    exact ⟨fun _ _ => SortedMap.get?_ofList_eq_some_iff h.nodup, rfl⟩

namespace Draft

/-- The place in the file where a draft ends. -/
def place : Draft → Place
  | outside => .outside
  | platforms _ => .platforms none
  | platform _ _ current _ => .platforms (some current)
  | selectors _ _ pending => .selectors pending

/-- What has been read when a draft has. -/
def reading (draft : Draft) : Reading :=
  ⟨rulesOf draft.sections, draft.place⟩

private theorem pending_reading (draft : Draft) : draft.reading.pending = draft.pending := by
  cases draft <;> rfl

theorem contains_rulesOf_eq_false_iff {sections : List Section} {label : Label} :
    (rulesOf sections).platforms.contains label = false ↔
      label ∉ (mapped sections).map (·.1) := by
  rw [← Bool.not_eq_true]
  exact not_congr SortedMap.contains_ofList_iff

private theorem reading_platforms (before : List Section) :
    (platforms before).reading = ⟨rulesOf before, .platforms none⟩ := by
  simp [reading, place, rulesOf]

/-- Below the last platform the flags are those that the rules have for it. -/
private theorem reading_platform (before : List Section) (groups : List (Label × List Flag))
    (current : Label) (flags : List Flag) :
    (platform before groups current flags).reading =
      ⟨⟨(rulesOf (before ++ [.platforms groups])).platforms.insert current flags,
        (rulesOf (before ++ [.platforms groups])).selectors⟩, .platforms (some current)⟩ := by
  simp [reading, place, rulesOf, ← List.append_assoc, SortedMap.ofList_snoc]

private theorem reading_platform_snoc (before : List Section) (groups : List (Label × List Flag))
    (current : Label) (flags : List Flag) (flag : Flag) :
    let rules := (platform before groups current flags).reading.rules
    (platform before groups current (flags ++ [flag])).reading =
      ⟨⟨rules.platforms.insert current ((rules.platforms.get? current).getD [] ++ [flag]),
        rules.selectors⟩, .platforms (some current)⟩ := by
  simp only [reading_platform, SortedMap.get?_insert, SortedMap.insert_insert, if_true,
    Option.getD_some]

private theorem reading_selectors (before : List Section) (groups : List Selector)
    (pending : List Flag) :
    (selectors before groups pending).reading =
      ⟨⟨(rulesOf before).platforms, selecting before ++ groups⟩, .selectors pending⟩ := by
  simp [reading, place, rulesOf]

theorem Grows.takes {draft grown : Draft} {item : Item} (h : Grows draft item grown) :
    Reading.Takes draft.reading item grown.reading := by
  cases h with
  | enterPlatforms hpending =>
      rw [reading_platforms]
      exact .enterPlatforms (draft.pending_reading.trans hpending)
  | enterSelectors hpending =>
      rw [reading_selectors, List.append_nil]
      exact .enterSelectors (draft.pending_reading.trans hpending)
  | @firstPlatform before label hnew =>
      rw [reading_platform before [] label []]
      exact .platform (contains_rulesOf_eq_false_iff.mpr hnew)
  | @nextPlatform before groups current flags label hnew =>
      rw [reading_platform before (groups ++ [(current, flags)]) label []]
      exact .platform (contains_rulesOf_eq_false_iff.mpr hnew)
  | platformFlag hname =>
      rw [reading_platform_snoc]
      exact .platformFlag hname
  | selectorFlag => exact .selectorFlag
  | selected hpending =>
      rw [reading_selectors, reading_selectors, ← List.append_assoc]
      exact .selected hpending

/-- What the reader takes can be added to the draft: the two look at the same place. -/
theorem exists_grows_of_takes {draft : Draft} {item : Item} {next : Reading}
    (h : Reading.Takes draft.reading item next) : ∃ grown, Grows draft item grown := by
  cases item with
  | platforms => exact ⟨_, .enterPlatforms (draft.pending_reading ▸ h.pending_of_platforms)⟩
  | selectors => exact ⟨_, .enterSelectors (draft.pending_reading ▸ h.pending_of_selectors)⟩
  | flag flag =>
      cases draft with
      | outside => cases h
      | platforms before => cases h
      | platform before groups current flags =>
          cases h with
          | platformFlag hname => exact ⟨_, .platformFlag hname⟩
      | selectors before groups pending => exact ⟨_, .selectorFlag⟩
  | label label =>
      cases draft with
      | outside => cases h
      | platforms before =>
          cases h with
          | platform hnew => exact ⟨_, .firstPlatform (contains_rulesOf_eq_false_iff.mp hnew)⟩
      | platform before groups current flags =>
          cases h with
          | platform hnew => exact ⟨_, .nextPlatform (contains_rulesOf_eq_false_iff.mp hnew)⟩
      | selectors before groups pending =>
          cases h with
          | selected hpending => exact ⟨_, .selected hpending⟩

/-- **The reader does to its readings what an item does to drafts.** -/
theorem takes_reading_iff {draft : Draft} {item : Item} {next : Reading} :
    Reading.Takes draft.reading item next ↔
      ∃ grown, Grows draft item grown ∧ grown.reading = next := by
  constructor
  · intro h
    obtain ⟨grown, hgrows⟩ := exists_grows_of_takes h
    exact ⟨grown, hgrows, hgrows.takes.unique h⟩
  · rintro ⟨grown, hgrows, rfl⟩
    exact hgrows.takes

theorem regular_outside : Regular outside.sections :=
  ⟨by simp [selecting], by simp [mapped], by simp [mapped]⟩

private theorem items_eq_nil_iff {draft : Draft} : draft.items = [] ↔ draft = outside := by
  constructor
  · intro h
    cases draft with
    | outside => rfl
    | platforms before => simp [items] at h
    | platform before groups current flags => simp [items] at h
    | selectors before groups pending => simp [items] at h
  · rintro rfl
    rfl

end Draft

namespace Reading

private theorem takeAll_snoc_eq_ok_iff {reading next : Reading} {lines : List Text.Line}
    {line : Text.Line} :
    reading.takeAll (lines ++ [line]) = .ok next ↔
      ∃ middle, reading.takeAll lines = .ok middle ∧ middle.take line = .ok next := by
  induction lines generalizing reading with
  | nil =>
      rw [List.nil_append, takeAll]
      cases htake : reading.take line with
      | error problem => simp [takeAll, htake]
      | ok middle => simp [takeAll, htake]
  | cons first rest ih =>
      rw [List.cons_append, takeAll, takeAll]
      cases reading.take first with
      | error problem => simp
      | ok middle => exact ih

/-- Lines lead to what the reader makes of the regular drafts that they spell. -/
theorem takeAll_start_eq_ok_iff {lines : List Text.Line} {reading : Reading} :
    start.takeAll lines = .ok reading ↔
      ∃ draft : Draft, lines.map (Item.ofLine? ·.shown) = draft.items.map some ∧
        Regular draft.sections ∧ draft.reading = reading := by
  -- The last line is split off, because drafts grow at their end.
  induction lines using List.reverseRecOn generalizing reading with
  | nil =>
      constructor
      · intro h
        cases h
        exact ⟨.outside, rfl, Draft.regular_outside, rfl⟩
      · rintro ⟨draft, hitems, -, rfl⟩
        rw [List.map_nil, eq_comm, List.map_eq_nil_iff, Draft.items_eq_nil_iff] at hitems
        rw [hitems]
        rfl
  | append_singleton lines line ih =>
      rw [takeAll_snoc_eq_ok_iff]
      constructor
      · rintro ⟨middle, hmiddle, hline⟩
        obtain ⟨draft, hlines, hregular, rfl⟩ := ih.mp hmiddle
        obtain ⟨item, hitem, htakes⟩ := take_eq_ok_iff.mp hline
        obtain ⟨grown, hgrows, rfl⟩ := Draft.takes_reading_iff.mp htakes
        refine ⟨grown, ?_, hgrows.regular_iff.mpr hregular, rfl⟩
        rw [List.map_append, hlines, hgrows.items_eq, List.map_append, List.map_singleton,
          List.map_singleton, hitem]
      · rintro ⟨grown, hlines, hregular, rfl⟩
        rw [List.map_append, List.map_singleton, eq_comm, List.map_eq_append_iff] at hlines
        obtain ⟨items, last, hitems, hbefore, hlast⟩ := hlines
        obtain ⟨item, rfl, hitem⟩ := List.map_eq_singleton_iff.mp hlast
        obtain ⟨draft, rfl, hdraft, hgrows⟩ := Draft.exists_grows_iff.mpr ⟨hitems, hregular⟩
        exact ⟨draft.reading, ih.mpr ⟨draft, hbefore.symm, hdraft, rfl⟩,
          take_eq_ok_iff.mpr ⟨item, hitem.symm, Draft.takes_reading_iff.mpr ⟨grown, hgrows, rfl⟩⟩⟩

end Reading

/-! ### Whole files -/

namespace Rules

theorem read_eq_ok_iff {text : String} {rules : Rules} :
    Rules.read text = .ok rules ↔
      ∃ reading, Reading.start.takeAll (Text.significant text) = .ok reading ∧
        reading.pending = [] ∧ reading.rules = rules := by
  unfold Rules.read
  cases Reading.start.takeAll (Text.significant text) with
  | error e => simp
  | ok reading =>
      show reading.finish = .ok rules ↔ _
      unfold Reading.finish
      cases hpending : reading.pending with
      | nil => simp [hpending]
      | cons flag rest => simp [hpending]

/-- The rules that are read are those that the sections make which the text spells. -/
theorem read_eq_ok_iff_spells {text : String} {rules : Rules} :
    Rules.read text = .ok rules ↔
      ∃ sections, Spells text sections ∧ Regular sections ∧ rulesOf sections = rules := by
  have hlines : (Text.significant text).map (Item.ofLine? ·.shown) =
      (Text.contents text).map Item.ofLine? := by
    rw [← Text.shown_significant, List.map_map]
    rfl
  simp only [read_eq_ok_iff, Reading.takeAll_start_eq_ok_iff, hlines]
  constructor
  · rintro ⟨-, ⟨draft, hitems, hregular, rfl⟩, hpending, rfl⟩
    rw [Draft.pending_reading] at hpending
    refine ⟨draft.sections, ?_, hregular, rfl⟩
    rw [Spells, hitems, Draft.items, hpending, List.map_nil, List.append_nil]
  · rintro ⟨sections, hspells, hregular, rfl⟩
    obtain ⟨draft, rfl, hpending⟩ := Draft.exists_sections_eq sections
    refine ⟨draft.reading, ⟨draft, ?_, hregular, rfl⟩, draft.pending_reading.trans hpending, rfl⟩
    rw [Draft.items, hpending, List.map_nil, List.append_nil]
    exact hspells

/--
**Rule files are read by their grammar.**  A text is accepted exactly when it spells
regular sections, and then the rules are what the sections say.
-/
theorem read_accepts_grammar (text : String) :
    ((∃ rules, Rules.read text = .ok rules) ↔
      ∃ sections, Spells text sections ∧ Regular sections) ∧
    ∀ sections, Spells text sections → Regular sections →
      ∀ rules, Rules.read text = .ok rules ↔ Says sections rules := by
  refine ⟨⟨?_, ?_⟩, ?_⟩
  · rintro ⟨rules, hread⟩
    obtain ⟨sections, hspells, hregular, -⟩ := read_eq_ok_iff_spells.mp hread
    exact ⟨sections, hspells, hregular⟩
  · rintro ⟨sections, hspells, hregular⟩
    exact ⟨rulesOf sections, read_eq_ok_iff_spells.mpr ⟨sections, hspells, hregular, rfl⟩⟩
  · intro sections hspells hregular rules
    have hread := read_eq_ok_iff_spells.mpr ⟨sections, hspells, hregular, rfl⟩
    rw [hread, says_iff hregular, Except.ok.injEq, eq_comm]

/-- A text and its sections; the second platform has no flags. -/
example :
    Spells
      "platforms:\n //p:arm # 32 bits\n  --core.cpu=arm\n //p:x86\n\nflags:\n --core.cpu=arm\n  //p:arm"
      [.platforms [(⟨"//p:arm", rfl⟩, [⟨⟨"core", "cpu"⟩, "arm"⟩]), (⟨"//p:x86", rfl⟩, [])],
        .selectors [⟨[⟨⟨"core", "cpu"⟩, "arm"⟩], ⟨"//p:arm", rfl⟩⟩]] :=
  rfl

end Rules

end Mapping

end BuildConfig
