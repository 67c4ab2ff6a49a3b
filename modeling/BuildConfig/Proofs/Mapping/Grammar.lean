/-
The grammar of rule files.

A rule file is a sequence of sections, and a section is a header with groups below it.
`Section.items` writes a section down, one item a line, so a text spells the sections
whose items its lines are.  Not all sections make rules: `Regular` is what has to hold
of them as a whole, and `Says` is what rules they make.

A reader sees a prefix of a file, and a prefix is in general no sequence of sections.
`Draft` is what a prefix is: the sections so far, the last of them still open, and the
flags of a group that has no platform yet.  `Grows` is what one more item does to a
draft.  Every draft grows out of one that is an item shorter (`exists_grows`), so growing
item by item reaches all of them and nothing else.
-/
import BuildConfig.Mapping.Reader
import BuildConfig.Proofs.Text.Contents
import Mathlib.Data.List.Nodup

namespace BuildConfig

namespace Mapping

/-! ### Items and sections -/

/-- What a line of a rule file is. -/
inductive Item
  /-- The header of a section of platforms. -/
  | platforms
  /-- The header of a section of flags. -/
  | selectors
  | flag (flag : Flag)
  | label (label : Label)

/-- The item on a line: whatever is no header and begins like a flag has to be one. -/
def Item.ofLine? (line : String) : Option Item :=
  if line = "platforms:" then some .platforms
  else if line = "flags:" then some .selectors
  else if Flag.begins line.toList then (Flag.read line).toOption.map .flag
  else (Label.read line).toOption.map .label

/-- A section of a rule file. -/
inductive Section
  /-- Platforms, each with the flags below it. -/
  | platforms (groups : List (Label × List Flag))
  /-- Flags, each group with the platform below it. -/
  | selectors (groups : List Selector)

namespace Section

/-- A section as it is written. -/
@[simp] def items : Section → List Item
  | .platforms groups =>
    .platforms :: groups.flatMap fun (platform, flags) => .label platform :: flags.map .flag
  | .selectors groups =>
    .selectors :: groups.flatMap fun selector =>
      selector.flags.map .flag ++ [.label selector.platform]

/-- The platforms of a section with their flags. -/
@[simp] def mapped : Section → List (Label × List Flag)
  | .platforms groups => groups
  | .selectors _ => []

/-- The selectors of a section. -/
@[simp] def selecting : Section → List Selector
  | .platforms _ => []
  | .selectors groups => groups

end Section

/-- The platforms of all sections with their flags. -/
def mapped (sections : List Section) : List (Label × List Flag) :=
  sections.flatMap Section.mapped

/-- The selectors of all sections. -/
def selecting (sections : List Section) : List Selector :=
  sections.flatMap Section.selecting

@[simp] theorem mapped_snoc (sections : List Section) (last : Section) :
    mapped (sections ++ [last]) = mapped sections ++ last.mapped := by
  simp [mapped]

@[simp] theorem selecting_snoc (sections : List Section) (last : Section) :
    selecting (sections ++ [last]) = selecting sections ++ last.selecting := by
  simp [selecting]

/-- The lines of a text are those of the sections. -/
def Spells (text : String) (sections : List Section) : Prop :=
  (Text.contents text).map Item.ofLine? = (sections.flatMap Section.items).map some

/-- Sections that can stand in one file. -/
structure Regular (sections : List Section) : Prop where
  /-- A platform is selected by one flag at least. -/
  flags_ne_nil : ∀ selector ∈ selecting sections, selector.flags ≠ []
  /-- No platform is mapped twice. -/
  nodup : ((mapped sections).map (·.1)).Nodup
  /-- No flag of a platform changes the selected platforms. -/
  name_ne : ∀ group ∈ mapped sections, ∀ flag ∈ group.2, flag.name ≠ .platforms

theorem regular_iff {sections : List Section} :
    Regular sections ↔ (∀ selector ∈ selecting sections, selector.flags ≠ []) ∧
      ((mapped sections).map (·.1)).Nodup ∧
      ∀ group ∈ mapped sections, ∀ flag ∈ group.2, flag.name ≠ .platforms :=
  ⟨fun h => ⟨h.flags_ne_nil, h.nodup, h.name_ne⟩, fun ⟨hflags, hnodup, hname⟩ =>
    ⟨hflags, hnodup, hname⟩⟩

/-- The rules are what the sections say. -/
structure Says (sections : List Section) (rules : Rules) : Prop where
  platforms : ∀ platform flags,
    rules.platforms.get? platform = some flags ↔ (platform, flags) ∈ mapped sections
  selectors : rules.selectors = selecting sections

/-! ### Adding to regular sections -/

section Regularity

variable {sections others : List Section}

private theorem nodup_keys_snoc {groups : List (Label × List Flag)} {group : Label × List Flag} :
    ((groups ++ [group]).map (·.1)).Nodup ↔
      group.1 ∉ groups.map (·.1) ∧ (groups.map (·.1)).Nodup := by
  rw [List.map_append, List.map_singleton, ← List.concat_eq_append, List.nodup_concat]

theorem Regular.not_mem_of_last (h : Regular others) (group : Label × List Flag)
    (hmapped : mapped others = mapped sections ++ [group]) :
    group.1 ∉ (mapped sections).map (·.1) :=
  (nodup_keys_snoc.mp (hmapped ▸ h.nodup)).1

private theorem regular_snoc_platform {label : Label}
    (hmapped : mapped others = mapped sections ++ [(label, [])])
    (hselecting : selecting others = selecting sections)
    (hnew : label ∉ (mapped sections).map (·.1)) : Regular others ↔ Regular sections := by
  rw [regular_iff, regular_iff, hmapped, hselecting, nodup_keys_snoc, List.forall_mem_append,
    List.forall_mem_singleton]
  simp only [hnew, not_false_eq_true, true_and, List.not_mem_nil, false_implies, implies_true,
    and_true]

private theorem regular_snoc_flag (earlier : List (Label × List Flag)) (label : Label)
    (flags : List Flag) {flag : Flag}
    (hmapped : mapped others = earlier ++ [(label, flags ++ [flag])])
    (hbefore : mapped sections = earlier ++ [(label, flags)])
    (hselecting : selecting others = selecting sections) (hname : flag.name ≠ .platforms) :
    Regular others ↔ Regular sections := by
  rw [regular_iff, regular_iff, hmapped, hbefore, hselecting, nodup_keys_snoc, nodup_keys_snoc]
  simp only [List.forall_mem_append, List.forall_mem_singleton, hname, ne_eq, not_false_eq_true,
    and_true]

private theorem regular_snoc_selector (selector : Selector)
    (hmapped : mapped others = mapped sections)
    (hselecting : selecting others = selecting sections ++ [selector])
    (hflags : selector.flags ≠ []) : Regular others ↔ Regular sections := by
  rw [regular_iff, regular_iff, hmapped, hselecting, List.forall_mem_append,
    List.forall_mem_singleton]
  simp only [hflags, ne_eq, not_false_eq_true, and_true]

end Regularity

/-! ### Drafts -/

/-- A file up to the end of some line. -/
inductive Draft
  /-- Nothing. -/
  | outside
  /-- Sections, and the header of a section of platforms. -/
  | platforms (before : List Section)
  /-- The same with groups below the header, the last of which may go on. -/
  | platform (before : List Section) (groups : List (Label × List Flag)) (current : Label)
      (flags : List Flag)
  /-- Sections, and a section of flags that ends in flags without a platform. -/
  | selectors (before : List Section) (groups : List Selector) (pending : List Flag)

namespace Draft

/-- The sections so far; flags without a platform do not belong to any. -/
def sections : Draft → List Section
  | outside => []
  | platforms before => before ++ [.platforms []]
  | platform before groups current flags => before ++ [.platforms (groups ++ [(current, flags)])]
  | selectors before groups _ => before ++ [.selectors groups]

/-- The flags that still lack a platform. -/
def pending : Draft → List Flag
  | selectors _ _ pending => pending
  | _ => []

/-- A draft as it is written. -/
def items (draft : Draft) : List Item :=
  draft.sections.flatMap Section.items ++ draft.pending.map .flag

section

variable (before : List Section) (groups : List (Label × List Flag)) (current : Label)
  (flags : List Flag) (selecting : List Selector) (waiting : List Flag)

@[simp] theorem sections_outside : outside.sections = [] := rfl

@[simp] theorem sections_platforms :
    (platforms before).sections = before ++ [.platforms []] := rfl

@[simp] theorem sections_platform :
    (platform before groups current flags).sections =
      before ++ [.platforms (groups ++ [(current, flags)])] := rfl

@[simp] theorem sections_selectors :
    (selectors before selecting waiting).sections = before ++ [.selectors selecting] := rfl

@[simp] theorem pending_outside : outside.pending = [] := rfl

@[simp] theorem pending_platforms : (platforms before).pending = [] := rfl

@[simp] theorem pending_platform : (platform before groups current flags).pending = [] := rfl

@[simp] theorem pending_selectors : (selectors before selecting waiting).pending = waiting := rfl

end

/-- What one more item makes of a draft. -/
inductive Grows : Draft → Item → Draft → Prop
  | enterPlatforms {draft : Draft} (h : draft.pending = []) :
      Grows draft .platforms (platforms draft.sections)
  | enterSelectors {draft : Draft} (h : draft.pending = []) :
      Grows draft .selectors (selectors draft.sections [] [])
  | firstPlatform {before : List Section} {label : Label}
      (h : label ∉ (mapped (platforms before).sections).map (·.1)) :
      Grows (platforms before) (.label label) (platform before [] label [])
  | nextPlatform {before : List Section} {groups : List (Label × List Flag)} {current : Label}
      {flags : List Flag} {label : Label}
      (h : label ∉ (mapped (platform before groups current flags).sections).map (·.1)) :
      Grows (platform before groups current flags) (.label label)
        (platform before (groups ++ [(current, flags)]) label [])
  | platformFlag {before : List Section} {groups : List (Label × List Flag)} {current : Label}
      {flags : List Flag} {flag : Flag} (h : flag.name ≠ .platforms) :
      Grows (platform before groups current flags) (.flag flag)
        (platform before groups current (flags ++ [flag]))
  | selectorFlag {before : List Section} {groups : List Selector} {pending : List Flag}
      {flag : Flag} :
      Grows (selectors before groups pending) (.flag flag)
        (selectors before groups (pending ++ [flag]))
  | selected {before : List Section} {groups : List Selector} {pending : List Flag}
      {label : Label} (h : pending ≠ []) :
      Grows (selectors before groups pending) (.label label)
        (selectors before (groups ++ [⟨pending, label⟩]) [])

variable {draft next : Draft} {item : Item}

theorem Grows.items_eq (h : Grows draft item next) : next.items = draft.items ++ [item] := by
  cases h with
  | enterPlatforms h => simp [items, h]
  | enterSelectors h => simp [items, h]
  | firstPlatform _ => simp [items]
  | nextPlatform _ => simp [items]
  | platformFlag _ => simp [items]
  | selectorFlag => simp [items]
  | selected _ => simp [items]

/-- What an item adds is regular by itself, so growing neither makes nor mends what is not. -/
theorem Grows.regular_iff (h : Grows draft item next) :
    Regular next.sections ↔ Regular draft.sections := by
  cases h with
  | enterPlatforms _ => simp [Mapping.regular_iff]
  | enterSelectors _ => simp [Mapping.regular_iff]
  | firstPlatform h =>
      exact regular_snoc_platform (by simp) (by simp) h
  | nextPlatform h =>
      exact regular_snoc_platform (by simp) (by simp) h
  | @platformFlag before groups current flags flag h =>
      refine regular_snoc_flag (mapped before ++ groups) current flags ?_ ?_ ?_ h
      · simp only [sections_platform, mapped_snoc, Section.mapped, List.append_assoc]
      · simp only [sections_platform, mapped_snoc, Section.mapped, List.append_assoc]
      · simp only [sections_platform, selecting_snoc, Section.selecting]
  | selectorFlag => rfl
  | @selected before groups pending label h =>
      exact regular_snoc_selector ⟨pending, label⟩ (by simp)
        (by simp) h

/-- Any sections are those of a draft without pending flags. -/
theorem exists_sections_eq (sections : List Section) :
    ∃ draft : Draft, draft.sections = sections ∧ draft.pending = [] := by
  rcases List.eq_nil_or_concat sections with rfl | ⟨before, last, rfl⟩
  · exact ⟨outside, rfl, rfl⟩
  · cases last with
    | selectors groups => exact ⟨selectors before groups [], by simp, rfl⟩
    | platforms groups =>
        rcases List.eq_nil_or_concat groups with rfl | ⟨earlier, ⟨current, flags⟩, rfl⟩
        · exact ⟨platforms before, by simp, rfl⟩
        · exact ⟨platform before earlier current flags, by simp, rfl⟩

theorem exists_grows (hnext : next ≠ outside) (h : Regular next.sections) :
    ∃ draft item, Grows draft item next := by
  cases next with
  | outside => exact absurd rfl hnext
  | platforms before =>
      obtain ⟨draft, rfl, hpending⟩ := exists_sections_eq before
      exact ⟨draft, .platforms, .enterPlatforms hpending⟩
  | platform before groups current flags =>
      rcases List.eq_nil_or_concat flags with rfl | ⟨above, flag, rfl⟩
      · rcases List.eq_nil_or_concat groups with rfl | ⟨earlier, ⟨above, flags⟩, rfl⟩
        · refine ⟨platforms before, .label current, .firstPlatform ?_⟩
          exact h.not_mem_of_last (current, []) (by simp)
        · rw [List.concat_eq_append] at h ⊢
          refine ⟨platform before earlier above flags, .label current, .nextPlatform ?_⟩
          exact h.not_mem_of_last (current, []) (by simp)
      · rw [List.concat_eq_append] at h ⊢
        refine ⟨platform before groups current above, .flag flag, .platformFlag ?_⟩
        exact h.name_ne (current, above ++ [flag]) (by simp) flag (by simp)
  | selectors before groups pending =>
      rcases List.eq_nil_or_concat pending with rfl | ⟨above, flag, rfl⟩
      · rcases List.eq_nil_or_concat groups with rfl | ⟨earlier, ⟨flags, label⟩, rfl⟩
        · obtain ⟨draft, rfl, hpending⟩ := exists_sections_eq before
          exact ⟨draft, .selectors, .enterSelectors hpending⟩
        · rw [List.concat_eq_append] at h ⊢
          refine ⟨selectors before earlier flags, .label label, .selected ?_⟩
          exact h.flags_ne_nil ⟨flags, label⟩ (by simp)
      · rw [List.concat_eq_append]
        exact ⟨selectors before groups above, .flag flag, .selectorFlag⟩

/-- The drafts that are an item longer than some regular draft are the regular ones. -/
theorem exists_grows_iff {written : List Item} :
    (∃ draft, draft.items = written ∧ Regular draft.sections ∧ Grows draft item next) ↔
      next.items = written ++ [item] ∧ Regular next.sections := by
  constructor
  · rintro ⟨draft, rfl, hregular, hgrows⟩
    exact ⟨hgrows.items_eq, hgrows.regular_iff.mpr hregular⟩
  · rintro ⟨hitems, hregular⟩
    have hne : next ≠ outside := by
      rintro rfl
      simp [items] at hitems
    obtain ⟨draft, last, hgrows⟩ := exists_grows hne hregular
    obtain ⟨hwritten, hlast⟩ := List.append_inj' (hgrows.items_eq.symm.trans hitems) rfl
    obtain ⟨rfl⟩ := List.cons.inj hlast
    exact ⟨draft, hwritten, hgrows.regular_iff.mp hregular, hgrows⟩

end Draft

end Mapping

end BuildConfig
