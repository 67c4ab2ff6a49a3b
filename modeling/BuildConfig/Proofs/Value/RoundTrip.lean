/-
When a value reads back from its text.

The text of a value has no quotes.  For most values nothing is missed: a truth value, a
number and a label read back whatever they are, because blanks around a text do not count
and none of these has any.  A string comes back without the blanks at its ends.

A list is written with commas between its labels, and a label may have a comma of its own.
Cutting the text at its commas then cuts the label, and what is read is another list or
none at all.  `items_text` says what is found in the text of a list, and `reads_back_iff`
which values are the ones that read back: `Legible` is that condition.
-/
import BuildConfig.Value
import BuildConfig.Proofs.Label.Grammar

namespace BuildConfig

namespace Kind

/-! ### Lists of labels -/

theorem items_intercalate (texts : List (List Char)) :
    items ([','].intercalate texts) = texts.flatMap items := by
  by_cases h : texts = []
  · subst h
    rfl
  · unfold items
    rw [Text.pieces_intercalate ',' h]
    simp only [List.map_flatMap, List.filter_flatMap]

private theorem items_of_label {l : Label} (h : ',' ∉ l.text.toList) :
    items l.text.toList = [l.text] := by
  have hne : l.text.toList.isEmpty = false := List.isEmpty_eq_false_iff.mpr l.text_ne_nil
  rw [items, Text.pieces_of_not_mem h, List.map_singleton, Text.trim_eq_self l.not_isBlank]
  simp [hne]

private theorem flatMap_items {ls : List Label} (h : ∀ l ∈ ls, ',' ∉ l.text.toList) :
    (ls.flatMap fun l => items l.text.toList) = ls.map Label.text := by
  induction ls with
  | nil => rfl
  | cons l ls ih =>
      rw [List.forall_mem_cons] at h
      rw [List.flatMap_cons, items_of_label h.1, ih h.2, List.map_cons, List.singleton_append]

private theorem not_mem_of_mem_items {cs : List Char} {item : String} (h : item ∈ items cs) :
    ',' ∉ item.toList := by
  obtain ⟨piece, hpiece, rfl⟩ := List.mem_map.mp h
  obtain ⟨whole, hwhole, rfl⟩ := List.mem_map.mp (List.mem_filter.mp hpiece).1
  rw [String.toList_ofList]
  exact fun hcomma => Text.not_mem_pieces hwhole (Text.mem_of_mem_trim hcomma)

theorem readLabels_text (ls : List Label) : readLabels (ls.map Label.text) = .ok ls := by
  induction ls with
  | nil => rfl
  | cons l ls ih => simp only [List.map_cons, readLabels, Label.read_text, ih]

/-- Every label that is read is the text of an item, without the blanks around it. -/
private theorem exists_item_of_readLabels {texts : List String} {ls : List Label}
    (h : readLabels texts = .ok ls) :
    ∀ l ∈ ls, ∃ item ∈ texts, l.text.toList = Text.trim item.toList := by
  induction texts generalizing ls with
  | nil =>
      cases h
      simp
  | cons item rest ih =>
      unfold readLabels at h
      split at h
      · cases h
      · rename_i first hfirst
        split at h
        · cases h
        · rename_i others hothers
          cases h
          rw [List.forall_mem_cons]
          refine ⟨⟨item, List.mem_cons_self, Label.read_eq_ok_iff.mp hfirst⟩, ?_⟩
          intro l hl
          obtain ⟨other, hmem, htext⟩ := ih hothers l hl
          exact ⟨other, List.mem_cons_of_mem _ hmem, htext⟩

theorem not_mem_of_readLabels {cs : List Char} {ls : List Label}
    (h : readLabels (items cs) = .ok ls) : ∀ l ∈ ls, ',' ∉ l.text.toList := by
  intro l hl
  obtain ⟨item, hitem, htext⟩ := exists_item_of_readLabels h l hl
  rw [htext]
  exact fun hcomma => not_mem_of_mem_items hitem (Text.mem_of_mem_trim hcomma)

end Kind

namespace Value

/-- A list of labels as text has the labels' own items. -/
theorem items_text (ls : List Label) :
    Kind.items (labels ls).text.toList = ls.flatMap fun l => Kind.items l.text.toList := by
  rw [text, String.toList_intercalate, List.map_map]
  show Kind.items ([','].intercalate _) = _
  rw [Kind.items_intercalate, List.flatMap_map]
  rfl

private theorem trim_text (ls : List Label) :
    Text.trim (labels ls).text.toList = (labels ls).text.toList := by
  refine Text.trim_eq_self ?_
  rw [text, String.toList_intercalate, List.map_map]
  refine Text.forall_mem_intercalate (by decide) ?_
  rw [List.forall_mem_map]
  exact fun l _ => l.not_isBlank

theorem read_labels_eq_ok_iff {raw : String} {ls : List Label} :
    Kind.labels.read raw = .ok (labels ls) ↔
      Kind.readLabels (Kind.items (Text.trim raw.toList)) = .ok ls := by
  show (Kind.readLabels (Kind.items (Text.trim raw.toList))).map labels = _ ↔ _
  cases Kind.readLabels (Kind.items (Text.trim raw.toList)) with
  | error e => simp [Except.map]
  | ok others => simp [Except.map]

/-- Nothing in the value gets lost in its text: no blanks at the ends of a string, and no label
of a list at a comma of its own. -/
def Legible : Value → Prop
  | string s => Text.trim s.toList = s.toList
  | labels ls => ∀ l ∈ ls, ',' ∉ l.text.toList
  | _ => True

theorem read_text_string_iff (s : String) :
    Kind.string.read (string s).text = .ok (string s) ↔ Text.trim s.toList = s.toList := by
  show Except.ok (string (String.ofList (Text.trim s.toList))) = .ok (string s) ↔ _
  rw [Except.ok.injEq, string.injEq, ← String.toList_inj, String.toList_ofList]

theorem read_text_int (n : Int64) : Kind.int.read (int n).text = .ok (int n) := by
  have htrim : Text.trim (Text.Decimal.write n) = Text.Decimal.write n :=
    Text.trim_eq_self (Text.Decimal.not_isBlank_write n)
  simp only [Kind.read, text, String.toList_ofList, htrim, Text.Decimal.read?_write]

theorem read_text_label (l : Option Label) : Kind.label.read (label l).text = .ok (label l) := by
  cases l with
  | none => rfl
  | some l =>
      have htrim : Text.trim l.text.toList = l.text.toList := Text.trim_eq_self l.not_isBlank
      have hempty : l.text.toList.isEmpty = false := List.isEmpty_eq_false_iff.mpr l.text_ne_nil
      simp only [Kind.read, text, htrim, hempty, String.ofList_toList, Label.read_text]
      rfl

/-- A list reads back exactly when none of its labels has a comma. -/
theorem read_text_labels_iff (ls : List Label) :
    Kind.labels.read (labels ls).text = .ok (labels ls) ↔ ∀ l ∈ ls, ',' ∉ l.text.toList := by
  rw [read_labels_eq_ok_iff, trim_text]
  constructor
  · exact Kind.not_mem_of_readLabels
  · intro h
    rw [items_text, Kind.flatMap_items h, Kind.readLabels_text]

/--
**A value reads back exactly when it is legible**, whichever value of its kind the reader is
given as an example.  Truth values, numbers and labels always are, and so are lists of
labels without commas; a string is read without the blanks at its ends.
-/
theorem reads_back_iff {like v : Value} (h : like.kind = v.kind) :
    (like.kind.read v.text = .ok v ↔ v.Legible) ∧
      ∀ s, v = string s →
        like.kind.read v.text = .ok (string (String.ofList (Text.trim s.toList))) := by
  rw [h]
  refine ⟨?_, ?_⟩
  · cases v with
    | bool b => cases b <;> exact iff_of_true rfl trivial
    | int n => exact iff_of_true (read_text_int n) trivial
    | string s => exact read_text_string_iff s
    | label l => exact iff_of_true (read_text_label l) trivial
    | labels ls => exact read_text_labels_iff ls
  · rintro s rfl
    rfl

/-- Two labels, one of them with a repository. -/
def twoLabels : List Label :=
  [⟨"//a:x", by decide⟩, ⟨"@tools//b", by decide⟩]

/-- A list of labels without commas reads back. -/
theorem reads_back_of_twoLabels :
    (labels []).kind = (labels twoLabels).kind ∧
      (labels []).kind.read (labels twoLabels).text = .ok (labels twoLabels) := by
  have hkind : (labels []).kind = (labels twoLabels).kind := rfl
  have hlegible : (labels twoLabels).Legible := by
    unfold Legible
    decide
  exact ⟨hkind, (reads_back_iff hkind).1.mpr hlegible⟩

/-- One label with a comma in its name. -/
def commaLabel : Label :=
  ⟨"//a,//b", by decide⟩

/-- A list with this label reads back as a list with two others. -/
theorem reads_back_cut :
    ¬ ∀ like v : Value, like.kind = v.kind → v.kind ≠ .string → like.kind.read v.text = .ok v := by
  intro h
  have hback : Kind.labels.read (labels [commaLabel]).text = .ok (labels [commaLabel]) :=
    h (labels []) (labels [commaLabel]) rfl (by decide)
  have hcut : Kind.labels.read (labels [commaLabel]).text =
      .ok (labels [⟨"//a", by decide⟩, ⟨"//b", by decide⟩]) := rfl
  rw [hcut] at hback
  exact absurd (Except.ok.inj hback) (by decide)

end Value

end BuildConfig
