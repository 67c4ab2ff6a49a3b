/-
The text of a value among all the texts that stand for it.

Many texts stand for one value.  A truth value has three spellings, a number may have a
plus sign and zeros in front, blanks do not count around a text or around the labels of a
list, and a list may have commas with nothing between them.

On the other hand no text stands for a string with blanks at its ends or for a list whose
labels have commas, because reading drops the ones and cuts at the others.  What is read is
legible, whatever the text was (`legible_of_read`), and a legible value reads back.  So a
value that some text stands for is also what its own text stands for: writing a value that
was read gives one text in place of all those, and reading that text changes nothing.
-/
import BuildConfig.Proofs.Value.RoundTrip

namespace BuildConfig.Value

/-- **What is read is legible.** -/
private theorem legible_of_read {kind : Kind} {raw : String} {v : Value}
    (h : kind.read raw = .ok v) : v.Legible := by
  obtain rfl := Kind.kind_of_read h
  cases v with
  | bool b => trivial
  | int n => trivial
  | string s =>
      have hs : String.ofList (Text.trim raw.toList) = s := string.inj (Except.ok.inj h)
      show Text.trim s.toList = s.toList
      rw [← hs, String.toList_ofList, Text.trim_trim]
  | label l => trivial
  | labels ls => exact Kind.not_mem_of_readLabels (read_labels_eq_ok_iff.mp h)

theorem read_text_of_legible {v : Value} (h : v.Legible) : v.kind.read v.text = .ok v := by
  cases v with
  | bool b => cases b <;> rfl
  | int n => exact read_text_int n
  | string s => exact (read_text_string_iff s).mpr h
  | label l => exact read_text_label l
  | labels ls => exact (read_text_labels_iff ls).mpr h

theorem exists_read_iff {kind : Kind} {v : Value} :
    (∃ raw, kind.read raw = .ok v) ↔ v.kind = kind ∧ v.Legible := by
  constructor
  · rintro ⟨raw, h⟩
    exact ⟨Kind.kind_of_read h, legible_of_read h⟩
  · rintro ⟨rfl, hlegible⟩
    exact ⟨v.text, read_text_of_legible hlegible⟩

/--
**A value that was read is read again from its own text**, whatever text it was read from
and whichever value of its kind the reader is given as an example.
-/
theorem read_text_of_read {like v : Value} {raw : String} (h : like.kind.read raw = .ok v) :
    v.kind = like.kind ∧ like.kind.read v.text = .ok v := by
  obtain ⟨hkind, hlegible⟩ := exists_read_iff.mp ⟨raw, h⟩
  rw [← hkind]
  exact ⟨rfl, read_text_of_legible hlegible⟩

/-- Two labels that are read from a text with blanks and a comma too many. -/
theorem read_text_of_read_spaced :
    (labels []).kind.read " //a:x , ,\t@tools//b" = .ok (labels twoLabels) ∧
      (labels twoLabels).kind = (labels []).kind ∧
      (labels []).kind.read "//a:x,@tools//b" = .ok (labels twoLabels) := by
  have hread : (labels []).kind.read " //a:x , ,\t@tools//b" = .ok (labels twoLabels) := rfl
  exact ⟨hread, read_text_of_read hread⟩

end BuildConfig.Value
