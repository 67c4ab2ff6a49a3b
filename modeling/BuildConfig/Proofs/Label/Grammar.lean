/-
The grammar of labels.

A label is a repository, two slashes and a path.  `Written` says this of a text, with a
split into the parts that merely has to exist.  The reader does not look for a split: it
drops the characters that repositories may have and asks for the two slashes there.  It
finds the only split that can exist, because no repository has a slash, so the first one
in a label belongs to the two (`path?_eq_some_iff`).  In the same way the first colon of a
path is the one between package and name (`isPath_iff`).

The reader keeps the text that it accepts, so a label is its text and nothing else:
`read_eq_ok_iff` says this, and `read_accepts_written` which texts are labels.
-/
import BuildConfig.Label
import BuildConfig.Proofs.Text.RoundTrip

namespace BuildConfig.Label

/-- Letters and digits of ASCII, and five signs. -/
def RepositoryChar (c : Char) : Prop :=
  c.isAlphanum = true ∨ c ∈ ['_', '-', '.', '+', '~']

/-- What may stand before the two slashes. -/
inductive Repository : List Char → Prop
  /-- A label need not name a repository. -/
  | unnamed : Repository []
  /-- A name may be empty. -/
  | named {name : List Char} (chars : ∀ c ∈ name, RepositoryChar c) : Repository ('@' :: name)

/-- Packages have no slash at their ends; the empty one is a package, too. -/
structure Package (cs : List Char) : Prop where
  head_ne : cs.head? ≠ some '/'
  getLast_ne : cs.getLast? ≠ some '/'

/-- What may stand after the two slashes. -/
inductive Path : List Char → Prop
  /-- A package by itself, whose last part is the name. -/
  | package {cs : List Char} (isPackage : Package cs) (ne_nil : cs ≠ []) (colon : ':' ∉ cs) :
      Path cs
  /-- A name in a package. -/
  | target {package name : List Char} (isPackage : Package package) (ne_nil : name ≠ [])
      (colon : ':' ∉ package ∧ ':' ∉ name) : Path (package ++ ':' :: name)

/-- The text is that of a label. -/
structure Written (cs : List Char) : Prop where
  not_isBlank : ∀ c ∈ cs, Text.isBlank c = false
  parts : ∃ repository path,
    cs = repository ++ '/' :: '/' :: path ∧ Repository repository ∧ Path path

/-! ### Packages and paths -/

theorem isPackage_iff {cs : List Char} : isPackage cs = true ↔ Package cs := by
  rw [isPackage, Bool.and_eq_true, bne_iff_ne, bne_iff_ne]
  exact ⟨fun ⟨hhead, hlast⟩ => ⟨hhead, hlast⟩, fun h => ⟨h.head_ne, h.getLast_ne⟩⟩

private theorem isPath_of_not_colon {cs : List Char} (h : ':' ∉ cs) :
    isPath cs = true ↔ Package cs ∧ cs ≠ [] := by
  simp [isPath, Text.cut?_eq_none_iff.mpr h, isPackage_iff]

private theorem isPath_of_colon {package name : List Char} (h : ':' ∉ package) :
    isPath (package ++ ':' :: name) = true ↔ Package package ∧ name ≠ [] ∧ ':' ∉ name := by
  have hcut : Text.cut? ':' (package ++ ':' :: name) = some (package, name) :=
    Text.cut?_eq_some_iff.mpr ⟨rfl, h⟩
  simp [isPath, hcut, isPackage_iff, and_assoc]

theorem isPath_iff {cs : List Char} : isPath cs = true ↔ Path cs := by
  constructor
  · intro h
    cases hcut : Text.cut? ':' cs with
    | none =>
        have hcolon := Text.cut?_eq_none_iff.mp hcut
        obtain ⟨hpackage, hne⟩ := (isPath_of_not_colon hcolon).mp h
        exact .package hpackage hne hcolon
    | some parts =>
        obtain ⟨rfl, hcolon⟩ := Text.cut?_eq_some_iff.mp hcut
        obtain ⟨hpackage, hne, hname⟩ := (isPath_of_colon hcolon).mp h
        exact .target hpackage hne ⟨hcolon, hname⟩
  · intro h
    cases h with
    | package hpackage hne hcolon => exact (isPath_of_not_colon hcolon).mpr ⟨hpackage, hne⟩
    | target hpackage hne hcolon =>
        exact (isPath_of_colon hcolon.1).mpr ⟨hpackage, hne, hcolon.2⟩

/-! ### The two slashes -/

private theorem isRepositoryChar_iff {c : Char} : isRepositoryChar c = true ↔ RepositoryChar c := by
  rw [isRepositoryChar, RepositoryChar, Bool.or_eq_true, List.contains_iff_mem]

/-- Dropping the characters of a repository's name stops at the first slash or before it. -/
private theorem dropWhile_isRepositoryChar_iff {cs rest : List Char} :
    cs.dropWhile isRepositoryChar = '/' :: rest ↔
      ∃ name, cs = name ++ '/' :: rest ∧ ∀ c ∈ name, RepositoryChar c := by
  simp only [← isRepositoryChar_iff]
  constructor
  · intro h
    refine ⟨cs.takeWhile isRepositoryChar, ?_, List.all_eq_true.mp List.all_takeWhile⟩
    rw [← h, List.takeWhile_append_dropWhile]
  · rintro ⟨name, rfl, hname⟩
    rw [List.dropWhile_append_of_pos hname]
    rfl

private theorem path?_eq_some_iff_slashes {cs path : List Char} :
    path? cs = some path ↔
      (if cs.head? = some '@' then cs.tail.dropWhile isRepositoryChar else cs) =
        '/' :: '/' :: path := by
  unfold path?
  generalize (if cs.head? = some '@' then cs.tail.dropWhile isRepositoryChar else cs) = rest
  split
  · simp
  · rename_i hne
    exact iff_of_false nofun (hne path)

theorem path?_eq_some_iff {cs path : List Char} :
    path? cs = some path ↔
      ∃ repository, cs = repository ++ '/' :: '/' :: path ∧ Repository repository := by
  rw [path?_eq_some_iff_slashes]
  by_cases hat : cs.head? = some '@'
  · obtain ⟨rest, rfl⟩ := List.head?_eq_some_iff.mp hat
    rw [if_pos hat, dropWhile_isRepositoryChar_iff]
    constructor
    · rintro ⟨name, hrest, hchars⟩
      exact ⟨'@' :: name, congrArg ('@' :: ·) hrest, .named hchars⟩
    · rintro ⟨repository, hcs, hrepository⟩
      cases hrepository with
      | unnamed => cases hcs
      | named hchars => exact ⟨_, (List.cons.inj hcs).2, hchars⟩
  · rw [if_neg hat]
    constructor
    · rintro rfl
      exact ⟨[], rfl, .unnamed⟩
    · rintro ⟨repository, rfl, hrepository⟩
      cases hrepository with
      | unnamed => rfl
      | named hchars => exact absurd rfl hat

/-- **The texts of labels are those that the grammar describes.** -/
theorem isWellFormed_iff {cs : List Char} : isWellFormed cs = true ↔ Written cs := by
  rw [isWellFormed, Bool.and_eq_true, Bool.not_eq_true', List.any_eq_false, Option.any_eq_true]
  simp only [Bool.not_eq_true]
  constructor
  · rintro ⟨hblank, path, hpath, hisPath⟩
    obtain ⟨repository, hcs, hrepository⟩ := path?_eq_some_iff.mp hpath
    exact ⟨hblank, repository, path, hcs, hrepository, isPath_iff.mp hisPath⟩
  · rintro ⟨hblank, repository, path, hcs, hrepository, hpath⟩
    exact ⟨hblank, path, path?_eq_some_iff.mpr ⟨repository, hcs, hrepository⟩,
      isPath_iff.mpr hpath⟩

/-! ### Labels and their texts -/

theorem written_text (l : Label) : Written l.text.toList :=
  isWellFormed_iff.mp l.wellFormed

theorem not_isBlank (l : Label) : ∀ c ∈ l.text.toList, Text.isBlank c = false :=
  l.written_text.not_isBlank

theorem text_ne_nil (l : Label) : l.text.toList ≠ [] := by
  obtain ⟨repository, path, htext, -, -⟩ := l.written_text.parts
  simp [htext]

/-- A text stands for the label that it is, blanks around it aside. -/
theorem read_eq_ok_iff {text : String} {l : Label} :
    read text = .ok l ↔ l.text.toList = Text.trim text.toList := by
  unfold read
  dsimp only
  constructor
  · intro h
    split at h
    · cases h
      exact String.toList_ofList
    · cases h
  · intro h
    have hwellFormed : isWellFormed (Text.trim text.toList) = true := h ▸ l.wellFormed
    have htext : String.ofList (Text.trim text.toList) = l.text := by
      rw [← h, String.ofList_toList]
    rw [dif_pos hwellFormed]
    exact congrArg Except.ok (ext_text htext)

theorem exists_read_iff {text : String} :
    (∃ l, read text = .ok l) ↔ Written (Text.trim text.toList) := by
  simp only [read_eq_ok_iff]
  constructor
  · rintro ⟨l, hl⟩
    exact hl ▸ l.written_text
  · intro h
    refine ⟨⟨String.ofList (Text.trim text.toList), ?_⟩, String.toList_ofList⟩
    rw [String.toList_ofList]
    exact isWellFormed_iff.mpr h

theorem read_eq_error_iff {text : String} {e : OptionsError} :
    read text = .error e ↔
      ¬ Written (Text.trim text.toList) ∧
        e = .notALabel (String.ofList (Text.trim text.toList)) := by
  rw [← isWellFormed_iff]
  unfold read
  dsimp only
  split
  · rename_i h
    simp [h]
  · rename_i h
    simp [h, eq_comm]

/-- **A label reads back.** -/
theorem read_text (l : Label) : read l.text = .ok l :=
  read_eq_ok_iff.mpr (Text.trim_eq_self l.not_isBlank).symm

/--
**Reading accepts exactly the labels that are written down**, with blanks around them
or without.  The label has the text that was read, and that text gives the label again;
any other text is refused with the error that it is no label.
-/
theorem read_accepts_written (text : String) :
    ((∃ l, read text = .ok l) ↔ Written (Text.trim text.toList)) ∧
      (∀ l, read text = .ok l →
        l.text.toList = Text.trim text.toList ∧ read l.text = .ok l) ∧
      ∀ e, read text = .error e ↔
        ¬ Written (Text.trim text.toList) ∧
          e = .notALabel (String.ofList (Text.trim text.toList)) := by
  refine ⟨exists_read_iff, ?_, fun e => read_eq_error_iff⟩
  intro l hl
  exact ⟨read_eq_ok_iff.mp hl, l.read_text⟩

/-- A label with a repository, as it is read among blanks. -/
theorem read_accepts_among_blanks :
    read "\t@tools//a/b:x\n" = .ok ⟨"@tools//a/b:x", by decide⟩ ∧
      read "@tools//a/b:x" = .ok ⟨"@tools//a/b:x", by decide⟩ := by
  have hread : read "\t@tools//a/b:x\n" = .ok ⟨"@tools//a/b:x", by decide⟩ :=
    read_eq_ok_iff.mpr (by decide)
  exact ⟨hread, ((read_accepts_written _).2.1 _ hread).2⟩

end BuildConfig.Label
