/-
Labels of targets.

A label is written `//package:name`, or `//package` when the name is the last part of
the package, and may have a repository in front, as in `@tools//package:name`.  A label
is kept as the text it was written as, so labels are equal when their texts are and
are ordered like them.  That the text is well formed is part of the type: whoever has a
label need not ask again.
-/
import BuildConfig.Text.Blank
import BuildConfig.Text.Split
import BuildConfig.OptionsError

namespace BuildConfig

namespace Label

/-- Characters of a repository's name. -/
def isRepositoryChar (c : Char) : Bool :=
  c.isAlphanum || ['_', '-', '.', '+', '~'].contains c

/-- The text after the repository, if there is one, and the two slashes. -/
def path? (cs : List Char) : Option (List Char) :=
  match (if cs.head? = some '@' then cs.tail.dropWhile isRepositoryChar else cs) with
  | '/' :: '/' :: path => some path
  | _ => none

/-- A package neither begins nor ends with a slash; it may be empty. -/
def isPackage (cs : List Char) : Bool :=
  cs.head? != some '/' && cs.getLast? != some '/'

/-- A path is a package with a name after a colon, or a package that is not empty. -/
def isPath (cs : List Char) : Bool :=
  match Text.cut? ':' cs with
  | some (package, name) => isPackage package && !name.isEmpty && !name.contains ':'
  | none => isPackage cs && !cs.isEmpty

/-- What the text of a label looks like. -/
def isWellFormed (cs : List Char) : Bool :=
  !cs.any Text.isBlank && (path? cs).any isPath

end Label

/-- A well-formed label, kept as it was written. -/
structure Label where
  text : String
  /-- The text is that of a label. -/
  wellFormed : Label.isWellFormed text.toList = true
  deriving DecidableEq

namespace Label

/-- The label that a text stands for, blanks around it aside. -/
def read (text : String) : Except OptionsError Label :=
  let cs := Text.trim text.toList
  if h : isWellFormed cs = true then
    .ok ⟨String.ofList cs, String.toList_ofList.symm ▸ h⟩
  else .error (.notALabel (String.ofList cs))

theorem ext_text {a b : Label} (h : a.text = b.text) : a = b := by
  cases a
  cases b
  cases h
  rfl

/-! ### Order -/

/-- Labels are ordered like their texts. -/
instance : LT Label :=
  ⟨fun a b => a.text < b.text⟩

instance : DecidableLT Label := fun a b =>
  inferInstanceAs (Decidable (a.text < b.text))

instance : KeyOrder Label where
  irrefl a := String.lt_irrefl a.text
  trans h k := String.lt_trans h k
  total a b := (KeyOrder.total a.text b.text).imp_right (.imp_left ext_text)

/-- The labels in ascending order. -/
def sort (labels : List Label) : List Label :=
  labels.mergeSort fun a b => !decide (b < a)

/-! ### Description -/

/-- The label as it stands in descriptions. -/
def describe (label : Label) : String :=
  "Label(" ++ label.text ++ ")"

end Label

end BuildConfig
