/-
Where platform mapping rules are kept.

A bundle names the file of its rules by a path, or leaves it to the default place.  Paths
are kept as they were written but compared by their parts: slashes that are doubled or
stand at the end do not count, and neither does a part that is a single point, unless a
relative path begins with it.  Parts of two points are not resolved.
-/
import BuildConfig.Bundle.Basic

namespace BuildConfig.Mapping

/-- The place of a rule file: a path, or the default place. -/
structure Location where
  path : Option String
  deriving DecidableEq

/-- What a path is compared by. -/
structure Path where
  absolute : Bool
  parts : List (List Char)
  deriving DecidableEq

namespace Path

/-- Whether a part is a single point. -/
def isPoint (part : List Char) : Bool :=
  part == ['.']

/-- The parts that count anywhere in a path. -/
def significant (parts : List (List Char)) : List (List Char) :=
  parts.filter fun part => !part.isEmpty && !isPoint part

/-- The path that a text stands for. -/
def ofText (cs : List Char) : Path :=
  if cs.head? = some '/' then ⟨true, significant (Text.pieces '/' cs)⟩
  else
    match Text.pieces '/' cs with
    | first :: rest =>
      if isPoint first then ⟨false, first :: significant rest⟩
      else ⟨false, significant (first :: rest)⟩
    | [] => ⟨false, []⟩

end Path

namespace Location

/-- What a location is compared by. -/
def place (location : Location) : Option Path :=
  location.path.map fun text => Path.ofText text.toList

/-- Whether two locations are the same place. -/
def same (a b : Location) : Bool :=
  a.place == b.place

/-- Where the rules of a bundle are; an empty path leaves it to the default place. -/
def ofBundle (bundle : Bundle) : Location :=
  let path := bundle.stringAt .platformMappings
  ⟨if path.isEmpty then none else some path⟩

/-- The location as it stands in descriptions. -/
def describe (location : Location) : String :=
  "PlatformMappingKey \x7b path: " ++
    (match location.path with
      | some path => "Some(" ++ Text.Quoted.quote path ++ ")"
      | none => "None") ++ " \x7d"

/-! ### The same place -/

theorem same_iff {a b : Location} : a.same b = true ↔ a.place = b.place := by
  simp [same]

@[simp] theorem same_refl (a : Location) : a.same a = true :=
  same_iff.2 rfl

theorem same_symm {a b : Location} (h : a.same b = true) : b.same a = true :=
  same_iff.2 (same_iff.1 h).symm

end Location

end BuildConfig.Mapping
