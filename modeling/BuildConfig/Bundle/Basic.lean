/-
Bundles of options.

A bundle holds fragments by name, and a fragment holds the values of its options by
name.  Both are kept in the order of the names, so a bundle has one representation and
two bundles with the same options are equal, however they came about.

Once built, a bundle keeps its shape: `withOption` replaces the value of an option that
is there by another one of its kind, and refuses everything else.
-/
import BuildConfig.Value

namespace BuildConfig

/-- The values of a fragment's options. -/
abbrev Fragment : Type :=
  SortedMap String Value

/-- Fragments of options by name. -/
structure Bundle where
  fragments : SortedMap String Fragment
  deriving DecidableEq

namespace Bundle

/-! ### Building -/

/-- The bundle without fragments. -/
def empty : Bundle :=
  ⟨.empty⟩

/-- The options of a fragment; none when the bundle lacks the fragment. -/
def optionsOf (bundle : Bundle) (fragment : String) : Fragment :=
  (bundle.fragments.get? fragment).getD .empty

/-- The bundle with the fragment, which is without options unless it was there before. -/
def addFragment (bundle : Bundle) (fragment : String) : Bundle :=
  ⟨bundle.fragments.insert fragment (bundle.optionsOf fragment)⟩

/-- The bundle with the option, added together with its fragment where they are missing. -/
def set (bundle : Bundle) (name : OptionName) (value : Value) : Bundle :=
  let options := (bundle.optionsOf name.fragment).insert name.option value
  ⟨bundle.fragments.insert name.fragment options⟩

/-! ### Reading -/

/-- The value of an option. -/
def get? (bundle : Bundle) (name : OptionName) : Option Value :=
  match bundle.fragments.get? name.fragment with
  | none => none
  | some options => options.get? name.option

/-- Whether the bundle has the fragment. -/
def contains (bundle : Bundle) (fragment : String) : Bool :=
  bundle.fragments.contains fragment

/-- The names of all options, in ascending order. -/
def names (bundle : Bundle) : List OptionName :=
  bundle.fragments.entries.flatMap fun (fragment, options) =>
    options.keys.map fun option => ⟨fragment, option⟩

/-- Whether a fragment that platforms need is missing; such a bundle is used as it is. -/
def lacksConfiguration (bundle : Bundle) : Bool :=
  !bundle.contains OptionName.core || !bundle.contains OptionName.platform

/-- The selected target platforms; none when they are not set. -/
def platforms (bundle : Bundle) : List Label :=
  match bundle.get? .platforms with
  | some (.labels ls) => ls
  | _ => []

/-- The text that an option holds; an option without a text counts as empty. -/
def stringAt (bundle : Bundle) (name : OptionName) : String :=
  match bundle.get? name with
  | some (.string s) => s
  | _ => ""

/-! ### Replacing values -/

/-- The bundle with another value of the same kind in an option that it has. -/
def withOption (bundle : Bundle) (name : OptionName) (value : Value) :
    Except OptionsError Bundle :=
  match bundle.fragments.get? name.fragment with
  | none => .error (.unknownFragment name.fragment)
  | some options =>
    match options.get? name.option with
    | none => .error (.unrecognized name)
    | some old =>
      if old.kind = value.kind then
        .ok ⟨bundle.fragments.insert name.fragment (options.insert name.option value)⟩
      else .error (.kindMismatch name old.kind value.kind)

/-- The bundle with other target platforms. -/
def withPlatforms (bundle : Bundle) (platforms : List Label) : Except OptionsError Bundle :=
  bundle.withOption .platforms (.labels platforms)

/-! ### Description -/

/-- The bundle as it stands in descriptions: every option with its value. -/
def describe (bundle : Bundle) : String :=
  let items := bundle.fragments.entries.flatMap fun (fragment, options) =>
    options.entries.map fun (option, value) =>
      Text.Quoted.quote (OptionName.mk fragment option).text ++ ": " ++ value.describe
  "\x7b" ++ ", ".intercalate items ++ "\x7d"

/-! ### Laws of the view -/

/-- After a replacement the option has the new value and all others have what they had. -/
theorem get?_withOption {bundle result : Bundle} {name : OptionName} {value : Value}
    (h : bundle.withOption name value = .ok result) (other : OptionName) :
    result.get? other = if other = name then some value else bundle.get? other := by
  unfold withOption at h
  split at h
  · cases h
  · rename_i options hoptions
    split at h
    · cases h
    · split at h
      · cases h
        unfold get?
        simp only [SortedMap.get?_insert]
        by_cases hf : other.fragment = name.fragment
        · simp only [hf, if_true, hoptions, SortedMap.get?_insert]
          by_cases ho : other.option = name.option
          · have : other = name := by
              cases other
              cases name
              cases hf
              cases ho
              rfl
            simp [this]
          · have : other ≠ name := fun h => ho (h ▸ rfl)
            simp [ho, this]
        · have : other ≠ name := fun h => hf (h ▸ rfl)
          simp [hf, this]
      · cases h

end Bundle

end BuildConfig
