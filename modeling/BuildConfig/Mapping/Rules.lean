/-
Platform mapping rules.

Rules translate in both directions.  For a platform they list flags, which are applied to
a bundle that has this platform selected.  For a bundle without a selected platform they
list sets of flags, and the first set that the bundle holds in full selects its platform.
-/
import BuildConfig.Bundle.Flags

namespace BuildConfig.Mapping

/-- Flags that select a platform when a bundle holds all of them. -/
structure Selector where
  flags : List Flag
  platform : Label
  deriving DecidableEq

/-- Flags by platform, and selectors in the order in which they are tried. -/
structure Rules where
  platforms : SortedMap Label (List Flag)
  selectors : List Selector
  deriving DecidableEq

namespace Rules

/-- The rules that change nothing. -/
def empty : Rules :=
  ⟨.empty, []⟩

/-- Whether there are no rules at all. -/
def isEmpty (rules : Rules) : Bool :=
  rules.platforms.isEmpty && rules.selectors.isEmpty

/-- Whether the bundle holds all flags; they are tried in order up to one that it does not hold. -/
def holdsAll (bundle : Bundle) : List Flag → Except OptionsError Bool
  | [] => .ok true
  | flag :: flags =>
    match bundle.holds flag with
    | .error e => .error e
    | .ok false => .ok false
    | .ok true => holdsAll bundle flags

/-- The platform of the first selector whose flags the bundle holds. -/
def select (bundle : Bundle) : List Selector → Except OptionsError (Option Label)
  | [] => .ok none
  | selector :: selectors =>
    match holdsAll bundle selector.flags with
    | .error e => .error e
    | .ok true => .ok (some selector.platform)
    | .ok false => select bundle selectors

/-- The bundle as the rules have it. -/
def map (rules : Rules) (bundle : Bundle) : Except OptionsError Bundle :=
  match bundle.platforms with
  | platform :: _ =>
    match rules.platforms.get? platform with
    | some flags => bundle.apply flags
    | none => .ok bundle
  | [] =>
    match select bundle rules.selectors with
    | .error e => .error e
    | .ok (some platform) => bundle.withPlatforms [platform]
    | .ok none => .ok bundle

/-- Flags as they stand in descriptions. -/
def describeFlags (flags : List Flag) : String :=
  "[" ++ ", ".intercalate (flags.map Flag.describe) ++ "]"

/-- The rules as they stand in descriptions. -/
def describe (rules : Rules) : String :=
  let platforms := rules.platforms.entries.map fun (platform, flags) =>
    platform.describe ++ ": " ++ describeFlags flags
  let selectors := rules.selectors.map fun selector =>
    "(" ++ describeFlags selector.flags ++ ", " ++ selector.platform.describe ++ ")"
  "PlatformMappings \x7b platforms: \x7b" ++ ", ".intercalate platforms ++ "\x7d, flags: [" ++
    ", ".intercalate selectors ++ "] \x7d"

end Rules

end BuildConfig.Mapping
