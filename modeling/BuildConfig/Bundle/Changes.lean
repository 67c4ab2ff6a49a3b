/-
What differs between two bundles.

The changes are the names of the options that do not have the same value on both sides,
an option that one side lacks included.  They are given once each and in ascending order.
-/
import BuildConfig.Bundle.Basic

namespace BuildConfig.Bundle

/-- The names of the options of either bundle, once each and in ascending order. -/
def allNames (a b : Bundle) : List OptionName :=
  (SortedMap.ofList ((a.names ++ b.names).map fun name => (name, ()))).keys

/-- The names of the options whose value differs. -/
def changes (a b : Bundle) : List OptionName :=
  (allNames a b).filter fun name => a.get? name != b.get? name

/-- The changes as they are shown. -/
def shownChanges (a b : Bundle) : List String :=
  (changes a b).map OptionName.text

end BuildConfig.Bundle
