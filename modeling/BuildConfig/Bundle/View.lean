/-
Views of bundles.

A view of a bundle is the bundle restricted to some fragments.  It is worked on like any
bundle and then merged back, which replaces whole fragments: a fragment that is missing
from the view stays in the bundle as it was.
-/
import BuildConfig.Bundle.Basic

namespace BuildConfig.Bundle

/-- The bundle with only those of the fragments that it has. -/
def restrict (bundle : Bundle) (fragments : List String) : Bundle :=
  ⟨bundle.fragments.filterKeys fragments.contains⟩

/-- The bundle with every fragment of the view taken from the view. -/
def merge (bundle view : Bundle) : Bundle :=
  ⟨bundle.fragments.union view.fragments⟩

end BuildConfig.Bundle
