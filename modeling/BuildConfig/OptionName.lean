/-
Names of options.

An option belongs to a fragment, and its full name is written as the two joined by a
point.  Names are ordered by fragment first, which is the order in which a bundle
holds them.  The options that the evaluation itself reads or writes are named here
once.
-/
import BuildConfig.SortedMap

namespace BuildConfig

/-- The full name of an option. -/
structure OptionName where
  fragment : String
  option : String
  deriving DecidableEq

namespace OptionName

/-- The name as it is written. -/
def text (name : OptionName) : String :=
  name.fragment ++ "." ++ name.option

/-- By fragment, then by option. -/
def Before (a b : OptionName) : Prop :=
  a.fragment < b.fragment ∨ a.fragment = b.fragment ∧ a.option < b.option

instance (a b : OptionName) : Decidable (Before a b) :=
  inferInstanceAs (Decidable (_ ∨ _ ∧ _))

instance : LT OptionName :=
  ⟨Before⟩

instance : DecidableLT OptionName := fun a b =>
  inferInstanceAs (Decidable (Before a b))

theorem lt_def {a b : OptionName} :
    a < b ↔ a.fragment < b.fragment ∨ a.fragment = b.fragment ∧ a.option < b.option :=
  Iff.rfl

instance : KeyOrder OptionName where
  irrefl a h := by
    rcases lt_def.1 h with h | ⟨-, h⟩
    · exact String.lt_irrefl _ h
    · exact String.lt_irrefl _ h
  trans := by
    intro a b c hab hbc
    rcases lt_def.1 hab with h | ⟨h, h'⟩ <;> rcases lt_def.1 hbc with k | ⟨k, k'⟩
    · exact .inl (String.lt_trans h k)
    · exact .inl (k ▸ h)
    · exact .inl (h ▸ k)
    · exact .inr ⟨h.trans k, String.lt_trans h' k'⟩
  total a b := by
    rcases KeyOrder.total a.fragment b.fragment with h | h | h
    · exact .inl (.inl h)
    · rcases KeyOrder.total a.option b.option with k | k | k
      · exact .inl (.inr ⟨h, k⟩)
      · refine .inr (.inl ?_)
        cases a
        cases b
        cases h
        cases k
        rfl
      · exact .inr (.inr (.inr ⟨h.symm, k⟩))
    · exact .inr (.inr (.inl h))

/-! ### Fragments and options that the evaluation knows -/

/-- The fragment of the options that every configuration has. -/
def core : String := "core"

/-- The fragment of the options about target platforms. -/
def platform : String := "platform"

/-- The active compilation mode. -/
def compilationMode : OptionName := ⟨core, "compilation_mode"⟩

/-- The compilation mode of tools that run during the build. -/
def hostCompilationMode : OptionName := ⟨core, "host_compilation_mode"⟩

/-- Whether the configuration is one for an execution platform. -/
def isExec : OptionName := ⟨core, "is_exec"⟩

/-- Where the platform mapping rules are; empty for the default place. -/
def platformMappings : OptionName := ⟨core, "platform_mappings"⟩

/-- The custom transition onto an execution platform; empty for none. -/
def execTransition : OptionName := ⟨core, "exec_transition"⟩

/-- The selected target platforms. -/
def platforms : OptionName := ⟨platform, "platforms"⟩

end OptionName

end BuildConfig
