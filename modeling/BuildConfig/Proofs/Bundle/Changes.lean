/-
The changes between two bundles are the options that differ.

The names of both bundles are collected first, and then the values decide which of them
stay.  Nothing is missed in this way, because an option whose name is in neither bundle has
no value on either side, and nothing is said twice, because the names are collected in a map.

A fragment without options has no names, so the changes cannot show that one bundle has it
and the other does not.  Apart from that they show everything: bundles with the same
fragments and no changes are equal.
-/
import BuildConfig.Bundle.Changes
import BuildConfig.Proofs.Bundle.Shape
import BuildConfig.Proofs.Text.ByteOrder
import Mathlib.Data.List.Perm.Basic

namespace BuildConfig

/-! ### Names in the order of their bytes -/

/-- The bytes of the fragments are compared, and those of the options within a fragment. -/
def OptionName.ByteBefore (a b : OptionName) : Prop :=
  Text.bytes a.fragment < Text.bytes b.fragment ∨
    a.fragment = b.fragment ∧ Text.bytes a.option < Text.bytes b.option

theorem OptionName.lt_iff_byteBefore {a b : OptionName} : a < b ↔ a.ByteBefore b := by
  rw [lt_def, Text.lt_iff_bytes_lt, Text.lt_iff_bytes_lt, ByteBefore]

namespace Bundle

/-! ### The names of a bundle -/

private theorem get?_ne_none_iff {bundle : Bundle} {name : OptionName} :
    bundle.get? name ≠ none ↔ ∃ options,
      bundle.fragments.get? name.fragment = some options ∧ name.option ∈ options.keys := by
  unfold get?
  cases bundle.fragments.get? name.fragment with
  | none => simp
  | some options =>
      simp [SortedMap.mem_keys_iff, SortedMap.contains, Option.isSome_iff_ne_none]

theorem mem_names_iff {bundle : Bundle} {name : OptionName} :
    name ∈ bundle.names ↔ bundle.get? name ≠ none := by
  rw [get?_ne_none_iff, names, List.mem_flatMap]
  constructor
  · rintro ⟨⟨fragment, options⟩, hentry, hname⟩
    obtain ⟨option, hoption, rfl⟩ := List.mem_map.mp hname
    exact ⟨options, SortedMap.mem_entries_iff.mp hentry, hoption⟩
  · rintro ⟨options, hoptions, hoption⟩
    exact ⟨(name.fragment, options), SortedMap.mem_entries_iff.mpr hoptions,
      List.mem_map.mpr ⟨name.option, hoption, rfl⟩⟩

private theorem mem_allNames_iff {a b : Bundle} {name : OptionName} :
    name ∈ allNames a b ↔ a.get? name ≠ none ∨ b.get? name ≠ none := by
  rw [allNames, SortedMap.mem_keys_iff, SortedMap.contains_ofList_iff, List.map_map]
  simp [mem_names_iff]

/-! ### The changes -/

theorem mem_changes_iff {a b : Bundle} {name : OptionName} :
    name ∈ a.changes b ↔ a.get? name ≠ b.get? name := by
  have hbne : (a.get? name != b.get? name) = true ↔ a.get? name ≠ b.get? name := by simp
  rw [changes, List.mem_filter, mem_allNames_iff, hbne]
  refine and_iff_right_of_imp ?_
  intro hne
  by_cases ha : a.get? name = none
  · exact Or.inr fun hb => hne (ha.trans hb.symm)
  · exact Or.inl ha

theorem pairwise_changes (a b : Bundle) : (a.changes b).Pairwise (· < ·) :=
  List.Pairwise.sublist List.filter_sublist (SortedMap.ascending _)

theorem changes_comm (a b : Bundle) : a.changes b = b.changes a := by
  have hmem : ∀ name, name ∈ a.changes b ↔ name ∈ b.changes a := by
    intro name
    rw [mem_changes_iff, mem_changes_iff, ne_comm]
  have hnodup : ∀ a b : Bundle, (a.changes b).Nodup := by
    intro a b
    refine (pairwise_changes a b).imp ?_
    rintro x _ hlt rfl
    exact KeyOrder.irrefl x hlt
  have hperm := (List.perm_ext_iff_of_nodup (hnodup a b) (hnodup b a)).mpr hmem
  refine hperm.eq_of_pairwise ?_ (pairwise_changes a b) (pairwise_changes b a)
  intro x y _ _ hxy hyx
  exact absurd (KeyOrder.trans hxy hyx) (KeyOrder.irrefl x)

theorem changes_eq_nil_iff {a b : Bundle} :
    a.changes b = [] ↔ ∀ name, a.get? name = b.get? name := by
  rw [List.eq_nil_iff_forall_not_mem]
  simp [mem_changes_iff]

private theorem contains_congr {a b : Bundle} (h : a.fragments.keys = b.fragments.keys)
    (fragment : String) : a.contains fragment = b.contains fragment := by
  rw [Bool.eq_iff_iff]
  unfold contains
  rw [← SortedMap.mem_keys_iff, ← SortedMap.mem_keys_iff, h]

/-- Changes and the names of fragments are enough to tell bundles apart. -/
theorem eq_iff_changes_eq_nil {a b : Bundle} :
    a = b ↔ a.changes b = [] ∧ a.fragments.keys = b.fragments.keys := by
  rw [changes_eq_nil_iff]
  constructor
  · rintro rfl
    exact ⟨fun _ => rfl, rfl⟩
  · rintro ⟨hget, hkeys⟩
    have hshape : SameShape a b :=
      ⟨contains_congr hkeys, fun name => by rw [kindAt, kindAt, hget]⟩
    exact hshape.ext hget

/--
**The changes are the options that differ.**  What is shown of them are names, once each and
in the order of their bytes, and they are the names of the options that do not have the same
value on both sides.  They are the same from either side, and bundles without changes are
equal if they have the same fragments.
-/
theorem changes_exact (a b : Bundle) :
    (∃ names : List OptionName, a.shownChanges b = names.map OptionName.text ∧
      names.Pairwise OptionName.ByteBefore ∧
      ∀ name, name ∈ names ↔ a.get? name ≠ b.get? name) ∧
    a.shownChanges b = b.shownChanges a ∧
    (a = b ↔ a.shownChanges b = [] ∧ a.fragments.keys = b.fragments.keys) := by
  refine ⟨⟨a.changes b, rfl, ?_, fun name => mem_changes_iff⟩, ?_, ?_⟩
  · exact (pairwise_changes a b).imp OptionName.lt_iff_byteBefore.mp
  · rw [shownChanges, shownChanges, changes_comm]
  · rw [eq_iff_changes_eq_nil, shownChanges, List.map_eq_nil_iff]

/-- One fragment is missing on one side and another one on the other side. -/
example :
    let a := (Bundle.empty.set ⟨"core", "jobs"⟩ (.int 8)).addFragment "cpp"
    let b := (Bundle.empty.set ⟨"core", "cpu"⟩ (.string "arm")).set ⟨"core", "jobs"⟩ (.int 9)
    a.shownChanges b = ["core.cpu", "core.jobs"] :=
  rfl

end Bundle

end BuildConfig
