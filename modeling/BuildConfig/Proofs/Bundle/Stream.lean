/-
The bytes of a bundle can be read back in one way only.

A bundle is known by the hash of its bytes, so two bundles with the same bytes could not
be told apart by anyone.  The bytes are nested four deep, and nothing in them says what
comes next: numbers have eight bytes, texts end at a byte that UTF-8 does not use, and
sequences begin with their length.  That is enough at every level, and the reason is the
same each time.  `Delimited` is that reason: if two items, each with anything behind it,
have the same bytes, then the items are the same and so is what stands behind them.  It
is a property of a way of writing items, and it passes from the parts to the whole.

Numbers have only eight bytes, so lengths from 2 ^ 64 on could not be told apart from
smaller ones.  `Countable` excludes the bundles that are too large for this.
-/
import BuildConfig.Configuration
import BuildConfig.Proofs.Text.ByteOrder
import Mathlib.Algebra.Group.Nat.Defs

namespace BuildConfig

namespace Stream

/-- On these items the bytes of an item show where they end, whatever comes after them. -/
def Delimited {α : Type} (may : α → Prop) (item : α → List UInt8) : Prop :=
  ∀ a b rest others, may a → may b → item a ++ rest = item b ++ others → a = b ∧ rest = others

namespace Delimited

variable {α β : Type} {may : α → Prop} {item : α → List UInt8}

theorem eq_of_isPrefix (h : Delimited may item) {a b : α} (ha : may a) (hb : may b)
    (hstart : item a <+: item b) : a = b := by
  obtain ⟨rest, hrest⟩ := hstart
  exact (h a b rest [] ha hb (by rw [hrest, List.append_nil])).1

/-- Fewer items can be told apart, too. -/
theorem mono (h : Delimited may item) {less : α → Prop} (hless : ∀ a, less a → may a) :
    Delimited less item := by
  intro a b rest others ha hb heq
  exact h a b rest others (hless a ha) (hless b hb) heq

/-- Whatever is determined by its items can be written as them. -/
theorem comp (h : Delimited may item) {f : β → α} (hf : ∀ x y, f x = f y → x = y) :
    Delimited (fun x => may (f x)) (fun x => item (f x)) := by
  intro x y rest others hx hy heq
  obtain ⟨hsame, hrest⟩ := h (f x) (f y) rest others hx hy heq
  exact ⟨hf x y hsame, hrest⟩

theorem pair (h : Delimited may item) {also : β → Prop} {other : β → List UInt8}
    (k : Delimited also other) :
    Delimited (fun p : α × β => may p.1 ∧ also p.2) (fun p => item p.1 ++ other p.2) := by
  rintro ⟨a, b⟩ ⟨c, d⟩ rest others ⟨ha, hb⟩ ⟨hc, hd⟩ heq
  dsimp only at heq
  rw [List.append_assoc, List.append_assoc] at heq
  obtain ⟨rfl, hbehind⟩ := h a c _ _ ha hc heq
  obtain ⟨rfl, hrest⟩ := k b d _ _ hb hd hbehind
  exact ⟨rfl, hrest⟩

theorem flatMap (h : Delimited may item) {xs ys : List α} {rest others : List UInt8}
    (hlength : xs.length = ys.length) (hxs : ∀ x ∈ xs, may x) (hys : ∀ y ∈ ys, may y)
    (heq : xs.flatMap item ++ rest = ys.flatMap item ++ others) : xs = ys ∧ rest = others := by
  induction xs generalizing ys with
  | nil =>
      obtain rfl := List.length_eq_zero_iff.mp hlength.symm
      exact ⟨rfl, heq⟩
  | cons x xs ih =>
      cases ys with
      | nil => cases hlength
      | cons y ys =>
          rw [List.forall_mem_cons] at hxs hys
          rw [List.flatMap_cons, List.flatMap_cons, List.append_assoc, List.append_assoc] at heq
          obtain ⟨rfl, hbehind⟩ := h x y _ _ hxs.1 hys.1 heq
          obtain ⟨rfl, hrest⟩ := ih (Nat.succ.inj hlength) hxs.2 hys.2 hbehind
          exact ⟨rfl, hrest⟩

end Delimited

/-! ### Numbers, texts and sequences -/

private theorem length_lowBytes (count n : Nat) : (lowBytes count n).length = count := by
  induction count generalizing n with
  | zero => rfl
  | succ count ih => rw [lowBytes, List.length_cons, ih]

/-- The lowest bytes of a number determine it up to what does not fit into them. -/
private theorem mod_eq_of_lowBytes {count n m : Nat} (h : lowBytes count n = lowBytes count m) :
    n % 256 ^ count = m % 256 ^ count := by
  induction count generalizing n m with
  | zero => rw [Nat.pow_zero, Nat.mod_one, Nat.mod_one]
  | succ count ih =>
      rw [lowBytes, lowBytes, List.cons.injEq] at h
      obtain ⟨hlow, hhigh⟩ := h
      have hbyte : n % 256 = m % 256 := by
        have hlow := congrArg UInt8.toNat hlow
        rwa [UInt8.toNat_ofNat', UInt8.toNat_ofNat'] at hlow
      rw [Nat.pow_succ', Nat.mod_mul, Nat.mod_mul, hbyte, ih hhigh]

theorem delimited_number : Delimited (· < 2 ^ 64) number := by
  intro n m rest others hn hm heq
  have hlength : (number n).length = (number m).length := by
    rw [number, number, length_lowBytes, length_lowBytes]
  obtain ⟨hnumber, hrest⟩ := List.append_inj heq hlength
  have hmod : n % 2 ^ 64 = m % 2 ^ 64 := mod_eq_of_lowBytes hnumber
  rw [Nat.mod_eq_of_lt hn, Nat.mod_eq_of_lt hm] at hmod
  exact ⟨hmod, hrest⟩

/-- No character is written with the byte that closes texts. -/
private theorem not_mem_utf8EncodeChar (c : Char) : (0xFF : UInt8) ∉ String.utf8EncodeChar c := by
  have hbyte : ∀ n : Nat, n < 0xFF → (0xFF : UInt8) ≠ UInt8.ofNat n := by
    intro n hn hsame
    have hsame := congrArg UInt8.toNat hsame
    rw [UInt8.toNat_ofNat', show (0xFF : UInt8).toNat = 0xFF from rfl] at hsame
    omega
  unfold String.utf8EncodeChar
  dsimp only
  -- one case for each number of bytes that a character can have
  split
  · simp only [List.mem_singleton]
    exact hbyte _ (by omega)
  · split
    · simp only [List.mem_cons, List.not_mem_nil, or_false, not_or]
      exact ⟨hbyte _ (by omega), hbyte _ (by omega)⟩
    · split
      · simp only [List.mem_cons, List.not_mem_nil, or_false, not_or]
        exact ⟨hbyte _ (by omega), hbyte _ (by omega), hbyte _ (by omega)⟩
      · simp only [List.mem_cons, List.not_mem_nil, or_false, not_or]
        exact ⟨hbyte _ (by omega), hbyte _ (by omega), hbyte _ (by omega), hbyte _ (by omega)⟩

private theorem not_mem_bytes (s : String) : (0xFF : UInt8) ∉ Text.bytes s := by
  rw [Text.bytes_eq_flatMap, List.mem_flatMap]
  rintro ⟨c, -, hc⟩
  exact not_mem_utf8EncodeChar c hc

private theorem append_cons_inj {α : Type} {xs ys rest others : List α} {a : α} (hxs : a ∉ xs)
    (hys : a ∉ ys) (h : xs ++ a :: rest = ys ++ a :: others) : xs = ys ∧ rest = others := by
  rcases List.append_eq_append_iff.mp h with ⟨more, hmore, hrest⟩ | ⟨more, hmore, hrest⟩
  · cases more with
    | nil => exact ⟨by simpa using hmore.symm, by simpa using hrest⟩
    | cons b more =>
        obtain ⟨rfl, -⟩ := List.cons.inj hrest
        exact absurd (by rw [hmore]; simp) hys
  · cases more with
    | nil => exact ⟨by simpa using hmore, by simpa using hrest.symm⟩
    | cons b more =>
        obtain ⟨rfl, -⟩ := List.cons.inj hrest
        exact absurd (by rw [hmore]; simp) hxs

theorem delimited_text : Delimited (fun _ => True) text := by
  intro s t rest others _ _ heq
  rw [text, text, List.append_assoc, List.append_assoc] at heq
  obtain ⟨hbytes, hrest⟩ := append_cons_inj (not_mem_bytes s) (not_mem_bytes t) heq
  refine ⟨String.toByteArray_inj.mp (ByteArray.ext ?_), hrest⟩
  exact Array.toList_inj.mp hbytes

theorem Delimited.sequence {α : Type} {may : α → Prop} {item : α → List UInt8}
    (h : Delimited may item) :
    Delimited (fun xs => xs.length < 2 ^ 64 ∧ ∀ x ∈ xs, may x) (sequence item) := by
  rintro xs ys rest others ⟨hxs, hmay⟩ ⟨hys, hmay'⟩ heq
  rw [Stream.sequence, Stream.sequence, List.append_assoc, List.append_assoc] at heq
  obtain ⟨hlength, hbehind⟩ := delimited_number _ _ _ _ hxs hys heq
  exact h.flatMap hlength hmay hmay' hbehind

/-! ### Values -/

theorem delimited_label : Delimited (fun _ => True) label :=
  delimited_text.comp fun _ _ => Label.ext_text

theorem delimited_int : Delimited (fun _ => True) fun n : Int64 => number n.toUInt64.toNat := by
  have h : ∀ n m : Int64, n.toUInt64.toNat = m.toUInt64.toNat → n = m := by
    intro n m hsame
    rw [← Int64.toInt64_toUInt64 n, UInt64.toNat_inj.mp hsame, Int64.toInt64_toUInt64]
  exact (delimited_number.comp h).mono fun n _ => n.toUInt64.toNat_lt

/-- A label that may be missing, after the number of what it is. -/
def optional : Option Label → List UInt8
  | none => number 0
  | some l => number 1 ++ label l

theorem delimited_optional : Delimited (fun _ => True) optional := by
  rintro (_ | l) (_ | m) rest others _ _ heq
  · exact ⟨rfl, List.append_cancel_left heq⟩
  · rw [optional, optional, List.append_assoc] at heq
    cases (delimited_number 0 1 _ _ (by decide) (by decide) heq).1
  · rw [optional, optional, List.append_assoc] at heq
    cases (delimited_number 1 0 _ _ (by decide) (by decide) heq).1
  · rw [optional, optional, List.append_assoc, List.append_assoc] at heq
    obtain ⟨rfl, hrest⟩ := delimited_label l m rest others trivial trivial
      (List.append_cancel_left heq)
    exact ⟨rfl, hrest⟩

/-- The number of a kind. -/
def tag : Kind → Nat
  | .bool => 0
  | .int => 1
  | .string => 2
  | .label => 3
  | .labels => 4

private theorem tag_lt (kind : Kind) : tag kind < 2 ^ 64 := by
  cases kind <;> decide

private theorem tag_injective {k l : Kind} (h : tag k = tag l) : k = l := by
  cases k <;> cases l <;> first | rfl | cases h

/-- What is written of a value after the number of its kind. -/
def content : Value → List UInt8
  | .bool b => [if b then 1 else 0]
  | .int n => number n.toUInt64.toNat
  | .string s => text s
  | .label l => optional l
  | .labels ls => sequence label ls

private theorem value_eq (v : Value) : value v = number (tag v.kind) ++ content v := by
  cases v with
  | label l => cases l <;> simp [value, content, optional, tag, Value.kind]
  | _ => rfl

end Stream

/-- The labels of the value, if it is a list of them, can be counted in eight bytes. -/
def Value.Countable : Value → Prop
  | .labels ls => ls.length < 2 ^ 64
  | _ => True

instance : DecidablePred Value.Countable
  | .labels ls => inferInstanceAs (Decidable (ls.length < 2 ^ 64))
  | .bool _ | .int _ | .string _ | .label _ => isTrue trivial

/-- Whatever there can be several of in the bundle can be counted in eight bytes. -/
structure Bundle.Countable (bundle : Bundle) : Prop where
  fragments : bundle.fragments.size < 2 ^ 64
  options : ∀ fragment ∈ bundle.fragments.entries, fragment.2.size < 2 ^ 64
  labels : ∀ fragment ∈ bundle.fragments.entries, ∀ option ∈ fragment.2.entries,
    option.2.Countable

namespace Stream

theorem delimited_value : Delimited Value.Countable value := by
  intro v w rest others hv hw heq
  rw [value_eq, value_eq, List.append_assoc, List.append_assoc] at heq
  obtain ⟨htag, hcontent⟩ := delimited_number _ _ _ _ (tag_lt _) (tag_lt _) heq
  have hkind := tag_injective htag
  -- only values of the same kind are left
  cases v <;> cases w <;> first | contradiction | skip
  case bool.bool b c =>
    obtain ⟨hbyte, hrest⟩ := List.cons.inj hcontent
    refine ⟨?_, hrest⟩
    cases b <;> cases c <;> first | rfl | exact absurd hbyte (by decide)
  case int.int n m =>
    obtain ⟨rfl, hrest⟩ := delimited_int n m rest others trivial trivial hcontent
    exact ⟨rfl, hrest⟩
  case string.string s t =>
    obtain ⟨rfl, hrest⟩ := delimited_text s t rest others trivial trivial hcontent
    exact ⟨rfl, hrest⟩
  case label.label l m =>
    obtain ⟨rfl, hrest⟩ := delimited_optional l m rest others trivial trivial hcontent
    exact ⟨rfl, hrest⟩
  case labels.labels ls ms =>
    obtain ⟨rfl, hrest⟩ := delimited_label.sequence ls ms rest others
      ⟨hv, fun _ _ => trivial⟩ ⟨hw, fun _ _ => trivial⟩ hcontent
    exact ⟨rfl, hrest⟩

/-! ### Fragments and bundles -/

private theorem entries_injective {κ α : Type} [LT κ] (m n : SortedMap κ α)
    (h : m.entries = n.entries) : m = n := by
  cases m
  cases n
  cases h
  rfl

theorem delimited_fragment :
    Delimited (fun entry : String × Fragment =>
      entry.2.size < 2 ^ 64 ∧ ∀ option ∈ entry.2.entries, option.2.Countable) fragment := by
  have hoptions := (delimited_text.pair delimited_value).sequence.comp
    (entries_injective (κ := String) (α := Value))
  refine (delimited_text.pair hoptions).mono ?_
  rintro entry ⟨hsize, hlabels⟩
  exact ⟨trivial, hsize, fun option hoption => ⟨trivial, hlabels option hoption⟩⟩

theorem delimited_bundle : Delimited Bundle.Countable Bundle.stream := by
  have hbundle : ∀ a b : Bundle, a.fragments = b.fragments → a = b := by
    rintro ⟨_⟩ ⟨_⟩ rfl
    rfl
  refine ((delimited_fragment.sequence.comp entries_injective).comp hbundle).mono ?_
  intro bundle h
  exact ⟨h.fragments, fun entry hentry => ⟨h.options entry hentry, h.labels entry hentry⟩⟩

end Stream

/-- Two inputs with the same hash. -/
def Digest.Blake3.Collision (xs ys : List UInt8) : Prop :=
  xs ≠ ys ∧ hash xs = hash ys

namespace Bundle

/--
**The bytes of a bundle identify it.**  No two bundles have the same bytes, nor do the
bytes of one begin those of another, so configurations that differ have the same checksum
only when the hash collides on their bytes.
-/
theorem stream_unambiguous {a b : Bundle} (ha : a.Countable) (hb : b.Countable) :
    (a.stream = b.stream ↔ a = b) ∧ (a.stream <+: b.stream → a.stream = b.stream) ∧
      (a ≠ b → Configuration.checksum ⟨a⟩ = Configuration.checksum ⟨b⟩ →
        Digest.Blake3.Collision a.stream b.stream) := by
  have hbegins : a.stream <+: b.stream → a = b :=
    Stream.delimited_bundle.eq_of_isPrefix ha hb
  have hsame : a.stream = b.stream ↔ a = b :=
    ⟨fun h => hbegins (h ▸ List.prefix_rfl), fun h => h ▸ rfl⟩
  refine ⟨hsame, fun hstart => hsame.mpr (hbegins hstart), ?_⟩
  intro hne hchecksum
  exact ⟨fun h => hne (hsame.mp h), Checksum.mk.inj hchecksum⟩

/-- A bundle whose first fragment has one option and whose second one is empty. -/
def twoFragments (value : Value) : Bundle :=
  (empty.set ⟨OptionName.core, "tools"⟩ value).addFragment OptionName.platform

/-- An empty list of labels and a missing label are told apart, with nothing else on them. -/
theorem stream_unambiguous_of_nothing :
    (twoFragments (.labels [])).Countable ∧ (twoFragments (.label none)).Countable ∧
      (twoFragments (.labels [])).stream ≠ (twoFragments (.label none)).stream ∧
      ¬ (twoFragments (.labels [])).stream <+: (twoFragments (.label none)).stream := by
  have hlist : (twoFragments (.labels [])).Countable := ⟨by decide, by decide, by decide⟩
  have hlabel : (twoFragments (.label none)).Countable := ⟨by decide, by decide, by decide⟩
  have hne : twoFragments (.labels []) ≠ twoFragments (.label none) := by decide
  obtain ⟨hsame, hstart, -⟩ := stream_unambiguous hlist hlabel
  exact ⟨hlist, hlabel, mt hsame.mp hne, fun h => hne (hsame.mp (hstart h))⟩

end Bundle

end BuildConfig
