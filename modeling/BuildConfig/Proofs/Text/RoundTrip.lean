/-
Texts that read back as what was written.

A reader drops the blanks around what it reads, cuts lists at commas and takes digits for
numbers.  So a text reads back when it has no blanks at its ends, when cutting a list
finds the items that were joined, and when the digits of a number are those that the
reader adds up.  These are the three facts of this module, each about one way of reading.
-/
import BuildConfig.Text.Blank
import BuildConfig.Text.Decimal
import BuildConfig.Text.Split

namespace BuildConfig.Text

/-! ### Blanks -/

private theorem trimStart_eq_self_iff {cs : List Char} :
    trimStart cs = cs ↔ ∀ c, cs.head? = some c → isBlank c = false := by
  constructor
  · intro h c hc
    exact head_trimStart (h.symm ▸ hc)
  · intro h
    cases cs with
    | nil => rfl
    | cons c cs => rw [trimStart, List.dropWhile_cons_of_neg (by simp [h c rfl])]

private theorem trimEnd_eq_self_iff {cs : List Char} :
    trimEnd cs = cs ↔ ∀ c, cs.getLast? = some c → isBlank c = false := by
  rw [← List.head?_reverse, ← trimStart_eq_self_iff, trimEnd, ← List.reverse_inj,
    List.reverse_reverse]

private theorem head_trim {cs : List Char} {c : Char} (h : (trim cs).head? = some c) :
    isBlank c = false := by
  obtain ⟨blanks, -, hsplit⟩ := trimEnd_split (trimStart cs)
  have hhead : (trimStart cs).head? = some c := by
    rw [hsplit, List.head?_append]
    show (trim cs).head?.or blanks.head? = some c
    rw [h, Option.some_or]
  exact head_trimStart hhead

private theorem getLast_trim {cs : List Char} {c : Char} (h : (trim cs).getLast? = some c) :
    isBlank c = false := by
  rw [trim, trimEnd, List.getLast?_reverse] at h
  exact head_trimStart h

/-- Trimming leaves a text as it is exactly when no blank stands at its ends. -/
theorem trim_eq_self_iff {cs : List Char} :
    trim cs = cs ↔ (∀ c, cs.head? = some c → isBlank c = false) ∧
      ∀ c, cs.getLast? = some c → isBlank c = false := by
  constructor
  · intro h
    rw [← h]
    exact ⟨fun _ hc => head_trim hc, fun _ hc => getLast_trim hc⟩
  · rintro ⟨hhead, hlast⟩
    rw [trim, trimStart_eq_self_iff.mpr hhead, trimEnd_eq_self_iff.mpr hlast]

theorem trim_trim (cs : List Char) : trim (trim cs) = trim cs :=
  trim_eq_self_iff.mpr ⟨fun _ hc => head_trim hc, fun _ hc => getLast_trim hc⟩

theorem trim_eq_self {cs : List Char} (h : ∀ c ∈ cs, isBlank c = false) : trim cs = cs :=
  trim_eq_self_iff.mpr
    ⟨fun c hc => h c (List.mem_of_head? hc), fun c hc => h c (List.mem_of_getLast? hc)⟩

theorem mem_of_mem_trim {cs : List Char} {c : Char} (h : c ∈ trim cs) : c ∈ cs := by
  obtain ⟨before, -, hbefore⟩ := trimStart_split cs
  obtain ⟨after, -, hafter⟩ := trimEnd_split (trimStart cs)
  rw [hbefore, hafter]
  exact List.mem_append_right _ (List.mem_append_left _ h)

/-! ### Pieces -/

theorem pieces_of_not_mem {sep : Char} {cs : List Char} (h : sep ∉ cs) : pieces sep cs = [cs] := by
  induction cs with
  | nil => rfl
  | cons c rest ih =>
      rw [List.mem_cons, not_or] at h
      rw [pieces, if_neg (Ne.symm h.1), ih h.2]

/-- Cutting a text is cutting what stands before one of its separators and what comes after. -/
theorem pieces_append (sep : Char) (before after : List Char) :
    pieces sep (before ++ sep :: after) = pieces sep before ++ pieces sep after := by
  induction before with
  | nil => simp [pieces]
  | cons c rest ih =>
      rw [List.cons_append, pieces, pieces, ih]
      by_cases hc : c = sep
      · rw [if_pos hc, if_pos hc, List.cons_append]
      · rw [if_neg hc, if_neg hc]
        obtain ⟨piece, others, hpieces⟩ := List.exists_cons_of_ne_nil (pieces_ne_nil sep rest)
        rw [hpieces]
        rfl

private theorem intercalate_cons_cons (sep : Char) (first second : List Char)
    (rest : List (List Char)) :
    [sep].intercalate (first :: second :: rest) =
      first ++ sep :: [sep].intercalate (second :: rest) := by
  simp [List.intercalate]

/-- Cutting joined texts is cutting each of them. -/
theorem pieces_intercalate (sep : Char) {texts : List (List Char)} (h : texts ≠ []) :
    pieces sep ([sep].intercalate texts) = texts.flatMap (pieces sep) := by
  induction texts with
  | nil => exact absurd rfl h
  | cons first rest ih =>
      cases rest with
      | nil => simp [List.intercalate]
      | cons second rest =>
          rw [intercalate_cons_cons, pieces_append, ih (List.cons_ne_nil _ _),
            List.flatMap_cons (x := first)]

/-- What is true of the separator and of all characters of texts is true once they are joined. -/
theorem forall_mem_intercalate {sep : Char} {may : Char → Prop} (hsep : may sep)
    {texts : List (List Char)} (h : ∀ cs ∈ texts, ∀ c ∈ cs, may c) :
    ∀ c ∈ [sep].intercalate texts, may c := by
  induction texts with
  | nil => simp [List.intercalate]
  | cons first rest ih =>
      rw [List.forall_mem_cons] at h
      cases rest with
      | nil => simpa [List.intercalate] using h.1
      | cons second rest =>
          rw [intercalate_cons_cons]
          intro c hc
          rcases List.mem_append.mp hc with hfirst | hrest
          · exact h.1 c hfirst
          · rcases List.mem_cons.mp hrest with rfl | hrest
            · exact hsep
            · exact ih h.2 c hrest

/-! ### Numbers -/

namespace Decimal

theorem natural?_toDigits (n : Nat) : natural? (Nat.toDigits 10 n) = some n := by
  have hempty : (Nat.toDigits 10 n).isEmpty = false := by
    rw [List.isEmpty_eq_false_iff]
    exact Nat.toDigits_ne_nil
  have hdigits : (Nat.toDigits 10 n).all Char.isDigit = true := by
    rw [List.all_eq_true]
    intro c hc
    exact Nat.isDigit_of_mem_toDigits (by decide) (by decide) hc
  rw [natural?, hempty, hdigits, Nat.ofDigitChars_ten_toDigits]
  rfl

/-- Digits begin with no sign. -/
theorem signed?_toDigits (n : Nat) : signed? (Nat.toDigits 10 n) = some (n : Int) := by
  have hnatural := natural?_toDigits n
  cases hdigits : Nat.toDigits 10 n with
  | nil => exact absurd hdigits Nat.toDigits_ne_nil
  | cons c cs =>
      have hc : c.isDigit = true :=
        Nat.isDigit_of_mem_toDigits (b := 10) (n := n) (by decide) (by decide)
          (by rw [hdigits]; simp)
      rw [hdigits] at hnatural
      have hminus : c ≠ '-' := by
        rintro rfl
        exact absurd hc (by decide)
      have hplus : c ≠ '+' := by
        rintro rfl
        exact absurd hc (by decide)
      rw [signed?, if_neg hminus, if_neg hplus, hnatural]
      rfl

theorem signed?_write (n : Int64) : signed? (write n) = some n.toInt := by
  unfold write
  by_cases hneg : n.toInt < 0
  · rw [if_pos hneg, signed?, if_pos rfl, natural?_toDigits]
    show some (-(n.toInt.natAbs : Int)) = some n.toInt
    rw [Int.ofNat_natAbs_of_nonpos (Int.le_of_lt hneg), Int.neg_neg]
  · rw [if_neg hneg, signed?_toDigits, Int.natAbs_of_nonneg (Int.not_lt.mp hneg)]

private theorem not_isBlank_of_isDigit {c : Char} (h : c.isDigit = true) : isBlank c = false := by
  have hdigit := Char.isDigit_iff_toNat.mp h
  have hbounds : 48 ≤ c.toNat ∧ c.toNat ≤ 57 := hdigit
  simp only [isBlank, blankRanges, List.any_cons, List.any_nil, Bool.or_false, Bool.or_eq_false_iff,
    Bool.and_eq_false_iff, decide_eq_false_iff_not]
  omega

theorem not_isBlank_write (n : Int64) : ∀ c ∈ write n, isBlank c = false := by
  have hdigits : ∀ c ∈ Nat.toDigits 10 n.toInt.natAbs, isBlank c = false := fun c hc =>
    not_isBlank_of_isDigit (Nat.isDigit_of_mem_toDigits (by decide) (by decide) hc)
  unfold write
  by_cases hneg : n.toInt < 0
  · rw [if_pos hneg, List.forall_mem_cons]
    exact ⟨by decide, hdigits⟩
  · rwa [if_neg hneg]

/-- **Every number of sixty-four bits reads back.** -/
theorem read?_write (n : Int64) : read? (write n) = some n := by
  rw [read?, signed?_write]
  show (if _ then some (Int64.ofInt n.toInt) else none) = some n
  rw [if_pos ⟨Int64.minValue_le_toInt n, n.toInt_le⟩, Int64.ofInt_toInt]

end Decimal

end BuildConfig.Text
