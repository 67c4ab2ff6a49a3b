/-
The order of texts is the order of their bytes.

Texts are compared character by character, by code point.  In UTF-8 a character has up to
four bytes, and still nothing else comes out when the bytes are compared instead.  The
first byte says how many there are, and more bytes mean a greater first byte and a greater
code point; among characters of one length the bytes are the digits of the code point.  So
two characters differ at a byte that both of them have, whatever comes after them
(`utf8EncodeChar_lt`), and the first character at which two texts differ decides in both
orders.
-/
import BuildConfig.SortedMap
import Mathlib.Tactic.SplitIfs

namespace BuildConfig.Text

/-- The bytes of a text in UTF-8. -/
def bytes (s : String) : List UInt8 :=
  s.toByteArray.data.toList

theorem bytes_eq_flatMap (s : String) : bytes s = s.toList.flatMap String.utf8EncodeChar := by
  have hutf8 : s.toByteArray = s.toList.utf8Encode := by
    rw [← String.toByteArray_ofList, String.ofList_toList]
  rw [bytes, hutf8, List.utf8Encode, List.data_toByteArray]

/-! ### Characters -/

private theorem ofNat_cons_lt {n m : Nat} {rest others : List UInt8} (hle : n ≤ m) (hm : m < 256)
    (hrest : n = m → rest < others) : UInt8.ofNat n :: rest < UInt8.ofNat m :: others := by
  have hn : n < 256 := by omega
  have hlt : UInt8.ofNat n < UInt8.ofNat m ↔ n < m := by
    rw [UInt8.lt_iff_toNat_lt, UInt8.toNat_ofNat', UInt8.toNat_ofNat']
    omega
  rw [List.cons_lt_cons_iff, hlt]
  rcases Nat.lt_or_eq_of_le hle with h | h
  · exact Or.inl h
  · exact Or.inr ⟨by rw [h], hrest h⟩

/-- Of two characters the lesser has the lesser bytes, whatever comes after them. -/
private theorem utf8EncodeChar_lt {c d : Char} (h : c < d) (rest others : List UInt8) :
    String.utf8EncodeChar c ++ rest < String.utf8EncodeChar d ++ others := by
  have hcd : c.val.toNat < d.val.toNat := h
  have hd : d.val.toNat < 0x110000 := by
    rcases d.valid with hd | hd <;> omega
  unfold String.utf8EncodeChar
  generalize c.val.toNat = n at hcd ⊢
  generalize d.val.toNat = m at hcd hd ⊢
  dsimp only
  -- By the length of the first character and then of the second.  Only for equal lengths is
  -- there more to say than that the first bytes differ, or that the lengths are impossible.
  split
  · split_ifs <;> exact ofNat_cons_lt (by omega) (by omega) (by omega)
  · split
    · split_ifs
      · omega
      · exact ofNat_cons_lt (by omega) (by omega) fun _ =>
          ofNat_cons_lt (by omega) (by omega) (by omega)
      · exact ofNat_cons_lt (by omega) (by omega) (by omega)
      · exact ofNat_cons_lt (by omega) (by omega) (by omega)
    · split
      · split_ifs
        · omega
        · omega
        · exact ofNat_cons_lt (by omega) (by omega) fun _ =>
            ofNat_cons_lt (by omega) (by omega) fun _ =>
              ofNat_cons_lt (by omega) (by omega) (by omega)
        · exact ofNat_cons_lt (by omega) (by omega) (by omega)
      · split_ifs
        · omega
        · omega
        · omega
        · exact ofNat_cons_lt (by omega) (by omega) fun _ =>
            ofNat_cons_lt (by omega) (by omega) fun _ =>
              ofNat_cons_lt (by omega) (by omega) fun _ =>
                ofNat_cons_lt (by omega) (by omega) (by omega)

private theorem utf8EncodeChar_ne_nil (c : Char) : String.utf8EncodeChar c ≠ [] := by
  unfold String.utf8EncodeChar
  dsimp only
  split_ifs <;> simp

/-! ### Texts -/

private theorem flatMap_utf8EncodeChar_lt {cs ds : List Char} (h : cs < ds) :
    cs.flatMap String.utf8EncodeChar < ds.flatMap String.utf8EncodeChar := by
  induction cs generalizing ds with
  | nil =>
      cases ds with
      | nil => simp at h
      | cons d ds =>
          obtain ⟨byte, more, hd⟩ := List.exists_cons_of_ne_nil (utf8EncodeChar_ne_nil d)
          simp [hd]
  | cons c cs ih =>
      cases ds with
      | nil => simp at h
      | cons d ds =>
          rw [List.flatMap_cons, List.flatMap_cons]
          rcases List.cons_lt_cons_iff.mp h with hlt | ⟨rfl, hlt⟩
          · exact utf8EncodeChar_lt hlt _ _
          · exact List.append_left_lt (ih hlt)

/-- **Texts are in the order of their bytes.** -/
theorem lt_iff_bytes_lt {s t : String} : s < t ↔ bytes s < bytes t := by
  have hbytes : ∀ {s t : String}, s < t → bytes s < bytes t := by
    intro s t h
    rw [bytes_eq_flatMap, bytes_eq_flatMap]
    exact flatMap_utf8EncodeChar_lt (String.lt_iff.mp h)
  refine ⟨hbytes, ?_⟩
  intro h
  rcases KeyOrder.total s t with hlt | rfl | hgt
  · exact hlt
  · exact absurd h (List.lt_irrefl _)
  · exact absurd h (List.lt_asymm (hbytes hgt))

end BuildConfig.Text
