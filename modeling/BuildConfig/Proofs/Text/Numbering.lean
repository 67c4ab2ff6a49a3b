/-
The lines of a text and their numbers.

A line ends at a line feed, which may have a carriage return in front of it, and the last
line may go without.  `lines` are the lines in this sense, and `before` is the text up to
one of them, with all of the line ends.  The significant lines can be read off the lines
(`significant_eq`), although they are made of the pieces between the line feeds.

A significant line has the number that it has among all lines.  So a list of significant
lines that is split before one of them is split at a place in the text, and what stands
before it there has the lines before it (`exists_of_significantFrom_eq`).
-/
import BuildConfig.Proofs.Text.Contents
import BuildConfig.Proofs.Text.RoundTrip

namespace BuildConfig.Text

/-! ### Lines -/

/-- A line without the carriage return at its end. -/
def withoutReturn (cs : List Char) : List Char :=
  if cs.getLast? = some '\r' then cs.dropLast else cs

/-- The lines that the pieces between the line feeds make; after the last one nothing may follow. -/
def linesOf (pieces : List (List Char)) : List (List Char) :=
  pieces.dropLast.map withoutReturn ++ pieces.getLast?.toList.filter (!·.isEmpty)

/-- The lines of a text, without their ends. -/
def lines (text : String) : List (List Char) :=
  linesOf (pieces '\n' text.toList)

theorem linesOf_snoc (init : List (List Char)) (last : List Char) :
    linesOf (init ++ [last]) = init.map withoutReturn ++ [last].filter (!·.isEmpty) := by
  simp [linesOf]

private theorem trim_snoc_of_isBlank {c : Char} (h : isBlank c = true) (cs : List Char) :
    trim (cs ++ [c]) = trim cs := by
  have hend : ∀ cs : List Char, trimEnd (cs ++ [c]) = trimEnd cs := by
    intro cs
    simp [trimEnd, trimStart, h]
  have hstart : trimStart (cs ++ [c]) =
      if (trimStart cs).isEmpty then trimStart [c] else trimStart cs ++ [c] :=
    List.dropWhile_append
  rw [trim, trim, hstart]
  by_cases hempty : (trimStart cs).isEmpty
  · rw [if_pos hempty, List.isEmpty_iff.mp hempty]
    simp [trimStart, h]
  · rw [if_neg hempty, hend]

/-- A carriage return at the end of a line is a blank like others. -/
private theorem content_withoutReturn (cs : List Char) :
    content (withoutReturn cs) = content cs := by
  unfold withoutReturn
  split
  · rename_i hlast
    obtain ⟨init, rfl⟩ := List.getLast?_eq_some_iff.mp hlast
    rw [List.dropLast_concat]
    unfold content
    cases hcut : cut? '#' init with
    | none =>
        have hmem : '#' ∉ init ++ ['\r'] := by simpa using cut?_eq_none_iff.mp hcut
        rw [cut?_eq_none_iff.mpr hmem]
        exact (trim_snoc_of_isBlank (by decide) init).symm
    | some parts =>
        obtain ⟨rfl, hmem⟩ := cut?_eq_some_iff.mp hcut
        have hsplit : cut? '#' (parts.1 ++ '#' :: parts.2 ++ ['\r']) =
            some (parts.1, parts.2 ++ ['\r']) :=
          cut?_eq_some_iff.mpr ⟨by simp, hmem⟩
        rw [hsplit]
  · rfl

private theorem significantFrom_congr {first : Nat} {xs ys : List (List Char)}
    (h : xs.map content = ys.map content) :
    significantFrom first xs = significantFrom first ys := by
  induction xs generalizing first ys with
  | nil => rw [List.map_eq_nil_iff.mp h.symm]
  | cons cs rest ih =>
      obtain ⟨ds, others, rfl, hcontent, hrest⟩ := List.map_eq_cons_iff.mp h.symm
      rw [significantFrom, significantFrom, hcontent, ih hrest.symm]

theorem significantFrom_linesOf (first : Nat) (pieces : List (List Char)) :
    significantFrom first (linesOf pieces) = significantFrom first pieces := by
  rcases List.eq_nil_or_concat pieces with rfl | ⟨init, last, rfl⟩
  · rfl
  · have hinit : (init.map withoutReturn).map content = init.map content := by
      simp [content_withoutReturn]
    rw [List.concat_eq_append, linesOf_snoc, significantFrom_append, significantFrom_append,
      List.length_map, significantFrom_congr hinit]
    -- An empty piece after the last line feed is no line, and no significant one either.
    cases last with
    | nil => rfl
    | cons c cs => rfl

theorem significant_eq (text : String) : significant text = significantFrom 1 (lines text) :=
  (significantFrom_linesOf 1 _).symm

/-! ### A text up to one of its lines -/

/-- The characters up to the end of this many lines. -/
def upTo : Nat → List Char → List Char
  | 0, _ => []
  | _ + 1, [] => []
  | count + 1, c :: rest => if c = '\n' then c :: upTo count rest else c :: upTo (count + 1) rest

/-- The text before its line of this number. -/
def before (number : Nat) (text : String) : String :=
  String.ofList (upTo (number - 1) text.toList)

private theorem pieces_cons_of_ne {sep c : Char} (hc : c ≠ sep) {rest piece : List Char}
    {others : List (List Char)} (h : pieces sep rest = piece :: others) :
    pieces sep (c :: rest) = (c :: piece) :: others := by
  rw [pieces, if_neg hc, h]

theorem pieces_upTo (count : Nat) (cs : List Char) :
    pieces '\n' (upTo count cs) =
      if count < (pieces '\n' cs).length then (pieces '\n' cs).take count ++ [[]]
      else pieces '\n' cs := by
  induction cs generalizing count with
  | nil => cases count <;> simp [upTo, pieces]
  | cons c rest ih =>
      obtain ⟨piece, others, hpieces⟩ := List.exists_cons_of_ne_nil (pieces_ne_nil '\n' rest)
      cases count with
      | zero =>
          rw [if_pos (List.length_pos_iff.mpr (pieces_ne_nil _ _))]
          rfl
      | succ count =>
          by_cases hc : c = '\n'
          · rw [upTo, if_pos hc, pieces, if_pos hc, ih, pieces, if_pos hc]
            simp only [List.length_cons, Nat.add_lt_add_iff_right]
            split <;> simp
          · have hrest := ih (count + 1)
            rw [hpieces] at hrest
            rw [upTo, if_neg hc, pieces_cons_of_ne hc hpieces]
            by_cases hlt : count < others.length
            · rw [if_pos (by simpa using hlt)] at hrest
              rw [pieces_cons_of_ne hc hrest, if_pos (by simpa using hlt)]
              rfl
            · rw [if_neg (by simpa using hlt)] at hrest
              rw [pieces_cons_of_ne hc hrest, if_neg (by simpa using hlt)]

theorem lines_before (number : Nat) (text : String) :
    lines (before number text) = (lines text).take (number - 1) := by
  rw [lines, before, String.toList_ofList, pieces_upTo, lines]
  generalize number - 1 = count
  obtain ⟨init, last, hpieces⟩ : ∃ init last, pieces '\n' text.toList = init ++ [last] := by
    rcases List.eq_nil_or_concat (pieces '\n' text.toList) with h | ⟨init, last, h⟩
    · exact absurd h (pieces_ne_nil _ _)
    · exact ⟨init, last, by rw [h, List.concat_eq_append]⟩
  rw [hpieces, linesOf_snoc]
  by_cases hcount : count ≤ init.length
  · rw [if_pos (by simp; omega), List.take_append_of_le_length hcount, linesOf_snoc,
      List.take_append_of_le_length (by simpa using hcount), List.map_take]
    simp
  · have hlength : ([last].filter (!·.isEmpty)).length ≤ 1 := List.length_filter_le _ _
    rw [if_neg (by simp; omega), linesOf_snoc, List.take_of_length_le]
    simp only [List.length_append, List.length_map]
    omega

/-! ### Numbers -/

/-- What stands before a significant line, and where. -/
theorem exists_of_significantFrom_eq {first : Nat} {xs : List (List Char)}
    {earlier later : List Line} {line : Line}
    (h : significantFrom first xs = earlier ++ line :: later) :
    ∃ ys cs zs, xs = ys ++ cs :: zs ∧ significantFrom first ys = earlier ∧
      line = ⟨first + ys.length, content cs⟩ ∧ content cs ≠ [] := by
  induction xs generalizing first earlier with
  | nil => simp [significantFrom] at h
  | cons cs rest ih =>
      by_cases hempty : (content cs).isEmpty
      · rw [significantFrom, if_pos hempty] at h
        obtain ⟨ys, ds, zs, rfl, hearlier, hline, hds⟩ := ih h
        refine ⟨cs :: ys, ds, zs, rfl, ?_, ?_, hds⟩
        · rw [significantFrom, if_pos hempty, hearlier]
        · rw [hline, List.length_cons, Nat.add_assoc, Nat.add_comm 1]
      · rw [significantFrom, if_neg hempty] at h
        cases earlier with
        | nil =>
            obtain ⟨rfl, -⟩ := List.cons.inj h
            exact ⟨[], cs, rest, rfl, rfl, rfl, by simpa using hempty⟩
        | cons shown earlier =>
            obtain ⟨rfl, hrest⟩ := List.cons.inj h
            obtain ⟨ys, ds, zs, rfl, hearlier, hline, hds⟩ := ih hrest
            refine ⟨cs :: ys, ds, zs, rfl, ?_, ?_, hds⟩
            · rw [significantFrom, if_neg hempty, hearlier]
            · rw [hline, List.length_cons, Nat.add_assoc, Nat.add_comm 1]

end BuildConfig.Text
