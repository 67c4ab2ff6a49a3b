/-
When a flag reads back from its text.

The text of a flag has no quotes.  What follows the two dashes is cut at the first equals
sign, and what stands before that at the first point.  Neither character can stand in a
name, so a flag with proper names is cut where its parts were joined, whatever stands in
its value: equals signs, points, dashes and blanks in front are the value's own.  Only
blanks at the end of the value get lost, since they are blanks at the end of the text.
`Legible` is what is left to ask of a flag.

There is one more way to write a flag, without its value, when that is the implied one.
`Spells` has both, and `read_eq_ok_iff` says that what is read from a text is the legible
flag that it spells.  So every flag that is read from any text is legible, and its own
text is as good as the one it was read from.
-/
import BuildConfig.Flag
import BuildConfig.Proofs.Text.RoundTrip

namespace BuildConfig.Flag

/-- A name of a fragment or of an option, as flags can have it. -/
structure Name (name : String) : Prop where
  ne_nil : name.toList ≠ []
  /-- Letters and digits of ASCII, and two signs. -/
  chars : ∀ c ∈ name.toList, c.isAlphanum = true ∨ c = '_' ∨ c = '-'

/-- Nothing in the flag gets lost in its text. -/
structure Legible (flag : Flag) : Prop where
  fragment : Name flag.name.fragment
  option : Name flag.name.option
  /-- The value does not end with a blank. -/
  value : ∀ c, flag.value.toList.getLast? = some c → Text.isBlank c = false

/-- The text is that of the flag, or is without the value because that is the implied one. -/
def Spells (cs : List Char) (flag : Flag) : Prop :=
  cs = flag.text.toList ∨ cs = lead ++ flag.name.text.toList ∧ flag.value.toList = impliedValue

/-! ### Names -/

theorem isName_iff {name : String} : isName name.toList = true ↔ Name name := by
  rw [isName, Bool.and_eq_true, Bool.not_eq_true', List.isEmpty_eq_false_iff, List.all_eq_true]
  simp only [isNameChar, Bool.or_eq_true, beq_iff_eq, or_assoc]
  exact ⟨fun ⟨hne, hchars⟩ => ⟨hne, hchars⟩, fun h => ⟨h.ne_nil, h.chars⟩⟩

theorem Name.not_mem {name : String} (h : Name name) {c : Char} (hc : isNameChar c = false) :
    c ∉ name.toList := by
  intro hmem
  have hall := (Bool.and_eq_true_iff.mp (isName_iff.mpr h)).2
  rw [List.all_eq_true.mp hall c hmem] at hc
  cases hc

private theorem toList_name_text (name : OptionName) :
    name.text.toList = name.fragment.toList ++ '.' :: name.option.toList := by
  simp [OptionName.text]

private theorem cut?_name_text {name : OptionName} (h : Name name.fragment) :
    Text.cut? '.' name.text.toList = some (name.fragment.toList, name.option.toList) :=
  Text.cut?_eq_some_iff.mpr ⟨toList_name_text name, h.not_mem rfl⟩

private theorem not_mem_name_text {name : OptionName} (hfragment : Name name.fragment)
    (hoption : Name name.option) : '=' ∉ name.text.toList := by
  rw [toList_name_text, List.mem_append, List.mem_cons]
  rintro (h | h | h)
  · exact hfragment.not_mem rfl h
  · cases h
  · exact hoption.not_mem rfl h

/-! ### What follows the two dashes -/

/-- A body is cut behind the name that it begins with, or is all name. -/
private theorem getD_cut?_eq_iff {body name value : List Char} (h : '=' ∉ name) :
    (Text.cut? '=' body).getD (body, impliedValue) = (name, value) ↔
      body = name ++ '=' :: value ∨ body = name ∧ value = impliedValue := by
  constructor
  · intro hparts
    cases hcut : Text.cut? '=' body with
    | none =>
        rw [hcut] at hparts
        cases hparts
        exact .inr ⟨rfl, rfl⟩
    | some parts =>
        rw [hcut] at hparts
        cases hparts
        exact .inl (Text.cut?_eq_some_iff.mp hcut).1
  · rintro (rfl | ⟨rfl, rfl⟩)
    · rw [Text.cut?_eq_some_iff.mpr ⟨rfl, h⟩]
      rfl
    · rw [Text.cut?_eq_none_iff.mpr h]
      rfl

private theorem readBody_eq_ok_iff_cut {shown : String} {body : List Char} {flag : Flag} :
    readBody shown body = .ok flag ↔ Name flag.name.fragment ∧ Name flag.name.option ∧
      (Text.cut? '=' body).getD (body, impliedValue) =
        (flag.name.text.toList, flag.value.toList) := by
  unfold readBody
  generalize (Text.cut? '=' body).getD (body, impliedValue) = parts
  obtain ⟨name, value⟩ := parts
  constructor
  · intro h
    dsimp only at h
    split at h
    · cases h
    · rename_i fragment option hcut
      split at h
      · rename_i hnames
        cases h
        obtain ⟨rfl, -⟩ := Text.cut?_eq_some_iff.mp hcut
        rw [Bool.and_eq_true, ← String.toList_ofList (l := fragment),
          ← String.toList_ofList (l := option), isName_iff, isName_iff] at hnames
        refine ⟨hnames.1, hnames.2, ?_⟩
        simp only [toList_name_text, String.toList_ofList]
      · cases h
  · rintro ⟨hfragment, hoption, hparts⟩
    cases hparts
    simp only [cut?_name_text hfragment, isName_iff.mpr hfragment, isName_iff.mpr hoption,
      String.ofList_toList, Bool.and_self, if_true]

theorem readBody_eq_ok_iff {shown : String} {body : List Char} {flag : Flag} :
    readBody shown body = .ok flag ↔ Name flag.name.fragment ∧ Name flag.name.option ∧
      (body = flag.name.text.toList ++ '=' :: flag.value.toList ∨
        body = flag.name.text.toList ∧ flag.value.toList = impliedValue) := by
  rw [readBody_eq_ok_iff_cut]
  refine and_congr_right fun hfragment => and_congr_right fun hoption => ?_
  exact getD_cut?_eq_iff (not_mem_name_text hfragment hoption)

/-! ### The text as a whole -/

private theorem begins_iff {cs : List Char} : begins cs = true ↔ ∃ body, cs = lead ++ body := by
  rw [begins, List.isPrefixOf_iff_prefix]
  exact exists_congr fun _ => eq_comm

theorem read_eq_ok_iff_body {text : String} {flag : Flag} :
    read text = .ok flag ↔ ∃ body, Text.trim text.toList = lead ++ body ∧
      readBody (String.ofList (Text.trim text.toList)) body = .ok flag := by
  unfold read
  generalize Text.trim text.toList = cs
  dsimp only
  constructor
  · intro h
    split at h
    · rename_i hbegins
      obtain ⟨body, rfl⟩ := begins_iff.mp hbegins
      rw [List.drop_left] at h
      exact ⟨body, rfl, h⟩
    · cases h
  · rintro ⟨body, rfl, h⟩
    rw [if_pos (begins_iff.mpr ⟨body, rfl⟩), List.drop_left, h]

private theorem toList_text (flag : Flag) :
    flag.text.toList = lead ++ (flag.name.text.toList ++ '=' :: flag.value.toList) := by
  simp [text, lead]

theorem spells_iff_body {cs : List Char} {flag : Flag} :
    Spells cs flag ↔ ∃ body, cs = lead ++ body ∧
      (body = flag.name.text.toList ++ '=' :: flag.value.toList ∨
        body = flag.name.text.toList ∧ flag.value.toList = impliedValue) := by
  rw [Spells, toList_text]
  constructor
  · rintro (h | ⟨h, hvalue⟩)
    · exact ⟨_, h, .inl rfl⟩
    · exact ⟨_, h, .inr ⟨rfl, hvalue⟩⟩
  · rintro ⟨body, h, rfl | ⟨rfl, hvalue⟩⟩
    · exact .inl h
    · exact .inr ⟨h, hvalue⟩

/-! ### Blanks -/

private theorem getLast?_text (flag : Flag) :
    flag.text.toList.getLast? = some (flag.value.toList.getLast?.getD '=') := by
  rw [toList_text, ← List.append_assoc, List.getLast?_append, List.getLast?_cons, Option.some_or]

/-- Trimming takes nothing from the text exactly when the value does not end with a blank. -/
private theorem trim_text_iff {flag : Flag} :
    Text.trim flag.text.toList = flag.text.toList ↔
      ∀ c, flag.value.toList.getLast? = some c → Text.isBlank c = false := by
  rw [Text.trim_eq_self_iff, getLast?_text]
  constructor
  · rintro ⟨-, hlast⟩ c hc
    refine hlast c ?_
    rw [hc, Option.getD_some]
  · intro h
    refine ⟨?_, ?_⟩
    · intro c hc
      rw [toList_text] at hc
      cases hc
      decide
    · intro c hc
      cases hlast : flag.value.toList.getLast? with
      | none =>
          rw [hlast] at hc
          cases hc
          decide
      | some last =>
          rw [hlast] at hc
          cases hc
          exact h _ hlast

/-- A text without blanks at its ends spells only flags that end with none. -/
theorem Spells.value {cs : List Char} {flag : Flag} (h : Spells (Text.trim cs) flag) :
    ∀ c, flag.value.toList.getLast? = some c → Text.isBlank c = false := by
  rcases h with h | ⟨-, hvalue⟩
  · rw [← trim_text_iff, ← h, Text.trim_trim]
  · intro c hc
    rw [hvalue] at hc
    cases hc
    decide

/-- **What is read from a text is the legible flag that it spells**, blanks around it aside. -/
theorem read_eq_ok_iff {text : String} {flag : Flag} :
    read text = .ok flag ↔ flag.Legible ∧ Spells (Text.trim text.toList) flag := by
  rw [read_eq_ok_iff_body]
  simp only [readBody_eq_ok_iff]
  constructor
  · rintro ⟨body, htrim, hfragment, hoption, hbody⟩
    have hspells := spells_iff_body.mpr ⟨body, htrim, hbody⟩
    exact ⟨⟨hfragment, hoption, hspells.value⟩, hspells⟩
  · rintro ⟨hlegible, hspells⟩
    obtain ⟨body, htrim, hbody⟩ := spells_iff_body.mp hspells
    exact ⟨body, htrim, hlegible.fragment, hlegible.option, hbody⟩

/-- A legible flag spells itself. -/
theorem read_text_eq_ok_iff {flag : Flag} : read flag.text = .ok flag ↔ flag.Legible := by
  rw [read_eq_ok_iff]
  constructor
  · exact And.left
  · intro h
    exact ⟨h, .inl (trim_text_iff.mpr h.value)⟩

/--
**A flag reads back exactly when it is legible**, and every flag that is read from any
text is legible.  So a flag that was read once is read again from its own text.
-/
theorem legible_iff_reads_back :
    (∀ flag : Flag, read flag.text = .ok flag ↔ flag.Legible) ∧
      ∀ (text : String) (flag : Flag), read text = .ok flag →
        flag.Legible ∧ read flag.text = .ok flag := by
  refine ⟨fun flag => read_text_eq_ok_iff, ?_⟩
  intro text flag h
  have hlegible := (read_eq_ok_iff.mp h).1
  exact ⟨hlegible, read_text_eq_ok_iff.mpr hlegible⟩

/-- A flag that is read without its value is written with it. -/
theorem legible_of_short :
    read " --core.is_exec\t" = .ok ⟨.isExec, "true"⟩ ∧
      Legible ⟨.isExec, "true"⟩ ∧ read "--core.is_exec=true" = .ok ⟨.isExec, "true"⟩ := by
  have hread : read " --core.is_exec\t" = .ok ⟨.isExec, "true"⟩ := rfl
  exact ⟨hread, legible_iff_reads_back.2 _ _ hread⟩

end BuildConfig.Flag
