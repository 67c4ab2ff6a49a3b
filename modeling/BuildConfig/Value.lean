/-
Values of options.

A value is of one of five kinds and an option never changes the kind of what it
holds.  So a text is always read with a kind in mind: `Kind.read` reads it as a value
of that kind, and `Value.text` writes a value so that it reads back.
-/
import BuildConfig.Text.Decimal
import BuildConfig.Text.Quoted
import BuildConfig.Label

namespace BuildConfig

/-- The value of one option. -/
inductive Value
  | bool (b : Bool)
  | int (n : Int64)
  | string (s : String)
  | label (l : Option Label)
  | labels (ls : List Label)
  deriving DecidableEq

namespace Value

/-- The kind of a value. -/
def kind : Value → Kind
  | bool _ => .bool
  | int _ => .int
  | string _ => .string
  | label _ => .label
  | labels _ => .labels

/-- A value as text; a missing label is empty, and a list has commas between its labels. -/
def text : Value → String
  | bool b => if b then "true" else "false"
  | int n => String.ofList (Text.Decimal.write n)
  | string s => s
  | label none => ""
  | label (some l) => l.text
  | labels ls => ",".intercalate (ls.map Label.text)

/-- The value as it stands in descriptions. -/
def describe : Value → String
  | bool b => "Bool(" ++ (bool b).text ++ ")"
  | int n => "Int(" ++ (int n).text ++ ")"
  | string s => "Str(" ++ Text.Quoted.quote s ++ ")"
  | label none => "Label(None)"
  | label (some l) => "Label(Some(" ++ l.describe ++ "))"
  | labels ls => "Labels([" ++ ", ".intercalate (ls.map Label.describe) ++ "])"

end Value

namespace Kind

/-- The texts that stand for true. -/
def trueTexts : List String := ["true", "1", "yes"]

/-- The texts that stand for false. -/
def falseTexts : List String := ["false", "0", "no"]

/-- The items of a list: what stands between commas, without blanks around it, if anything. -/
def items (cs : List Char) : List String :=
  ((Text.pieces ',' cs).map Text.trim).filter (!·.isEmpty) |>.map String.ofList

/-- The labels that the texts stand for, or the error of the first that is none. -/
def readLabels : List String → Except OptionsError (List Label)
  | [] => .ok []
  | item :: rest =>
    match Label.read item with
    | .error e => .error e
    | .ok l =>
      match readLabels rest with
      | .error e => .error e
      | .ok ls => .ok (l :: ls)

/-- The value of the given kind that a text stands for, blanks around it aside. -/
def read (kind : Kind) (raw : String) : Except OptionsError Value :=
  let cs := Text.trim raw.toList
  let shown := String.ofList cs
  match kind with
  | bool =>
    if shown ∈ trueTexts then .ok (.bool true)
    else if shown ∈ falseTexts then .ok (.bool false)
    else .error (.notABoolean shown)
  | int =>
    match Text.Decimal.read? cs with
    | some n => .ok (.int n)
    | none => .error (.notAnInteger shown)
  | string => .ok (.string shown)
  | label =>
    if cs.isEmpty then .ok (.label none)
    else (Label.read shown).map fun l => .label (some l)
  | labels => (readLabels (items cs)).map .labels

/-- What is read as a kind is of that kind. -/
theorem kind_of_read {kind : Kind} {raw : String} {v : Value} (h : kind.read raw = .ok v) :
    v.kind = kind := by
  unfold read at h
  cases kind with
  | bool =>
    simp only at h
    split at h
    · cases h; rfl
    · split at h
      · cases h; rfl
      · cases h
  | int =>
    simp only at h
    split at h
    · cases h; rfl
    · cases h
  | string => cases h; rfl
  | label =>
    simp only at h
    split at h
    · cases h; rfl
    · cases hl : Label.read (String.ofList (Text.trim raw.toList)) with
      | error e => rw [hl] at h; cases h
      | ok l => rw [hl] at h; cases h; rfl
  | labels =>
    simp only at h
    cases hl : readLabels (items (Text.trim raw.toList)) with
    | error e => rw [hl] at h; cases h
    | ok ls => rw [hl] at h; cases h; rfl

end Kind

end BuildConfig
