/-
Settings of the evaluation.

There are two of them, and both have a default.  They are read from JSON: an object names
the settings that it changes, each at most once and no others, and an array gives them by
position, leaving out as many as it likes at its end.
-/
import BuildConfig.Label
import BuildConfig.Json.Reader

namespace BuildConfig

/-- What can be chosen about the evaluation of baselines. -/
structure Settings where
  /-- The execution platform of a request that names none. -/
  placeholder : Label
  /-- Whether a requested platform is mapped once it is in place. -/
  remap : Bool
  deriving DecidableEq

namespace Settings

/-- The text of the default placeholder. -/
def placeholderText : String :=
  "//internal:placeholder_exec_platform"

theorem isWellFormed_placeholderText : Label.isWellFormed placeholderText.toList = true := by
  decide

/-- The settings where nothing is chosen. -/
def default : Settings :=
  ⟨⟨placeholderText, isWellFormed_placeholderText⟩, true⟩

/-- The label written in a JSON value. -/
def label? : Json → Option Label
  | .string s => (Label.read s).toOption
  | _ => none

/-- The truth value written in a JSON value. -/
def bool? : Json → Option Bool
  | .bool b => some b
  | _ => none

/-- Settings of which some are not yet chosen. -/
structure Choice where
  placeholder : Option Label
  remap : Option Bool

/-- The choice with one more field of an object. -/
def Choice.add? (choice : Choice) : String × Json → Option Choice
  | (name, value) =>
    if name = "placeholder_exec_platform" then
      if choice.placeholder.isSome then none
      else (label? value).map fun l => ⟨some l, choice.remap⟩
    else if name = "remap_after_platform_change" then
      if choice.remap.isSome then none
      else (bool? value).map fun b => ⟨choice.placeholder, some b⟩
    else none

/-- The choice after all fields of an object. -/
def Choice.addAll? (choice : Choice) : List (String × Json) → Option Choice
  | [] => some choice
  | field :: fields =>
    match choice.add? field with
    | some next => next.addAll? fields
    | none => none

/-- The choice made by the items of an array. -/
def Choice.ofItems? : List Json → Option Choice
  | [] => some ⟨none, none⟩
  | [first] => (label? first).map fun l => ⟨some l, none⟩
  | [first, second] =>
    match label? first, bool? second with
    | some l, some b => some ⟨some l, some b⟩
    | _, _ => none
  | _ => none

/-- The settings with the defaults where nothing is chosen. -/
def ofChoice (choice : Choice) : Settings :=
  ⟨choice.placeholder.getD default.placeholder, choice.remap.getD default.remap⟩

/-- The settings written in a JSON value. -/
def ofJson? : Json → Option Settings
  | .object fields => (Choice.addAll? ⟨none, none⟩ fields).map ofChoice
  | .array items => (Choice.ofItems? items).map ofChoice
  | _ => none

/-- The settings written in a JSON text. -/
def read? (text : String) : Option Settings :=
  (Json.read? text).bind ofJson?

end Settings

namespace Label

/-- The label that a JSON text stands for. -/
def ofJsonText? (text : String) : Option Label :=
  match Json.read? text with
  | some (.string s) => (read s).toOption
  | _ => none

/-- The label as JSON text. -/
def toJsonText (label : Label) : String :=
  Json.quote label.text

end Label

end BuildConfig
