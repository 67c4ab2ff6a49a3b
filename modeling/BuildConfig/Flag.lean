/-
Flags, the assignments of options as they are written on a command line.

A flag is written `--fragment.option=value`.  A flag keeps its value as text, because
only the option it is applied to says of what kind the value is.  A flag without a
value is short for one with the value `true`.
-/
import BuildConfig.Text.Quoted
import BuildConfig.Text.Blank
import BuildConfig.Text.Split
import BuildConfig.OptionsError

namespace BuildConfig

/-- The assignment of a text to an option. -/
structure Flag where
  name : OptionName
  value : String
  deriving DecidableEq

namespace Flag

/-- What a flag begins with. -/
def lead : List Char :=
  ['-', '-']

/-- The value of a flag that has none of its own. -/
def impliedValue : List Char :=
  ['t', 'r', 'u', 'e']

/-- Characters of fragments and options. -/
def isNameChar (c : Char) : Bool :=
  c.isAlphanum || c == '_' || c == '-'

/-- Fragments and options are nonempty runs of such characters. -/
def isName (cs : List Char) : Bool :=
  !cs.isEmpty && cs.all isNameChar

/-- Whether a text begins like a flag. -/
def begins (cs : List Char) : Bool :=
  lead.isPrefixOf cs

/-- The flag whose parts are written in the body, which is what follows the two dashes. -/
def readBody (shown : String) (body : List Char) : Except OptionsError Flag :=
  let (name, value) := (Text.cut? '=' body).getD (body, impliedValue)
  match Text.cut? '.' name with
  | none => .error (.unnamedOption shown)
  | some (fragment, option) =>
    if isName fragment && isName option then
      .ok ⟨⟨String.ofList fragment, String.ofList option⟩, String.ofList value⟩
    else .error (.malformedName shown)

/-- The flag that a text stands for, blanks around it aside. -/
def read (text : String) : Except OptionsError Flag :=
  let cs := Text.trim text.toList
  let shown := String.ofList cs
  if begins cs then readBody shown (cs.drop lead.length) else .error (.notAFlag shown)

/-- The flag as it is written, always with its value. -/
def text (flag : Flag) : String :=
  "--" ++ flag.name.text ++ "=" ++ flag.value

/-- The flag as it stands in descriptions. -/
def describe (flag : Flag) : String :=
  "Flag \x7b fragment: " ++ Text.Quoted.quote flag.name.fragment ++
    ", option: " ++ Text.Quoted.quote flag.name.option ++
    ", value: " ++ Text.Quoted.quote flag.value ++ " \x7d"

end Flag

end BuildConfig
