/-
Platform mapping rules read from text.

A rule file has sections of two sorts, each begun by a header.  In a section of platforms
every label is followed by the flags of that platform; in a section of flags every group
of flags is followed by the label that it selects.  Sections may come in any order and
any number.

The file is read line by line.  What has been read is a `Reading`: the rules so far and
the `Place` in the file, which is all that a line can depend on.  `Reading.take` is one
line, and an error is always about the line at hand, except when the text ends in flags.
-/
import BuildConfig.Text.Lines
import BuildConfig.Mapping.Error
import BuildConfig.Mapping.Rules

namespace BuildConfig.Mapping

/-- Where in a rule file a line stands. -/
inductive Place
  /-- Before the first header. -/
  | outside
  /-- In a section of platforms, below a platform once there is one. -/
  | platforms (current : Option Label)
  /-- In a section of flags, below these flags of a group without its platform. -/
  | selectors (pending : List Flag)

/-- What has been read of a rule file. -/
structure Reading where
  rules : Rules
  place : Place

namespace Reading

/-- Nothing has been read. -/
def start : Reading :=
  ⟨.empty, .outside⟩

/-- The flags that still lack a platform. -/
def pending (reading : Reading) : List Flag :=
  match reading.place with
  | .selectors flags => flags
  | _ => []

/-- A header ends the section before it, which must not lack a platform. -/
def enter (reading : Reading) (place : Place) : Except RuleProblem Reading :=
  if reading.pending.isEmpty then .ok ⟨reading.rules, place⟩ else .error .flagsWithoutPlatform

/-- A flag belongs to the platform above it. -/
def takePlatformFlag (rules : Rules) (current : Option Label) (text : String) :
    Except RuleProblem Reading :=
  match Flag.read text with
  | .error cause => .error (.malformed cause)
  | .ok flag =>
    if flag.name = .platforms then .error .selectsPlatform
    else
      match current with
      | none => .error .flagWithoutPlatform
      | some platform =>
        let flags := (rules.platforms.get? platform).getD [] ++ [flag]
        .ok ⟨⟨rules.platforms.insert platform flags, rules.selectors⟩, .platforms current⟩

/-- A label begins the flags of another platform. -/
def takePlatform (rules : Rules) (text : String) : Except RuleProblem Reading :=
  match Label.read text with
  | .error cause => .error (.malformed cause)
  | .ok platform =>
    if rules.platforms.contains platform then .error .mappedTwice
    else .ok ⟨⟨rules.platforms.insert platform [], rules.selectors⟩, .platforms (some platform)⟩

/-- A flag joins the group at hand. -/
def takeSelectorFlag (rules : Rules) (flags : List Flag) (text : String) :
    Except RuleProblem Reading :=
  match Flag.read text with
  | .error cause => .error (.malformed cause)
  | .ok flag => .ok ⟨rules, .selectors (flags ++ [flag])⟩

/-- A label ends the group at hand, which must not be empty. -/
def takeSelected (rules : Rules) (flags : List Flag) (text : String) :
    Except RuleProblem Reading :=
  match Label.read text with
  | .error cause => .error (.malformed cause)
  | .ok platform =>
    if flags.isEmpty then .error .platformWithoutFlags
    else .ok ⟨⟨rules.platforms, rules.selectors ++ [⟨flags, platform⟩]⟩, .selectors []⟩

/-- What has been read after one more significant line. -/
def take (reading : Reading) (line : Text.Line) : Except RuleProblem Reading :=
  if line.shown = "platforms:" then reading.enter (.platforms none)
  else if line.shown = "flags:" then reading.enter (.selectors [])
  else
    match reading.place, Flag.begins line.chars with
    | .outside, _ => .error .outsideSections
    | .platforms current, true => takePlatformFlag reading.rules current line.shown
    | .platforms _, false => takePlatform reading.rules line.shown
    | .selectors flags, true => takeSelectorFlag reading.rules flags line.shown
    | .selectors flags, false => takeSelected reading.rules flags line.shown

/-- What has been read after all the lines, or the error of the first line that is wrong. -/
def takeAll (reading : Reading) : List Text.Line → Except MappingError Reading
  | [] => .ok reading
  | line :: lines =>
    match reading.take line with
    | .error problem => .error (.onLine line.number line.shown problem)
    | .ok next => next.takeAll lines

/-- The rules that have been read when the text ends. -/
def finish (reading : Reading) : Except MappingError Rules :=
  if reading.pending.isEmpty then .ok reading.rules else .error .unfinished

end Reading

/-- The rules that a text stands for. -/
def Rules.read (text : String) : Except MappingError Rules :=
  match Reading.start.takeAll (Text.significant text) with
  | .error e => .error e
  | .ok reading => reading.finish

end BuildConfig.Mapping
