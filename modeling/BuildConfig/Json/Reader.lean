/-
JSON values read from text.

The second step of reading: the tokens are put together.  What has been opened and not
yet closed is kept as a stack of frames, and each token takes the reader from one state
to the next or shows that the text is no JSON.  A value that is complete goes into the
frame on top of the stack; without a frame it is the value of the text, after which
nothing may follow.
-/
import BuildConfig.Json.Token

namespace BuildConfig.Json

/-- An array or object that is still open, with its parts so far, the last one first. -/
inductive Frame
  | array (items : List Json)
  /-- The field at hand has a name, but not yet a value. -/
  | object (fields : List (String × Json)) (name : String)

/-- What the reader is waiting for. -/
inductive State
  /-- A value. -/
  | value (stack : List Frame)
  /-- The first item of an array, or its end. -/
  | firstItem (stack : List Frame)
  /-- The first field of an object, or its end. -/
  | firstField (stack : List Frame)
  /-- The name of another field. -/
  | field (fields : List (String × Json)) (stack : List Frame)
  /-- The colon after the name of a field. -/
  | colon (fields : List (String × Json)) (name : String) (stack : List Frame)
  /-- Another item, or the end of the array. -/
  | nextItem (items : List Json) (stack : List Frame)
  /-- Another field, or the end of the object. -/
  | nextField (fields : List (String × Json)) (stack : List Frame)
  /-- The end of the text. -/
  | finished (value : Json)

/-- A value is complete. -/
def complete (value : Json) : List Frame → State
  | [] => .finished value
  | .array items :: stack => .nextItem (value :: items) stack
  | .object fields name :: stack => .nextField ((name, value) :: fields) stack

/-- A value begins. -/
def begin? (stack : List Frame) : Token → Option State
  | .scalar value => some (complete value stack)
  | .openArray => some (.firstItem stack)
  | .openObject => some (.firstField stack)
  | _ => none

/-- The name of a field. -/
def name? (fields : List (String × Json)) (stack : List Frame) : Token → Option State
  | .scalar (.string name) => some (.colon fields name stack)
  | _ => none

/-- The state after one more token. -/
def State.next? : State → Token → Option State
  | .value stack, token => begin? stack token
  | .firstItem stack, .closeArray => some (complete (.array []) stack)
  | .firstItem stack, token => begin? (.array [] :: stack) token
  | .firstField stack, .closeObject => some (complete (.object []) stack)
  | .firstField stack, token => name? [] stack token
  | .field fields stack, token => name? fields stack token
  | .colon fields name stack, .colon => some (.value (.object fields name :: stack))
  | .nextItem items stack, .comma => some (.value (.array items :: stack))
  | .nextItem items stack, .closeArray => some (complete (.array items.reverse) stack)
  | .nextField fields stack, .comma => some (.field fields stack)
  | .nextField fields stack, .closeObject => some (complete (.object fields.reverse) stack)
  | _, _ => none

/-- The value of the tokens, read on from a state. -/
def State.run? : State → List Token → Option Json
  | .finished v, [] => some v
  | _, [] => none
  | state, token :: tokens =>
    match state.next? token with
    | some state => state.run? tokens
    | none => none

/-- The value that a text stands for. -/
def read? (text : String) : Option Json :=
  (tokens? text.toList).bind (State.value []).run?

end BuildConfig.Json
