/-
Tokens of JSON.

A text is read in two steps, of which this is the first: it becomes a list of brackets,
separators and values without parts.  Between tokens stand blanks, of which JSON has
four.  A quoted text is cut out at its closing quote and then decoded; a character may
be written by its UTF-16 code units, so two of them have to make a pair when they are
surrogates.
-/
import BuildConfig.Json.Basic

namespace BuildConfig.Json

/-- What a JSON text consists of. -/
inductive Token
  | openArray
  | closeArray
  | openObject
  | closeObject
  | comma
  | colon
  /-- A value without parts. -/
  | scalar (value : Json)

/-- The four blanks of JSON. -/
def isSpace (c : Char) : Bool :=
  c == ' ' || c == '\n' || c == '\r' || c == '\t'

/-! ### Quoted texts -/

/-- The text up to the closing quote, still escaped, and the text after that quote. -/
def cutQuoted? : List Char → Option (List Char × List Char)
  | [] => none
  | '"' :: rest => some ([], rest)
  | '\\' :: c :: rest => (cutQuoted? rest).map fun (inner, after) => ('\\' :: c :: inner, after)
  | c :: rest => (cutQuoted? rest).map fun (inner, after) => (c :: inner, after)

/-- The text after a closing quote is shorter than the text it was cut from. -/
private theorem length_of_cutQuoted? {cs inner after : List Char}
    (h : cutQuoted? cs = some (inner, after)) : after.length < cs.length := by
  fun_induction cutQuoted? cs generalizing inner with
  | case1 => cases h
  | case2 rest => cases h; simp
  | case3 c rest ih =>
    obtain ⟨⟨inner', after'⟩, hcut, heq⟩ := Option.map_eq_some_iff.1 h
    cases heq
    have := ih hcut
    simp only [List.length_cons]
    omega
  | case4 c rest _ _ ih =>
    obtain ⟨⟨inner', after'⟩, hcut, heq⟩ := Option.map_eq_some_iff.1 h
    cases heq
    have := ih hcut
    simp only [List.length_cons]
    omega

/-- A part of a quoted text: a character, or a UTF-16 code unit. -/
inductive Piece
  | char (c : Char)
  | unit (n : Nat)

/-- The value of a hexadecimal digit. -/
def hexDigit? (c : Char) : Option Nat :=
  if '0' ≤ c ∧ c ≤ '9' then some (c.toNat - '0'.toNat)
  else if 'a' ≤ c ∧ c ≤ 'f' then some (c.toNat - 'a'.toNat + 10)
  else if 'A' ≤ c ∧ c ≤ 'F' then some (c.toNat - 'A'.toNat + 10)
  else none

/-- The number written with four hexadecimal digits. -/
def hexUnit? (a b c d : Char) : Option Nat :=
  match hexDigit? a, hexDigit? b, hexDigit? c, hexDigit? d with
  | some a, some b, some c, some d => some (((a * 16 + b) * 16 + c) * 16 + d)
  | _, _, _, _ => none

/-- The character that a backslash and a letter stand for. -/
def unescape? (c : Char) : Option Char :=
  if c = '"' ∨ c = '\\' ∨ c = '/' then some c
  else if c = 'b' then some '\x08'
  else if c = 'f' then some '\x0c'
  else if c = 'n' then some '\n'
  else if c = 'r' then some '\r'
  else if c = 't' then some '\t'
  else none

/-- The parts of an escaped text; controls below the space must be escaped. -/
def pieces? : List Char → Option (List Piece)
  | [] => some []
  | '\\' :: 'u' :: a :: b :: c :: d :: rest =>
    match hexUnit? a b c d, pieces? rest with
    | some n, some ps => some (.unit n :: ps)
    | _, _ => none
  | '\\' :: c :: rest =>
    match unescape? c, pieces? rest with
    | some c, some ps => some (.char c :: ps)
    | _, _ => none
  | '\\' :: [] => none
  | c :: rest => if c.toNat < 0x20 then none else (pieces? rest).map (.char c :: ·)

/-- The characters of the parts; a surrogate counts only as one of a pair. -/
def chars? : List Piece → Option (List Char)
  | [] => some []
  | .char c :: rest => (chars? rest).map (c :: ·)
  | .unit n :: .unit m :: rest =>
    if 0xD800 ≤ n ∧ n < 0xDC00 ∧ 0xDC00 ≤ m ∧ m < 0xE000 then
      (chars? rest).map (Char.ofNat (0x10000 + (n - 0xD800) * 0x400 + (m - 0xDC00)) :: ·)
    else if 0xD800 ≤ n ∧ n < 0xE000 then none
    else (chars? (.unit m :: rest)).map (Char.ofNat n :: ·)
  | .unit n :: rest =>
    if 0xD800 ≤ n ∧ n < 0xE000 then none else (chars? rest).map (Char.ofNat n :: ·)

/-- The text that stands escaped between quotes. -/
def unquote? (inner : List Char) : Option String :=
  ((pieces? inner).bind chars?).map String.ofList

/-! ### Numbers and words -/

/-- Characters of numbers and of the three words. -/
def isWordChar (c : Char) : Bool :=
  c.isAlphanum || c == '+' || c == '-' || c == '.'

/-- The text after a nonempty run of digits. -/
def afterDigits? (cs : List Char) : Option (List Char) :=
  match cs with
  | c :: rest => if c.isDigit then some (rest.dropWhile Char.isDigit) else none
  | [] => none

/-- The text after a whole part, which has no needless zero in front. -/
def afterWhole? : List Char → Option (List Char)
  | '0' :: rest => some rest
  | cs => afterDigits? cs

/-- The text after a fraction, if there is one. -/
def afterFraction? : List Char → Option (List Char)
  | '.' :: rest => afterDigits? rest
  | cs => some cs

/-- The text after an exponent, if there is one. -/
def afterExponent? : List Char → Option (List Char)
  | c :: rest =>
    if c = 'e' ∨ c = 'E' then
      match rest with
      | '+' :: digits => afterDigits? digits
      | '-' :: digits => afterDigits? digits
      | digits => afterDigits? digits
    else some (c :: rest)
  | [] => some []

/-- Whether the text is a number from its first to its last character. -/
def isNumber (cs : List Char) : Bool :=
  let unsigned := if cs.head? = some '-' then cs.tail else cs
  (((afterWhole? unsigned).bind afterFraction?).bind afterExponent?).any (·.isEmpty)

/-- The value that a number or one of the three words stands for. -/
def word? (cs : List Char) : Option Json :=
  if cs = ['t', 'r', 'u', 'e'] then some (.bool true)
  else if cs = ['f', 'a', 'l', 's', 'e'] then some (.bool false)
  else if cs = ['n', 'u', 'l', 'l'] then some .null
  else if isNumber cs then some (.number (String.ofList cs))
  else none

/-! ### The tokens of a text -/

/-- The token that a single character is. -/
def punctuation? (c : Char) : Option Token :=
  if c = '[' then some .openArray
  else if c = ']' then some .closeArray
  else if c = '\x7b' then some .openObject
  else if c = '\x7d' then some .closeObject
  else if c = ',' then some .comma
  else if c = ':' then some .colon
  else none

/-- The tokens of a text, if all of it is made of tokens. -/
def tokens? : List Char → Option (List Token)
  | [] => some []
  | c :: rest =>
    if isSpace c then tokens? rest
    else
      match punctuation? c with
      | some token => (tokens? rest).map (token :: ·)
      | none =>
        if c = '"' then
          match _h : cutQuoted? rest with
          | none => none
          | some (inner, after) =>
            match unquote? inner, tokens? after with
            | some s, some ts => some (.scalar (.string s) :: ts)
            | _, _ => none
        else if isWordChar c then
          match word? (c :: rest.takeWhile isWordChar), tokens? (rest.dropWhile isWordChar) with
          | some value, some ts => some (.scalar value :: ts)
          | _, _ => none
        else none
termination_by cs => cs.length
decreasing_by
  · simp
  · simp
  · exact Nat.lt_succ_of_lt (length_of_cutQuoted? _h)
  · exact Nat.lt_succ_of_le (List.dropWhile_suffix isWordChar).length_le

end BuildConfig.Json
