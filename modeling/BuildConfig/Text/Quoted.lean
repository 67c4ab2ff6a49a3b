/-
Texts between quotes, as they stand in descriptions of values.

Between quotes a quote and a backslash are preceded by a backslash, the four
control characters that have a letter are written with it, and every other control
character of ASCII is written by its code point.  All else stands for itself.

A description is meant to be read on one line by eye, so it is given only when it
is plain: ASCII throughout, and without a character written by its code point.
-/

namespace BuildConfig.Text.Quoted

/-- What starts a character written by its code point. -/
def codePointMark : List Char :=
  ['\\', 'u', '\x7b']

/-- How one character is written between quotes. -/
def escape (c : Char) : List Char :=
  if c = '"' then ['\\', '"']
  else if c = '\\' then ['\\', '\\']
  else if c = '\n' then ['\\', 'n']
  else if c = '\r' then ['\\', 'r']
  else if c = '\t' then ['\\', 't']
  else if c = '\x00' then ['\\', '0']
  else if c.toNat < 0x20 ∨ c.toNat = 0x7F then codePointMark ++ Nat.toDigits 16 c.toNat ++ ['\x7d']
  else [c]

/-- A text between quotes. -/
def quote (text : String) : String :=
  String.ofList ('"' :: text.toList.flatMap escape ++ ['"'])

/-- Whether a character written by its code point starts anywhere in the text. -/
def hasCodePoint : List Char → Bool
  | [] => false
  | c :: rest => codePointMark.isPrefixOf (c :: rest) || hasCodePoint rest

/-- The description itself when it is plain. -/
def plain? (description : String) : Option String :=
  if description.toList.all (fun c => c.toNat < 0x80) && !hasCodePoint description.toList then
    some description
  else none

end BuildConfig.Text.Quoted
