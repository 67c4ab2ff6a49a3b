/-
The bytes by which a bundle is identified.

Every number is written as eight bytes, the lowest first, every text as its UTF-8 bytes
with the byte 0xFF behind them, and every sequence with its length in front.  A value
starts with the number of its kind.  No UTF-8 text contains 0xFF, so each part tells
where it ends and the bytes can be read back in one way only.
-/
import BuildConfig.Bundle.Basic

namespace BuildConfig.Stream

/-- The lowest bytes of a number, as many as are asked for, the lowest first. -/
def lowBytes : Nat → Nat → List UInt8
  | 0, _ => []
  | count + 1, n => UInt8.ofNat n :: lowBytes count (n / 256)

/-- A number below 2 ^ 64 as eight bytes, the lowest first. -/
def number (n : Nat) : List UInt8 :=
  lowBytes 8 n

/-- A text as its UTF-8 bytes, closed by a byte that UTF-8 does not use. -/
def text (s : String) : List UInt8 :=
  s.toByteArray.data.toList ++ [0xFF]

/-- The items one after the other, with their number in front. -/
def sequence {α : Type} (item : α → List UInt8) (xs : List α) : List UInt8 :=
  number xs.length ++ xs.flatMap item

/-- A label as its text. -/
def label (l : Label) : List UInt8 :=
  text l.text

/-- A value after the number of its kind. -/
def value : Value → List UInt8
  | .bool b => number 0 ++ [if b then 1 else 0]
  | .int n => number 1 ++ number n.toUInt64.toNat
  | .string s => number 2 ++ text s
  | .label none => number 3 ++ number 0
  | .label (some l) => number 3 ++ number 1 ++ label l
  | .labels ls => number 4 ++ sequence label ls

/-- A fragment as its name and its options. -/
def fragment (entry : String × Fragment) : List UInt8 :=
  text entry.1 ++ sequence (fun (option, v) => text option ++ value v) entry.2.entries

end BuildConfig.Stream

namespace BuildConfig.Bundle

/-- The bytes that identify the bundle. -/
def stream (bundle : Bundle) : List UInt8 :=
  Stream.sequence Stream.fragment bundle.fragments.entries

end BuildConfig.Bundle
