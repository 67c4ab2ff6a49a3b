/-
Whole numbers of sixty-four bits in decimal.

A number is written with the fewest digits and a minus sign in front of a negative
one.  Reading is a little more lenient than writing: one sign of either kind may
stand in front, and leading zeros do not matter.  What does not fit into sixty-four
bits is not a number, so nothing ever wraps around.
-/

namespace BuildConfig.Text.Decimal

/-- The value of a nonempty run of digits. -/
def natural? (cs : List Char) : Option Nat :=
  if cs.isEmpty || !cs.all Char.isDigit then none else some (Nat.ofDigitChars 10 cs 0)

/-- The value of a run of digits with at most one sign in front. -/
def signed? : List Char → Option Int
  | [] => none
  | c :: cs =>
    if c = '-' then (natural? cs).map fun n => -(n : Int)
    else if c = '+' then (natural? cs).map fun n => (n : Int)
    else (natural? (c :: cs)).map fun n => (n : Int)

/-- The number that a text stands for, if it stands for one of sixty-four bits. -/
def read? (cs : List Char) : Option Int64 :=
  match signed? cs with
  | some n => if Int64.minValue.toInt ≤ n ∧ n ≤ Int64.maxValue.toInt then some (.ofInt n) else none
  | none => none

/-- The digits of a number, with a minus sign in front of a negative one. -/
def write (n : Int64) : List Char :=
  if n.toInt < 0 then '-' :: Nat.toDigits 10 n.toInt.natAbs else Nat.toDigits 10 n.toInt.natAbs

end BuildConfig.Text.Decimal
