/-
Lists in which nothing is repeated.

Places and keys are compared by what they stand for, and lists of them are collected by
adding what is not there yet at the end.  That keeps the first of all that stand for the
same, which is what the library's `eraseDupsBy` does to the whole list at once.
-/
import Mathlib.Data.List.Basic

namespace BuildConfig

variable {α : Type} {same : α → α → Bool}

theorem foldl_add_new (hsymm : ∀ a b, same a b = same b a) (xs seen : List α) :
    xs.foldl (fun seen a => if seen.any (same · a) then seen else seen ++ [a]) seen =
      List.eraseDupsBy.loop same xs seen.reverse := by
  induction xs generalizing seen with
  | nil => simp [List.eraseDupsBy.loop]
  | cons a rest ih =>
      -- The library keeps what it has seen in reverse and compares the other way round.
      have hany : seen.any (same · a) = seen.reverse.any (same a ·) := by
        rw [List.any_reverse]
        exact congrArg seen.any (funext fun other => hsymm other a)
      rw [List.foldl_cons, ih, List.eraseDupsBy.loop, hany]
      cases seen.reverse.any (same a ·) with
      | true => simp
      | false => simp

end BuildConfig
