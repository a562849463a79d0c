/-
Numbered names that avoid a given set.

Fresh names are a stem followed by a number.  Numbers are tried in order from a
starting point and the first whose name is not taken is used.  Among as many numbers
as there are taken names, and one more, one is always free, so the search below is
bounded by the number of taken names and never gives up early.
-/
import Decombinator.Text.Integer

namespace Decombinator.Fresh

/-- The name with a stem and a number. -/
def numbered (stem : String) (n : Nat) : String :=
  stem ++ Text.natText n

/-- Skips at most `fuel` numbers whose names are taken. -/
def skipTaken (stem : String) (taken : List String) : Nat → Nat → Nat
  | 0, n => n
  | fuel + 1, n => if numbered stem n ∈ taken then skipTaken stem taken fuel (n + 1) else n

/-- The first number from `n` on whose name is not taken. -/
def firstFree (stem : String) (taken : List String) (n : Nat) : Nat :=
  skipTaken stem taken taken.length n

end Decombinator.Fresh
