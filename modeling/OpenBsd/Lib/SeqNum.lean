/-
  OpenBsd.Lib.SeqNum

  Sequence numbers of 32 bits: the number of a place in a stream without bounds, and
  comparisons by the sign of the difference.
-/

import Mathlib.Tactic.Ring

namespace OpenBsd.Lib

/-- The number of a place. -/
@[irreducible] def seqOf (x : Nat) : Nat := x % 2 ^ 32

/-- `(int)(a - b)`. -/
@[irreducible] def seqDiff (a b : Nat) : Int :=
  let d : Nat := (a + 2 ^ 32 - b % 2 ^ 32) % 2 ^ 32
  if d < 2 ^ 31 then d else (d : Int) - 2 ^ 32

theorem seqOf_eq (x : Nat) : seqOf x = x % 2 ^ 32 := by rw [seqOf]

/-- The difference of the numbers is that of places that are not too far apart. -/
theorem seqDiff_seqOf {x y : Nat} (h : x < y + 2 ^ 31) (h' : y ≤ x + 2 ^ 31) :
    seqDiff (seqOf x) (seqOf y) = (x : Int) - y := by
  rw [seqDiff]
  have hx : seqOf x = x % 2 ^ 32 := seqOf_eq x
  have hy : seqOf y = y % 2 ^ 32 := seqOf_eq y
  generalize seqOf x = a at hx
  generalize seqOf y = b at hy
  split
  · omega
  · omega

theorem seqOf_add_mod (x n : Nat) : (seqOf x + n) % 2 ^ 32 = seqOf (x + n) := by
  simp only [seqOf_eq]
  omega

theorem seqOf_add (x n : Nat) : seqOf (seqOf x + n) = seqOf (x + n) := by
  rw [seqOf_eq (seqOf x + n), seqOf_add_mod]

theorem seqDiff_left (a b : Nat) : seqDiff (seqOf a) b = seqDiff a b := by
  simp only [seqDiff, seqOf_eq]
  have h : (a % 2 ^ 32 + 2 ^ 32 - b % 2 ^ 32) % 2 ^ 32 = (a + 2 ^ 32 - b % 2 ^ 32) % 2 ^ 32 := by
    omega
  rw [h]

/-- Places that are not too far apart have different numbers. -/
theorem seqOf_inj {x y : Nat} (h : x < y + 2 ^ 32) (h' : y < x + 2 ^ 32) (heq : seqOf x = seqOf y) :
    x = y := by
  simp only [seqOf_eq] at heq
  omega

end OpenBsd.Lib
