/-
  OpenBsd.Lib.Spans

  Numbers that are counted off in spans, one behind the other, of which each may have
  a length of its own: the days of years, or of the months of a year.  Every number is
  in exactly one span.
-/

import Mathlib.Algebra.BigOperators.Intervals
import Mathlib.Algebra.Order.BigOperators.Group.Finset

namespace OpenBsd.Lib

variable {len : Nat → Nat}

/-- The numbers in front of span `n`, which is `n` spans behind the first one. -/
def upTo (len : Nat → Nat) (n : Nat) : Nat := ∑ i ∈ Finset.range n, len i

@[simp] theorem upTo_zero : upTo len 0 = 0 := rfl

theorem upTo_succ (n : Nat) : upTo len (n + 1) = upTo len n + len n :=
  Finset.sum_range_succ len n

theorem upTo_mono {n m : Nat} (h : n ≤ m) : upTo len n ≤ upTo len m :=
  Finset.sum_le_sum_of_subset (Finset.range_mono h)

/-- The first span on its own. -/
theorem upTo_shift (n : Nat) : upTo len (n + 1) = len 0 + upTo (fun i => len (i + 1)) n :=
  (Finset.sum_range_succ' len n).trans (Nat.add_comm _ _)

/-- A number is at one place of one span only. -/
theorem upTo_unique {n m r s : Nat} (hr : r < len n) (hs : s < len m)
    (h : upTo len n + r = upTo len m + s) : n = m ∧ r = s := by
  -- of two different spans the later one starts behind the end of the other
  have horder : ∀ {n m r s : Nat}, r < len n → upTo len n + r = upTo len m + s → ¬ n < m := by
    intro n m r s hr h hlt
    have hend : upTo len (n + 1) ≤ upTo len m := upTo_mono (Nat.succ_le_of_lt hlt)
    rw [upTo_succ] at hend
    omega
  have hnm := horder hr h
  have hmn := horder hs h.symm
  have heq : n = m := by omega
  subst heq
  exact ⟨rfl, by omega⟩

/-- A number in front of the end of span `n` lies in a span up to there. -/
theorem exists_upTo {n x : Nat} (h : x < upTo len (n + 1)) :
    ∃ m ≤ n, ∃ r < len m, x = upTo len m + r := by
  induction n with
  | zero =>
    rw [upTo_succ, upTo_zero, Nat.zero_add] at h
    exact ⟨0, Nat.le_refl 0, x, h, (Nat.zero_add x).symm⟩
  | succ n ih =>
    by_cases hlt : x < upTo len (n + 1)
    · obtain ⟨m, hm, hspan⟩ := ih hlt
      exact ⟨m, Nat.le_succ_of_le hm, hspan⟩
    · rw [upTo_succ (n + 1)] at h
      exact ⟨n + 1, Nat.le_refl _, x - upTo len (n + 1), by omega, by omega⟩

end OpenBsd.Lib
