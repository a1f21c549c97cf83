/-
  OpenBsd.Lib.Overwrite

  Writing a list into another one at a position, with the other one extended first if it
  is too short.
-/

import Mathlib.Data.List.Basic

namespace OpenBsd.Lib

open List

variable {α : Type} {z : α} {l a b src : List α} {off : Nat}

/-- `l` with `src` from position `off` on; `z` fills the positions between the end of `l`
    and `off`. -/
def overwrite (z : α) (l : List α) (off : Nat) (src : List α) : List α :=
  l.take off ++ List.replicate (off - l.length) z ++ src ++ l.drop (off + src.length)

theorem overwrite_length : (overwrite z l off src).length = max l.length (off + src.length) := by
  simp only [overwrite, length_append, length_take, length_replicate, length_drop]
  omega

theorem overwrite_nil (h : off ≤ l.length) : overwrite z l off [] = l := by
  have hfill : off - l.length = 0 := Nat.sub_eq_zero_of_le h
  simp only [overwrite, hfill, replicate_zero, append_nil, length_nil,
    Nat.add_zero, take_append_drop]

/-- A position behind the end: the gap is filled, and nothing of `l` is lost. -/
theorem overwrite_of_length_le (h : l.length ≤ off) :
    overwrite z l off src = l ++ List.replicate (off - l.length) z ++ src := by
  simp only [overwrite, take_of_length_le h,
    drop_eq_nil_of_le (Nat.le_trans h (Nat.le_add_right off src.length)), append_nil]

/-- What reaches the end of `l` leaves only its start. -/
theorem overwrite_of_le_length (h : off ≤ l.length) (hend : l.length ≤ off + src.length) :
    overwrite z l off src = l.take off ++ src := by
  have hfill : off - l.length = 0 := Nat.sub_eq_zero_of_le h
  simp only [overwrite, hfill, replicate_zero, append_nil, drop_eq_nil_of_le hend]

theorem take_overwrite {n : Nat} (h : off + src.length ≤ n) (hn : n ≤ l.length) :
    (overwrite z l off src).take n = overwrite z (l.take n) off src := by
  have hoff : off ≤ n := Nat.le_trans (Nat.le_add_right off src.length) h
  have hfill : off - l.length = 0 := Nat.sub_eq_zero_of_le (Nat.le_trans hoff hn)
  have hfill' : off - (l.take n).length = 0 := by
    rw [length_take]
    omega
  have hlen : (l.take off ++ src).length = off + src.length := by
    rw [length_append, length_take, Nat.min_eq_left (Nat.le_trans hoff hn)]
  have hrest : (l.drop (off + src.length)).take (n - (off + src.length)) =
      (l.take n).drop (off + src.length) := by rw [drop_take]
  simp only [overwrite, hfill, hfill', replicate_zero, append_nil]
  rw [take_append, hlen, take_of_length_le (by rw [hlen]; exact h), hrest,
    take_take, Nat.min_eq_left hoff]

/-- A position behind the first part leaves it alone. -/
theorem overwrite_append_right (h : a.length ≤ off) :
    overwrite z (a ++ b) off src = a ++ overwrite z b (off - a.length) src := by
  have hfill : off - (a ++ b).length = off - a.length - b.length := by
    simp only [length_append, Nat.sub_add_eq]
  have hend : off + src.length - a.length = off - a.length + src.length := by omega
  simp only [overwrite, hfill, take_append, take_of_length_le h, drop_append,
    drop_eq_nil_of_le (Nat.le_trans h (Nat.le_add_right off src.length)), hend,
    nil_append, append_assoc]

/-- A position inside the first part: what fits goes there, the rest to the start of the
    second part. -/
theorem overwrite_append_left (h : off ≤ a.length) :
    overwrite z (a ++ b) off src =
      overwrite z a off (src.take (a.length - off)) ++
        overwrite z b 0 (src.drop (a.length - off)) := by
  have hfill : off - (a ++ b).length = 0 := by
    rw [length_append]
    omega
  have hfill' : off - a.length = 0 := by omega
  have hdrop : a.drop (off + (src.take (a.length - off)).length) = a.drop (off + src.length) := by
    rw [length_take]
    by_cases hfit : src.length ≤ a.length - off
    · rw [Nat.min_eq_right hfit]
    · rw [drop_eq_nil_of_le (by omega), drop_eq_nil_of_le (by omega)]
  have hrest : (src.drop (a.length - off)).length = off + src.length - a.length := by
    rw [length_drop]
    omega
  -- when the first part keeps an end, nothing is left for the second
  have hswap : a.drop (off + src.length) ++ src.drop (a.length - off) =
      src.drop (a.length - off) ++ a.drop (off + src.length) := by
    by_cases hfit : src.length ≤ a.length - off
    · rw [drop_eq_nil_of_le hfit, append_nil, nil_append]
    · rw [drop_eq_nil_of_le (by omega), append_nil, nil_append]
  calc overwrite z (a ++ b) off src
      = a.take off ++ (src.take (a.length - off) ++ src.drop (a.length - off)) ++
          (a.drop (off + src.length) ++ b.drop (off + src.length - a.length)) := by
        simp only [overwrite, hfill, replicate_zero, append_nil,
          take_append_of_le_length h, drop_append, take_append_drop]
    _ = a.take off ++ src.take (a.length - off) ++
          (a.drop (off + src.length) ++ src.drop (a.length - off)) ++
          b.drop (off + src.length - a.length) := by
        rw [hswap]
        simp only [append_assoc]
    _ = _ := by
        simp only [overwrite, hfill', hdrop, hrest, replicate_zero, take_zero,
          Nat.zero_sub, Nat.zero_add, append_nil, nil_append, append_assoc]

end OpenBsd.Lib
