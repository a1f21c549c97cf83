/-
  OpenBsd.Lib.Ring

  The elements of a ring buffer: `cnt` cells from `start` on, around the end of an
  array of `size` cells.
-/

import Mathlib.Data.List.Basic
import Mathlib.Data.Nat.ModEq
import Mathlib.Tactic.Ring

namespace OpenBsd.Lib

section

variable {α : Type*}

/-- The `cnt` elements from the cell `start` on. -/
def window (buffer : Nat → α) (size start cnt : Nat) : List α :=
  (List.range cnt).map fun i => buffer ((start + i) % size)

variable {buffer : Nat → α} {size start cnt : Nat}

@[simp] theorem window_zero : window buffer size start 0 = [] := rfl

@[simp] theorem length_window : (window buffer size start cnt).length = cnt := by
  simp [window]

theorem getElem?_window {i : Nat} (h : i < cnt) :
    (window buffer size start cnt)[i]? = some (buffer ((start + i) % size)) := by
  simp [window, h]

/-- The elements of a window and of the one behind it. -/
theorem window_add (m n : Nat) :
    window buffer size start (m + n) =
      window buffer size start m ++ window buffer size ((start + m) % size) n := by
  rw [window, List.range_add, List.map_append, List.map_map, window, window]
  congr 1
  refine List.map_congr_left fun i _ => ?_
  simp [Nat.add_assoc]

/-- The elements do not depend on the cells outside of the window. -/
theorem window_congr {buffer' : Nat → α}
    (h : ∀ i < cnt, buffer ((start + i) % size) = buffer' ((start + i) % size)) :
    window buffer size start cnt = window buffer' size start cnt :=
  List.map_congr_left fun i hi => h i (List.mem_range.1 hi)

/-- A window that does not go around the end. -/
theorem window_straight (h : start + cnt ≤ size) :
    window buffer size start cnt = (List.range cnt).map fun i => buffer (start + i) := by
  refine List.map_congr_left fun i hi => ?_
  have hi' := List.mem_range.1 hi
  rw [Nat.mod_eq_of_lt (by omega)]

/-- Two places less than a round apart are two cells. -/
theorem cell_ne {i j : Nat} (hij : i < j) (hj : j < size) :
    (start + i) % size ≠ (start + j) % size := by
  intro e
  have hmod : i % size = j % size := Nat.ModEq.add_left_cancel' start e
  rw [Nat.mod_eq_of_lt hj, Nat.mod_eq_of_lt (by omega)] at hmod
  omega

/-- A write behind the window. -/
theorem window_update {k : Nat} (hk : cnt + k < size) (b : α) :
    window (Function.update buffer ((start + cnt + k) % size) b) size start cnt =
      window buffer size start cnt := by
  refine List.map_congr_left fun i hi => ?_
  have hi' := List.mem_range.1 hi
  refine Function.update_of_ne ?_ _ _
  rw [Nat.add_assoc]
  exact cell_ne (by omega) hk

end

end OpenBsd.Lib
