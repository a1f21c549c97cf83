/-
  OpenBsd.Lib.AlignUp

  The lowest number of a residue class that is not below a given one.
-/

import Mathlib.Data.Nat.ModEq
import Mathlib.Tactic.Ring

namespace OpenBsd.Lib

/-- The lowest number from `x` on that is congruent to `s` modulo `a`. -/
def alignUp (a s x : Nat) : Nat := x + (s + x * (a - 1)) % a

section

variable {a s x y : Nat}

theorem le_alignUp (a s x : Nat) : x ≤ alignUp a s x := Nat.le_add_right ..

theorem alignUp_lt (ha : 0 < a) : alignUp a s x < x + a :=
  Nat.add_lt_add_left (Nat.mod_lt _ ha) x

theorem alignUp_modEq (ha : 0 < a) : alignUp a s x ≡ s [MOD a] := by
  have hsum : x + (s + x * (a - 1)) = s + a * x := by
    obtain ⟨b, rfl⟩ : ∃ b, a = b + 1 := ⟨a - 1, by omega⟩
    rw [Nat.add_sub_cancel]
    ring
  have hstep : alignUp a s x ≡ x + (s + x * (a - 1)) [MOD a] :=
    Nat.ModEq.add_left x (Nat.mod_modEq _ _)
  rw [hsum] at hstep
  exact hstep.trans (Nat.add_mul_mod_self_left s a x)

/-- Two numbers of one class less than `a` apart are the same. -/
theorem modEq_le_of_lt (hmod : x ≡ y [MOD a]) (hlt : x < y + a) : x ≤ y := by
  by_contra hgt
  have hdvd : a ∣ x - y := (Nat.modEq_iff_dvd' (by omega)).1 hmod.symm
  have := Nat.le_of_dvd (by omega) hdvd
  omega

theorem alignUp_least (ha : 0 < a) (hle : x ≤ y) (hmod : y ≡ s [MOD a]) : alignUp a s x ≤ y := by
  have hlt := @alignUp_lt a s x ha
  exact modEq_le_of_lt ((alignUp_modEq ha).trans hmod.symm) (by omega)

/-- The number is fixed by its class and its window. -/
theorem eq_alignUp (hle : x ≤ y) (hlt : y < x + a) (hmod : y ≡ s [MOD a]) : y = alignUp a s x := by
  have hleast := alignUp_least (by omega) hle hmod
  have hge := le_alignUp a s x
  have hclass : y ≡ alignUp a s x [MOD a] := hmod.trans (alignUp_modEq (by omega)).symm
  exact Nat.le_antisymm (modEq_le_of_lt hclass (by omega)) hleast

end

end OpenBsd.Lib
