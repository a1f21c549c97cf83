/-
  OpenBsd.Lib.Radix

  The digits of a number to some base from the highest one down.  The first ones of them
  are the number without its last digits.
-/

import Mathlib.Data.Nat.Digits.Lemmas

namespace OpenBsd.Lib

variable {n r s : Nat}

/-- The last `m` digits, the highest one first. -/
@[simp] def digitsDown (n r : Nat) : Nat → List Nat
  | 0 => []
  | m + 1 => r / n ^ m % n :: digitsDown n r m

@[simp] theorem length_digitsDown (n r m : Nat) : (digitsDown n r m).length = m := by
  induction m with
  | zero => rfl
  | succ m ih => rw [digitsDown, List.length_cons, ih]

theorem digitsDown_lt (hn : 0 < n) {m d : Nat} (h : d ∈ digitsDown n r m) : d < n := by
  induction m with
  | zero => cases h
  | succ m ih =>
    rcases List.mem_cons.1 h with rfl | h
    · exact Nat.mod_lt _ hn
    · exact ih h

/-- The digits make up the number. -/
theorem ofDigits_digitsDown (n r m : Nat) :
    Nat.ofDigits n (digitsDown n r m).reverse = r % n ^ m := by
  induction m with
  | zero => rw [Nat.pow_zero, Nat.mod_one]; rfl
  | succ m ih =>
    rw [digitsDown, List.reverse_cons, Nat.ofDigits_append, ih, List.length_reverse,
      length_digitsDown, Nat.ofDigits_singleton, Nat.mod_pow_succ]

/-- Of numbers with `m + d` digits the first `d` digits agree when the numbers without the
    last `m` do. -/
theorem take_digitsDown_eq_iff (hn : 0 < n) (m d : Nat) :
    (digitsDown n r (m + d)).take d = (digitsDown n s (m + d)).take d
      ↔ r / n ^ m % n ^ d = s / n ^ m % n ^ d := by
  induction d with
  | zero => simp [Nat.mod_one]
  | succ d ih =>
    have hpow : ∀ x, x / n ^ (m + d) % n = x / n ^ m / n ^ d % n := by
      intro x
      rw [Nat.pow_add, Nat.div_div_eq_div_mul]
    have hr := Nat.mod_lt (r / n ^ m) (Nat.pow_pos hn : 0 < n ^ d)
    have hs := Nat.mod_lt (s / n ^ m) (Nat.pow_pos hn : 0 < n ^ d)
    rw [← Nat.add_assoc, digitsDown, digitsDown, List.take_succ_cons, List.take_succ_cons,
      List.cons.injEq, ih, hpow, hpow, Nat.mod_pow_succ, Nat.mod_pow_succ]
    constructor
    · rintro ⟨hd, hrest⟩
      rw [hd, hrest]
    · intro h
      -- the lower digits stay below the place of the next one
      have hlow := congrArg (· % n ^ d) h
      have hhigh := congrArg (· / n ^ d) h
      simp only [Nat.add_mul_mod_self_left, Nat.mod_mod] at hlow
      simp only [Nat.add_mul_div_left _ _ (Nat.pow_pos hn : 0 < n ^ d), Nat.div_eq_of_lt hr,
        Nat.div_eq_of_lt hs, Nat.zero_add] at hhigh
      exact ⟨hhigh, hlow⟩

end OpenBsd.Lib
