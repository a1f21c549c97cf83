/-
  OpenBsd.Lib.OnesComplement

  Sums with an end-around carry.  Two numbers are the same one's-complement number if they
  differ by a multiple of the word of all ones and if both of them or none is zero; words
  have one representative each.
-/

import Mathlib.Data.Nat.Digits.Lemmas

namespace OpenBsd.Lib

/-! ## Numbers -/

section

variable {M n m k l : Nat}

/-- The same one's-complement number, where `M` is the word of all ones. -/
def OnesEq (M n m : Nat) : Prop := n ≡ m [MOD M] ∧ (n = 0 ↔ m = 0)

theorem OnesEq.refl (n : Nat) : OnesEq M n n := ⟨Nat.ModEq.refl n, Iff.rfl⟩

theorem OnesEq.of_eq (h : n = m) : OnesEq M n m := h ▸ OnesEq.refl n

theorem OnesEq.symm (h : OnesEq M n m) : OnesEq M m n := ⟨h.1.symm, h.2.symm⟩

theorem OnesEq.trans (h : OnesEq M n m) (h' : OnesEq M m k) : OnesEq M n k :=
  ⟨h.1.trans h'.1, h.2.trans h'.2⟩

theorem OnesEq.add (h : OnesEq M n m) (h' : OnesEq M k l) : OnesEq M (n + k) (m + l) :=
  ⟨h.1.add h'.1, by rw [Nat.add_eq_zero_iff, Nat.add_eq_zero_iff, h.2, h'.2]⟩

theorem OnesEq.mul (h : OnesEq M n m) (h' : OnesEq M k l) : OnesEq M (n * k) (m * l) :=
  ⟨h.1.mul h'.1, by rw [Nat.mul_eq_zero, Nat.mul_eq_zero, h.2, h'.2]⟩

theorem OnesEq.pow (h : OnesEq M n m) (j : Nat) : OnesEq M (n ^ j) (m ^ j) := by
  induction j with
  | zero => exact .refl _
  | succ j ih =>
    rw [Nat.pow_succ, Nat.pow_succ]
    exact ih.mul h

/-- What is carried out of a word comes in at its low end. -/
theorem onesEq_carry (M n : Nat) : OnesEq M ((M + 1) * n) n := by
  constructor
  · rw [Nat.add_mul, Nat.one_mul]
    exact Nat.ModEq.symm (Nat.modEq_iff_dvd' (Nat.le_add_left ..) |>.2 ⟨n, by omega⟩)
  · rw [Nat.mul_eq_zero]
    omega

/-- Low and high part added. -/
theorem onesEq_fold (M n : Nat) : OnesEq M (n % (M + 1) + n / (M + 1)) n := by
  have hsplit : OnesEq M (n % (M + 1) + n / (M + 1)) (n % (M + 1) + (M + 1) * (n / (M + 1))) :=
    (OnesEq.refl _).add (onesEq_carry M _).symm
  rwa [Nat.mod_add_div] at hsplit

theorem onesEq_sub (h : M < n) : OnesEq M (n - M) n := by
  constructor
  · exact (Nat.modEq_iff_dvd' (Nat.sub_le n M)).2 ⟨1, by omega⟩
  · omega

/-- A word is the only one of its number. -/
theorem OnesEq.eq (h : OnesEq M n m) (hn : n ≤ M) (hm : m ≤ M) : n = m := by
  by_cases hzero : n = 0
  · rw [hzero, h.2.1 hzero]
  · have hmzero : m ≠ 0 := fun hm0 => hzero (h.2.2 hm0)
    have hmod := h.1
    rw [Nat.ModEq] at hmod
    rcases Nat.lt_or_eq_of_le hn with hlt | rfl
    · rw [Nat.mod_eq_of_lt hlt] at hmod
      rcases Nat.lt_or_eq_of_le hm with hlt' | rfl
      · rwa [Nat.mod_eq_of_lt hlt'] at hmod
      · rw [Nat.mod_self] at hmod
        exact absurd hmod hzero
    · rw [Nat.mod_self] at hmod
      rcases Nat.lt_or_eq_of_le hm with hlt' | rfl
      · rw [Nat.mod_eq_of_lt hlt'] at hmod
        exact absurd hmod.symm hmzero
      · rfl

end

/-! ## Words -/

section

variable {w : Nat}

/-- The sum of two words, with the carry added to it. -/
def onesAdd (a b : BitVec w) : BitVec w :=
  if a.toNat + b.toNat < 2 ^ w then a + b else a + b + 1

/-- The one's-complement sum of words. -/
def onesSum (l : List (BitVec w)) : BitVec w := l.foldl onesAdd 0

theorem toNat_onesAdd (a b : BitVec w) :
    OnesEq (2 ^ w - 1) (onesAdd a b).toNat (a.toNat + b.toNat) := by
  have ha := a.isLt
  have hb := b.isLt
  rw [onesAdd]
  split
  · next hlt =>
    rw [BitVec.toNat_add, Nat.mod_eq_of_lt hlt]
    exact .refl _
  · next hge =>
    have hsum : (a + b + 1).toNat = a.toNat + b.toNat - (2 ^ w - 1) := by
      have hone : (1 : BitVec w).toNat = 1 % 2 ^ w := BitVec.toNat_ofNat ..
      rw [BitVec.toNat_add, BitVec.toNat_add, hone, ← Nat.add_mod,
        Nat.mod_eq_sub_mod (by omega), Nat.mod_eq_of_lt (by omega)]
      omega
    rw [hsum]
    exact onesEq_sub (by omega)

theorem toNat_foldl_onesAdd (l : List (BitVec w)) (a : BitVec w) :
    OnesEq (2 ^ w - 1) (l.foldl onesAdd a).toNat (a.toNat + (l.map BitVec.toNat).sum) := by
  induction l generalizing a with
  | nil => exact .refl _
  | cons b l ih =>
    have hrest := (ih (onesAdd a b)).trans ((toNat_onesAdd a b).add (.refl _))
    rwa [Nat.add_assoc] at hrest

theorem toNat_onesSum (l : List (BitVec w)) :
    OnesEq (2 ^ w - 1) (onesSum l).toNat (l.map BitVec.toNat).sum := by
  have hfold := toNat_foldl_onesAdd l 0
  rwa [show (0 : BitVec w).toNat = 0 from BitVec.toNat_zero, Nat.zero_add] at hfold

/-- The sum is the only word of its number. -/
theorem eq_onesSum {n : Nat} (l : List (BitVec w)) (hn : n < 2 ^ w)
    (h : OnesEq (2 ^ w - 1) n (l.map BitVec.toNat).sum) : n = (onesSum l).toNat :=
  (h.trans (toNat_onesSum l).symm).eq (Nat.le_sub_one_of_lt hn)
    (Nat.le_sub_one_of_lt (onesSum l).isLt)

end

end OpenBsd.Lib
