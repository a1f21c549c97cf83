/-
  OpenBsd.Lib.Bitmap

  Bit maps in an array of machine words, and the first bit that is set in a word.
-/

import Mathlib.Data.List.Range
import Mathlib.Data.Nat.Bitwise
import Mathlib.Tactic.Ring

namespace OpenBsd.Lib

/-! ## Words -/

section

variable {w : Nat}

/-- `ffs`: one plus the index of the first bit that is set, or zero. -/
def ffs (x : BitVec w) : Nat :=
  match (List.range w).find? (fun i => x.getLsbD i) with
  | some i => i + 1
  | none => 0

/-- `(1 << k) - 1`: the bits below `k`. -/
def lowBits (w k : Nat) : BitVec w := (1#w <<< k) - 1#w

theorem getLsbD_lowBits {k : Nat} (hk : k < w) (i : Nat) :
    (lowBits w k).getLsbD i = decide (i < k) := by
  have hpow : 2 ^ k < 2 ^ w := Nat.pow_lt_pow_right (by omega) hk
  have hpos : 0 < 2 ^ k := Nat.two_pow_pos k
  have hw : 1 < 2 ^ w := Nat.one_lt_two_pow (by omega)
  have hval : (lowBits w k).toNat = 2 ^ k - 1 := by
    unfold lowBits
    rw [BitVec.toNat_sub, BitVec.toNat_shiftLeft, BitVec.toNat_ofNat, Nat.mod_eq_of_lt hw,
      Nat.shiftLeft_eq, Nat.one_mul, Nat.mod_eq_of_lt hpow]
    have hsum : 2 ^ w - 1 + 2 ^ k = (2 ^ k - 1) + 2 ^ w := by omega
    rw [hsum, Nat.add_mod_right, Nat.mod_eq_of_lt (by omega)]
  show (lowBits w k).toNat.testBit i = decide (i < k)
  rw [hval, Nat.testBit_two_pow_sub_one]

theorem getLsbD_bit {k : Nat} (hk : k < w) (i : Nat) : (1#w <<< k).getLsbD i = decide (i = k) := by
  rw [BitVec.getLsbD_shiftLeft, BitVec.getLsbD_one]
  by_cases hik : i = k
  · subst hik
    simp [hk]
    omega
  · by_cases hlt : i < k
    · simp [hlt, hik]
    · have : i - k ≠ 0 := by omega
      simp [this, hik]

variable {x : BitVec w}

/-- A word without a bit set is zero. -/
theorem eq_zero_iff_getLsbD : x = 0 ↔ ∀ i < w, x.getLsbD i = false := by
  constructor
  · rintro rfl i -
    simp
  · intro h
    apply BitVec.eq_of_getLsbD_eq
    intro i hi
    rw [h i hi]
    simp

/-- `ffs` of a word that is not zero: the bit it names is set, and none below it is. -/
theorem ffs_spec (hx : x ≠ 0) :
    1 ≤ ffs x ∧ ffs x - 1 < w ∧ x.getLsbD (ffs x - 1) = true ∧
      ∀ i < ffs x - 1, x.getLsbD i = false := by
  unfold ffs
  cases hfind : (List.range w).find? (fun i => x.getLsbD i) with
  | none =>
    simp only [List.find?_eq_none, List.mem_range] at hfind
    exact absurd (eq_zero_iff_getLsbD.mpr (by simpa using hfind)) hx
  | some i =>
    have hmem := List.mem_range.mp (List.mem_of_find?_eq_some hfind)
    have hset := List.find?_some hfind
    rw [List.find?_range_eq_some] at hfind
    refine ⟨Nat.le_add_left 1 i, ?_, ?_, ?_⟩
    · simpa using hmem
    · simpa using hset
    · intro j hj
      simpa using hfind.2.2 j (by simpa using hj)

theorem eq_allOnes_iff_getLsbD : x = BitVec.allOnes w ↔ ∀ i < w, x.getLsbD i = true := by
  constructor
  · rintro rfl i hi
    rw [BitVec.getLsbD_allOnes, decide_eq_true hi]
  · intro h
    apply BitVec.eq_of_getLsbD_eq
    intro i hi
    rw [h i hi, BitVec.getLsbD_allOnes, decide_eq_true hi]

/-- `ffs(~x)` of a word that is not all ones: the bit it names is clear, and all below it are
    set. -/
theorem ffs_not_spec (hx : x ≠ BitVec.allOnes w) :
    1 ≤ ffs (~~~x) ∧ ffs (~~~x) - 1 < w ∧ x.getLsbD (ffs (~~~x) - 1) = false ∧
      ∀ i < ffs (~~~x) - 1, x.getLsbD i = true := by
  have hne : ~~~x ≠ 0 := by
    intro hzero
    refine hx (eq_allOnes_iff_getLsbD.2 fun i hi => ?_)
    have hbit := eq_zero_iff_getLsbD.1 hzero i hi
    rwa [BitVec.getLsbD_not, decide_eq_true hi, Bool.true_and, Bool.not_eq_false'] at hbit
  obtain ⟨hpos, hlt, hset, hlow⟩ := ffs_spec hne
  refine ⟨hpos, hlt, ?_, fun i hi => ?_⟩
  · rwa [BitVec.getLsbD_not, decide_eq_true hlt, Bool.true_and, Bool.not_eq_true'] at hset
  · have hbit := hlow i hi
    rwa [BitVec.getLsbD_not, decide_eq_true (Nat.lt_trans hi hlt), Bool.true_and,
      Bool.not_eq_false'] at hbit

end

/-! ## Maps -/

/-- A map of words of `w` bits. -/
abbrev Bitmap (w : Nat) := Nat → BitVec w

namespace Bitmap

variable {w : Nat} (m : Bitmap w)

/-- The bit of `n`. -/
def test (n : Nat) : Bool := (m (n / w)).getLsbD (n % w)

/-- `map[n / w] |= 1 << (n % w)`. -/
def set (n : Nat) : Bitmap w :=
  fun k => if k = n / w then m k ||| (1#w <<< (n % w)) else m k

/-- `map[n / w] &= ~(1 << (n % w))`. -/
def clear (n : Nat) : Bitmap w :=
  fun k => if k = n / w then m k &&& ~~~(1#w <<< (n % w)) else m k

variable {m}

theorem div_mod_inj {n n' : Nat} (hd : n' / w = n / w) (hm : n' % w = n % w) : n' = n := by
  rw [← Nat.div_add_mod n w, ← Nat.div_add_mod n' w, hd, hm]

theorem test_mul_add {k i : Nat} (hi : i < w) : m.test (k * w + i) = (m k).getLsbD i := by
  have hw : 0 < w := Nat.zero_lt_of_lt hi
  have hk : (k * w + i) / w = k := by
    rw [Nat.add_comm, Nat.add_mul_div_right _ _ hw, Nat.div_eq_of_lt hi, Nat.zero_add]
  have hm : (k * w + i) % w = i := by
    rw [Nat.add_comm, Nat.add_mul_mod_self_right, Nat.mod_eq_of_lt hi]
  rw [test, hk, hm]

/-- The bits of a word that is all ones are set. -/
theorem eq_allOnes_iff_test {k : Nat} :
    m k = BitVec.allOnes w ↔ ∀ n, k * w ≤ n → n < (k + 1) * w → m.test n = true := by
  rw [eq_allOnes_iff_getLsbD]
  constructor
  · intro h n hlo hhi
    obtain ⟨i, rfl⟩ := Nat.exists_eq_add_of_le hlo
    have hi : i < w := by
      rw [Nat.add_one_mul] at hhi
      omega
    rw [test_mul_add hi]
    exact h i hi
  · intro h i hi
    rw [← test_mul_add hi]
    refine h _ (Nat.le_add_right ..) ?_
    rw [Nat.add_one_mul]
    omega

/-- A bit after one word of the map was written. -/
theorem test_update (k : Nat) (x : BitVec w) (n : Nat) :
    test (Function.update m k x) n = if n / w = k then x.getLsbD (n % w) else m.test n := by
  unfold test
  split
  · rename_i hk
    rw [hk, Function.update_self]
  · rename_i hk
    rw [Function.update_of_ne hk]

theorem test_set (hw : 0 < w) (n n' : Nat) :
    (m.set n).test n' = (decide (n' = n) || m.test n') := by
  unfold test set
  by_cases hd : n' / w = n / w
  · rw [if_pos hd, BitVec.getLsbD_or, getLsbD_bit (Nat.mod_lt _ hw)]
    have hiff : n' % w = n % w ↔ n' = n :=
      ⟨fun hm => div_mod_inj hd hm, fun h => by rw [h]⟩
    rw [decide_eq_decide.mpr hiff, Bool.or_comm]
  · have hne : n' ≠ n := fun h => hd (by rw [h])
    rw [if_neg hd, decide_eq_false hne, Bool.false_or]

theorem test_clear (hw : 0 < w) (n n' : Nat) :
    (m.clear n).test n' = (!decide (n' = n) && m.test n') := by
  unfold test clear
  by_cases hd : n' / w = n / w
  · rw [if_pos hd, BitVec.getLsbD_and, BitVec.getLsbD_not, getLsbD_bit (Nat.mod_lt _ hw)]
    have hiff : n' % w = n % w ↔ n' = n :=
      ⟨fun hm => div_mod_inj hd hm, fun h => by rw [h]⟩
    rw [decide_eq_decide.mpr hiff, decide_eq_true (Nat.mod_lt _ hw), Bool.true_and, Bool.and_comm]
  · have hne : n' ≠ n := fun h => hd (by rw [h])
    rw [if_neg hd, decide_eq_false hne]
    rfl

/-- Setting a bit that is clear and clearing it again. -/
theorem set_clear (hw : 0 < w) {n : Nat} (hset : m.test n = true) : (m.clear n).set n = m := by
  funext k
  apply BitVec.eq_of_getLsbD_eq
  intro i hi
  have h := @test_set w (m.clear n) hw n (k * w + i)
  rw [test_clear hw, test_mul_add hi, test_mul_add hi] at h
  rw [h]
  by_cases hn : k * w + i = n
  · rw [← hn, test_mul_add hi] at hset
    simp [hset]
  · simp [hn]

end Bitmap

end OpenBsd.Lib
