/-
  OpenBsd.Lib.Gf256

  The field of 256 elements on bytes, with the polynomial `x^8 + x^4 + x^3 + x^2 + 1`.

  The product is shift and add.  Every byte but zero is a power of the generator, and a product
  with a power of the generator is a repeated shift; the laws of the field follow from this.
-/

import Mathlib.Algebra.Field.Basic
import Mathlib.Algebra.Module.BigOperators
import OpenBsd.Lib.XorWord

namespace OpenBsd.Lib

open List Function

namespace Gf256

/-- The product with the generator. -/
def xtime (a : XorWord 8) : XorWord 8 :=
  ⟨(a.bits <<< 1) ^^^ if a.bits.getLsbD 7 then 0x1D else 0⟩

theorem xtime_eq (a : XorWord 8) :
    xtime a = ⟨a.bits <<< 1⟩ + if a.bits.getLsbD 7 then ⟨0x1D⟩ else 0 := by
  unfold xtime
  split <;> rfl

theorem ite_xor_add (p q : Bool) (x : XorWord 8) :
    (if (p ^^ q) = true then x else 0) = (if p then x else 0) + if q then x else 0 := by
  cases p <;> cases q <;> simp [XorWord.add_self]

theorem xtime_add (a b : XorWord 8) : xtime (a + b) = xtime a + xtime b := by
  have hshift : (⟨(a + b).bits <<< 1⟩ : XorWord 8) = ⟨a.bits <<< 1⟩ + ⟨b.bits <<< 1⟩ :=
    XorWord.ext (BitVec.shiftLeft_xor_distrib _ _ _)
  rw [xtime_eq, xtime_eq, xtime_eq, hshift, XorWord.bits_add, BitVec.getLsbD_xor, ite_xor_add]
  exact add_add_add_comm _ _ _ _

theorem xtime_zero : xtime 0 = 0 := rfl

theorem iterate_xtime_add (i : Nat) (a b : XorWord 8) :
    xtime^[i] (a + b) = xtime^[i] a + xtime^[i] b := by
  induction i generalizing a b with
  | zero => rfl
  | succ i ih => rw [iterate_succ_apply, xtime_add, ih]; rfl

/-- Shift and add. -/
def mul (a b : XorWord 8) : XorWord 8 :=
  ((List.range 8).map fun i => if b.bits.getLsbD i then xtime^[i] a else 0).sum

theorem mul_add (a b c : XorWord 8) : mul a (b + c) = mul a b + mul a c := by
  unfold mul
  rw [← sum_map_add]
  congr 1
  apply map_congr_left
  intro i _
  rw [XorWord.bits_add, BitVec.getLsbD_xor, ite_xor_add]

theorem add_mul (a b c : XorWord 8) : mul (a + b) c = mul a c + mul b c := by
  unfold mul
  rw [← sum_map_add]
  congr 1
  apply map_congr_left
  intro i _
  split
  · exact iterate_xtime_add i a b
  · exact (add_zero 0).symm

theorem xtime_mul (a b : XorWord 8) : mul (xtime a) b = xtime (mul a b) := by
  have hsum : ∀ l : List (XorWord 8), xtime l.sum = (l.map xtime).sum := by
    intro l
    induction l with
    | nil => rfl
    | cons x l ih => rw [sum_cons, xtime_add, ih, map_cons, sum_cons]
  unfold mul
  rw [hsum, map_map]
  congr 1
  apply map_congr_left
  intro i _
  show _ = xtime (if b.bits.getLsbD i then xtime^[i] a else 0)
  split
  · exact (Function.Commute.iterate_right (Function.Commute.refl xtime) i).symm a
  · exact xtime_zero.symm

theorem zero_mul (b : XorWord 8) : mul 0 b = 0 := by
  have h := add_mul 0 0 b
  rwa [add_zero, left_eq_add] at h

theorem mul_zero (a : XorWord 8) : mul a 0 = 0 := by
  have h := mul_add a 0 0
  rwa [add_zero, left_eq_add] at h

/-! ## Powers of the generator -/

/-- A fact about every byte, by looking at them all. -/
theorem forall_byte {p : XorWord 8 → Prop} [DecidablePred p]
    (h : ((List.range 256).all fun n => decide (p ⟨BitVec.ofNat 8 n⟩)) = true) (a : XorWord 8) :
    p a := by
  rw [all_eq_true] at h
  have ha := h a.bits.toNat (mem_range.mpr a.bits.isLt)
  rw [decide_eq_true_iff, BitVec.ofNat_toNat, BitVec.setWidth_eq] at ha
  exact ha

set_option maxRecDepth 1000 in
theorem one_mul : ∀ b : XorWord 8, mul ⟨1⟩ b = b := by
  apply forall_byte
  decide

/-- How many steps of the generator lead from `a` to `b`. -/
def stepsTo (b : XorWord 8) : Nat → XorWord 8 → Option Nat
  | 0, _ => none
  | n + 1, a => if a = b then some 0 else (stepsTo b n (xtime a)).map (· + 1)

theorem stepsTo_spec {b : XorWord 8} :
    ∀ {n : Nat} {a : XorWord 8} {i : Nat}, stepsTo b n a = some i → xtime^[i] a = b ∧ i < n := by
  intro n
  induction n with
  | zero => intro a i h; cases h
  | succ n ih =>
    intro a i h
    unfold stepsTo at h
    split at h
    next heq =>
      cases h
      exact ⟨heq, Nat.succ_pos n⟩
    next =>
      obtain ⟨j, hj, rfl⟩ := Option.map_eq_some_iff.mp h
      obtain ⟨hit, hlt⟩ := ih hj
      exact ⟨hit, Nat.succ_lt_succ hlt⟩

theorem stepsTo_isSome {b : XorWord 8} :
    ∀ {n i : Nat} {a : XorWord 8}, i < n → xtime^[i] a = b → (stepsTo b n a).isSome = true := by
  intro n
  induction n with
  | zero => intro i a hi; omega
  | succ n ih =>
    intro i a hi hit
    unfold stepsTo
    split
    next => rfl
    next hne =>
      rw [Option.isSome_map]
      cases i with
      | zero => exact absurd hit hne
      | succ i => exact ih (Nat.lt_of_succ_lt_succ hi) hit

/-- `xtime` on numbers, which are faster to compute with. -/
def xtimeNat (a : Nat) : Nat := if a < 128 then 2 * a else (2 * a) ^^^ 0x11D

/-- `a` and what follows it. -/
def powers : Nat → Nat → List Nat
  | 0, _ => []
  | n + 1, a => a :: powers n (xtimeNat a)

set_option maxRecDepth 1000 in
theorem xtime_ofNat {a : Nat} (ha : a < 256) :
    xtime ⟨BitVec.ofNat 8 a⟩ = ⟨BitVec.ofNat 8 (xtimeNat a)⟩ ∧ xtimeNat a < 256 := by
  have h : ((List.range 256).all fun a =>
      decide (xtime ⟨BitVec.ofNat 8 a⟩ = ⟨BitVec.ofNat 8 (xtimeNat a)⟩ ∧ xtimeNat a < 256)) = true := by
    decide
  exact of_decide_eq_true (all_eq_true.mp h a (mem_range.mpr ha))

theorem powers_mem {x : Nat} : ∀ {n a : Nat}, a < 256 → x ∈ powers n a →
    ∃ i < n, xtime^[i] ⟨BitVec.ofNat 8 a⟩ = ⟨BitVec.ofNat 8 x⟩ := by
  intro n
  induction n with
  | zero => intro a _ h; cases h
  | succ n ih =>
    intro a ha h
    rcases mem_cons.mp h with rfl | h
    · exact ⟨0, Nat.succ_pos n, rfl⟩
    · obtain ⟨hnext, hlt⟩ := xtime_ofNat ha
      obtain ⟨i, hi, hit⟩ := ih hlt h
      rw [← hnext] at hit
      exact ⟨i + 1, Nat.succ_lt_succ hi, hit⟩

theorem powers_all :
    ((List.range 256).all fun b => Nat.beq b 0 || (powers 255 1).any (Nat.beq b)) = true := by
  decide +kernel

/-- Every byte but zero is a power of the generator. -/
theorem exists_iterate {a : XorWord 8} (ha : a ≠ 0) : ∃ i < 255, xtime^[i] ⟨1⟩ = a := by
  have h := all_eq_true.mp powers_all a.bits.toNat (mem_range.mpr a.bits.isLt)
  rw [Bool.or_eq_true, any_eq_true] at h
  have hself : (⟨BitVec.ofNat 8 a.bits.toNat⟩ : XorWord 8) = a :=
    XorWord.ext (by rw [BitVec.ofNat_toNat, BitVec.setWidth_eq])
  rcases h with hzero | ⟨x, hx, heq⟩
  · rw [Nat.eq_of_beq_eq_true hzero] at hself
    exact absurd hself.symm ha
  · obtain ⟨i, hi, hit⟩ := powers_mem (by decide) hx
    rw [← Nat.eq_of_beq_eq_true heq, hself] at hit
    exact ⟨i, hi, hit⟩

theorem iterate_order : xtime^[255] ⟨1⟩ = (⟨1⟩ : XorWord 8) := by decide +kernel

theorem iterate_mul (i : Nat) (b : XorWord 8) : mul (xtime^[i] ⟨1⟩) b = xtime^[i] b := by
  induction i with
  | zero => exact one_mul b
  | succ i ih => rw [iterate_succ_apply', xtime_mul, ih, iterate_succ_apply']

theorem mul_comm (a b : XorWord 8) : mul a b = mul b a := by
  by_cases ha : a = 0
  · rw [ha, zero_mul, mul_zero]
  by_cases hb : b = 0
  · rw [hb, zero_mul, mul_zero]
  obtain ⟨i, -, rfl⟩ := exists_iterate ha
  obtain ⟨j, -, rfl⟩ := exists_iterate hb
  rw [iterate_mul, iterate_mul, ← iterate_add_apply, Nat.add_comm, iterate_add_apply]

theorem mul_assoc (a b c : XorWord 8) : mul (mul a b) c = mul a (mul b c) := by
  by_cases ha : a = 0
  · rw [ha, zero_mul, zero_mul, zero_mul]
  obtain ⟨i, -, rfl⟩ := exists_iterate ha
  have hshift : ∀ (i : Nat) (x : XorWord 8), mul (xtime^[i] x) c = xtime^[i] (mul x c) := by
    intro i x
    induction i with
    | zero => rfl
    | succ i ih => rw [iterate_succ_apply', xtime_mul, ih, iterate_succ_apply']
  rw [iterate_mul, iterate_mul, hshift]

/-- The power that is left to 255. -/
def inv (a : XorWord 8) : XorWord 8 :=
  match stepsTo a 255 ⟨1⟩ with
  | some i => xtime^[255 - i] ⟨1⟩
  | none => 0

theorem mul_inv {a : XorWord 8} (ha : a ≠ 0) : mul a (inv a) = ⟨1⟩ := by
  obtain ⟨j, hj, hit⟩ := exists_iterate ha
  obtain ⟨i, hi⟩ := Option.isSome_iff_exists.mp (stepsTo_isSome hj hit)
  obtain ⟨hit, hlt⟩ := stepsTo_spec hi
  unfold inv
  rw [hi]
  dsimp only
  rw [← hit, iterate_mul, ← iterate_add_apply, Nat.add_sub_cancel' hlt.le, iterate_order]

theorem inv_zero : inv 0 = 0 := by
  unfold inv
  split
  next i hi =>
    obtain ⟨hit, hlt⟩ := stepsTo_spec hi
    have hone : xtime^[255 - i] 0 = ⟨1⟩ := by
      rw [← hit, ← iterate_add_apply, Nat.sub_add_cancel hlt.le, iterate_order]
    rw [iterate_fixed xtime_zero] at hone
    exact absurd hone (by decide)
  next => rfl

end Gf256

instance : Field (XorWord 8) where
  __ := (XorWord.addCommGroup : AddCommGroup (XorWord 8))
  mul := Gf256.mul
  one := ⟨1⟩
  left_distrib := Gf256.mul_add
  right_distrib := Gf256.add_mul
  zero_mul := Gf256.zero_mul
  mul_zero := Gf256.mul_zero
  mul_assoc := Gf256.mul_assoc
  one_mul := Gf256.one_mul
  mul_one a := (Gf256.mul_comm a ⟨1⟩).trans (Gf256.one_mul a)
  mul_comm := Gf256.mul_comm
  inv := Gf256.inv
  exists_pair_ne := ⟨0, ⟨1⟩, by decide⟩
  mul_inv_cancel _ ha := Gf256.mul_inv ha
  inv_zero := Gf256.inv_zero
  nnqsmul := _
  nnqsmul_def := fun _ _ => rfl
  qsmul := _
  qsmul_def := fun _ _ => rfl

namespace Gf256

/-- The generator. -/
def gen : XorWord 8 := ⟨2⟩

theorem iterate_eq_pow (i : Nat) : xtime^[i] ⟨1⟩ = gen ^ i := by
  have hgen : ∀ a, xtime a = gen * a := fun a => (iterate_mul 1 a).symm
  induction i with
  | zero => exact (pow_zero gen).symm
  | succ i ih => rw [iterate_succ_apply', ih, hgen, pow_succ']

theorem gen_order : gen ^ 255 = 1 := by
  rw [← iterate_eq_pow]
  exact iterate_order

theorem gen_ne_zero : gen ≠ 0 := by decide

/-- The powers below 255 are all different. -/
theorem gen_pow_injective {i j : Nat} (hi : i < 255) (hj : j < 255) (h : gen ^ i = gen ^ j) :
    i = j := by
  let code := fun k => (gen ^ k).bits.toNat
  have hmaps : Set.MapsTo code (Finset.range 255) ((Finset.range 256).erase 0) := by
    intro k _
    have hne : code k ≠ 0 := fun hzero =>
      pow_ne_zero k gen_ne_zero (XorWord.ext (BitVec.eq_of_toNat_eq hzero))
    simpa [hne] using (gen ^ k).bits.isLt
  have hsurj : Set.SurjOn code (Finset.range 255) ((Finset.range 256).erase 0) := by
    intro b hb
    obtain ⟨hb0, hb⟩ := Finset.mem_erase.mp hb
    rw [Finset.mem_range] at hb
    have hcode : (BitVec.ofNat 8 b).toNat = b := Nat.mod_eq_of_lt hb
    obtain ⟨k, hk, hit⟩ := exists_iterate (a := ⟨BitVec.ofNat 8 b⟩) (by
      intro hzero
      rw [XorWord.mk.injEq] at hzero
      exact hb0 (hcode.symm.trans (congrArg BitVec.toNat hzero)))
    refine ⟨k, Finset.mem_range.mpr hk, ?_⟩
    rw [iterate_eq_pow] at hit
    simp only [code, hit, hcode]
  exact Finset.injOn_of_surjOn_of_card_le code hmaps hsurj (by simp)
    (Finset.mem_range.mpr hi) (Finset.mem_range.mpr hj) (by simp only [code, h])

end Gf256

/-! ## Two lost places

Of the places of `s` two sums are known, one of them with factors. -/

section

variable {F B : Type*} [Field F] [AddCommGroup B] [Module F B] (h2 : ∀ x : B, x + x = 0)
  {s : Finset Nat} {g : Nat → F} {v : Nat → B} {x y : Nat}

include h2

/-- A sum, with all of its places but one taken away. -/
theorem sum_add_erase (hx : x ∈ s) (f : Nat → B) : ∑ z ∈ s, f z + ∑ z ∈ s.erase x, f z = f x := by
  rw [← Finset.add_sum_erase s f hx, add_add_cancel_self h2]

/-- One place, from the sum with factors. -/
theorem recover_one (hx : x ∈ s) (hg : g x ≠ 0) :
    (g x)⁻¹ • ∑ z ∈ s, g z • v z + ∑ z ∈ s.erase x, (g z * (g x)⁻¹) • v z = v x := by
  have hrest : ∑ z ∈ s.erase x, (g z * (g x)⁻¹) • v z = (g x)⁻¹ • ∑ z ∈ s.erase x, g z • v z := by
    rw [Finset.smul_sum]
    apply Finset.sum_congr rfl
    intro z _
    rw [smul_smul, mul_comm]
  rw [hrest, ← smul_add, sum_add_erase h2 hx, smul_smul, inv_mul_cancel₀ hg, one_smul]

/-- One of two places, from both sums. -/
theorem recover_two (hx : x ∈ s) (hy : y ∈ s) (hne : x ≠ y) (hg : g x + g y ≠ 0) :
    (g x + g y)⁻¹ • ∑ z ∈ s, g z • v z + (g y * (g x + g y)⁻¹) • ∑ z ∈ s, v z +
      ∑ z ∈ (s.erase x).erase y, (g y * (g x + g y)⁻¹ + g z * (g x + g y)⁻¹) • v z = v x := by
  have hy' : y ∈ s.erase x := Finset.mem_erase.mpr ⟨hne.symm, hy⟩
  have hrest : ∑ z ∈ (s.erase x).erase y, (g y * (g x + g y)⁻¹ + g z * (g x + g y)⁻¹) • v z =
      (g y * (g x + g y)⁻¹) • ∑ z ∈ (s.erase x).erase y, v z +
        (g x + g y)⁻¹ • ∑ z ∈ (s.erase x).erase y, g z • v z := by
    rw [Finset.smul_sum, Finset.smul_sum, ← Finset.sum_add_distrib]
    apply Finset.sum_congr rfl
    intro z _
    rw [add_smul, smul_smul, mul_comm (g z)]
  -- what the two places add to each of the sums
  have hpair : ∀ f : Nat → B, ∑ z ∈ s, f z + ∑ z ∈ (s.erase x).erase y, f z = f x + f y := by
    intro f
    rw [← Finset.add_sum_erase s f hx, ← Finset.add_sum_erase (s.erase x) f hy', ← add_assoc,
      add_add_cancel_self h2]
  calc (g x + g y)⁻¹ • ∑ z ∈ s, g z • v z + (g y * (g x + g y)⁻¹) • ∑ z ∈ s, v z +
        ∑ z ∈ (s.erase x).erase y, (g y * (g x + g y)⁻¹ + g z * (g x + g y)⁻¹) • v z
      = (g x + g y)⁻¹ • (∑ z ∈ s, g z • v z + ∑ z ∈ (s.erase x).erase y, g z • v z) +
          (g y * (g x + g y)⁻¹) • (∑ z ∈ s, v z + ∑ z ∈ (s.erase x).erase y, v z) := by
        rw [hrest, smul_add, smul_add]
        abel
    _ = (g x + g y)⁻¹ • (g x • v x + g y • v y) + (g y * (g x + g y)⁻¹) • (v x + v y) := by
        rw [hpair, hpair]
    _ = ((g x + g y)⁻¹ * (g x + g y)) • v x + ((g x + g y)⁻¹ * g y) • (v y + v y) := by
        rw [mul_comm (g y), smul_add, smul_add, smul_add, mul_add, add_smul, smul_smul, smul_smul]
        abel
    _ = v x := by rw [inv_mul_cancel₀ hg, one_smul, h2, smul_zero, add_zero]

end

end OpenBsd.Lib
