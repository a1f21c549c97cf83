/-
  OpenBsd.Lib.XorWord

  Machine words with exclusive or as their addition.
-/

import Mathlib.Algebra.BigOperators.Intervals
import Mathlib.Tactic.Abel

namespace OpenBsd.Lib

/-- A word of `w` bits that is added bit by bit. -/
structure XorWord (w : Nat) where
  bits : BitVec w
  deriving DecidableEq

namespace XorWord

variable {w : Nat}

@[ext] theorem ext {a b : XorWord w} (h : a.bits = b.bits) : a = b := by
  cases a
  cases b
  exact congrArg XorWord.mk h

instance : Zero (XorWord w) := ⟨⟨0⟩⟩

instance : Add (XorWord w) := ⟨fun a b => ⟨a.bits ^^^ b.bits⟩⟩

instance : Neg (XorWord w) := ⟨fun a => a⟩

@[simp] theorem bits_add (a b : XorWord w) : (a + b).bits = a.bits ^^^ b.bits := rfl

instance addCommGroup : AddCommGroup (XorWord w) where
  add_assoc a b c := XorWord.ext (BitVec.xor_assoc a.bits b.bits c.bits)
  zero_add a := XorWord.ext BitVec.zero_xor
  add_zero a := XorWord.ext BitVec.xor_zero
  neg_add_cancel a := XorWord.ext BitVec.xor_self
  add_comm a b := XorWord.ext (BitVec.xor_comm a.bits b.bits)
  nsmul := nsmulRec
  zsmul := zsmulRec

theorem add_self (a : XorWord w) : a + a = 0 := XorWord.ext BitVec.xor_self

end XorWord

/-! ## Groups where everything is its own inverse -/

section

variable {B : Type*} [AddCommGroup B] (h2 : ∀ x : B, x + x = 0)

include h2

theorem add_add_cancel_self (x y : B) : x + y + y = x := by
  rw [add_assoc, h2 y, add_zero]

theorem eq_of_add_eq_zero_self {x y : B} (h : x + y = 0) : x = y := by
  calc x = x + y + y := (add_add_cancel_self h2 x y).symm
    _ = y := by rw [h, zero_add]

/-- Where everything adds up to zero, each one is the sum of the others. -/
theorem sum_erase_self {s : Finset Nat} {f : Nat → B} {c : Nat} (hc : c ∈ s) (h : ∑ i ∈ s, f i = 0) :
    ∑ i ∈ s.erase c, f i = f c := by
  apply eq_of_add_eq_zero_self h2
  rw [add_comm, Finset.add_sum_erase s f hc, h]

/-- A sum where one of the places has changed. -/
theorem sum_change {s : Finset Nat} {f f' : Nat → B} {x : Nat} (hx : x ∈ s)
    (h : ∀ z ∈ s, z ≠ x → f' z = f z) : ∑ z ∈ s, f' z = f' x + f x + ∑ z ∈ s, f z := by
  have hrest : ∑ z ∈ s.erase x, f' z = ∑ z ∈ s.erase x, f z := by
    apply Finset.sum_congr rfl
    intro z hz
    obtain ⟨hne, hmem⟩ := Finset.mem_erase.mp hz
    exact h z hmem hne
  rw [← Finset.add_sum_erase s f' hx, ← Finset.add_sum_erase s f hx, hrest, add_assoc,
    ← add_assoc (f x), h2, zero_add]

end

/-! ## A place left out -/

/-- The numbers but `p`. -/
def skip (p i : Nat) : Nat := if i ≥ p then i + 1 else i

/-- The place of a number other than `p`. -/
def unskip (p c : Nat) : Nat := if c < p then c else c - 1

theorem unskip_skip (p i : Nat) : unskip p (skip p i) = i := by
  unfold unskip skip
  split <;> split <;> omega

theorem skip_ne (p i : Nat) : skip p i ≠ p := by
  unfold skip
  split <;> omega

theorem skip_unskip {p c : Nat} (h : c ≠ p) : skip p (unskip p c) = c := by
  unfold unskip skip
  split <;> split <;> omega

theorem unskip_lt {p c n : Nat} (hp : p ≤ n) (hc : c < n + 1) (h : c ≠ p) : unskip p c < n := by
  unfold unskip
  split <;> omega

theorem skip_lt {p i n : Nat} (hi : i < n) : skip p i < n + 1 := by
  unfold skip
  split <;> omega

/-- A sum with one of the places taken out. -/
theorem sum_range_skip {B : Type*} [AddCommMonoid B] {p n : Nat} (hp : p ≤ n) (f : Nat → B) :
    ∑ c ∈ Finset.range (n + 1), f c = f p + ∑ i ∈ Finset.range n, f (skip p i) := by
  obtain ⟨k, rfl⟩ := Nat.exists_eq_add_of_le hp
  have hlow : ∑ i ∈ Finset.range p, f (skip p i) = ∑ i ∈ Finset.range p, f i := by
    apply Finset.sum_congr rfl
    intro i hi
    rw [skip, if_neg (by have := Finset.mem_range.mp hi; omega)]
  have hhigh : ∑ i ∈ Finset.range k, f (skip p (p + i)) = ∑ i ∈ Finset.range k, f (p + (i + 1)) := by
    apply Finset.sum_congr rfl
    intro i _
    rw [skip, if_pos (by omega), Nat.add_assoc]
  rw [Nat.add_assoc, Finset.sum_range_add f p (k + 1), Finset.sum_range_add _ p k, hlow, hhigh,
    Finset.sum_range_succ']
  abel

end OpenBsd.Lib
