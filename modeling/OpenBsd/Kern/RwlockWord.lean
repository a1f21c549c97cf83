/-
  OpenBsd.Kern.RwlockWord

  The word of a lock of `kern/kern_rwlock.c`: what its bits say, and how it changes
  when a thread takes, downgrades or releases the lock.
-/

import OpenBsd.Kern.Rwlock
import Mathlib.Order.Interval.Finset.Nat

namespace OpenBsd.Kern

open Function

/-! ## The bits of the word -/

theorem toNat_and_low (x m : BitVec 64) (hm : m.toNat < 8) :
    (x &&& m).toNat = x.toNat % 8 &&& m.toNat := by
  have hle : x.toNat &&& m.toNat ≤ m.toNat := Nat.and_le_right
  have hmod := @Nat.and_mod_two_pow x.toNat m.toNat 3
  rw [Nat.mod_eq_of_lt (show x.toNat &&& m.toNat < 2 ^ 3 by omega),
    Nat.mod_eq_of_lt (show m.toNat < 2 ^ 3 by omega)] at hmod
  rw [BitVec.toNat_and]
  exact hmod

theorem toNat_and_high (x m : BitVec 64) (hm : m.toNat / 8 = 2 ^ 61 - 1) :
    (x &&& m).toNat = x.toNat / 8 * 8 + (x.toNat % 8 &&& m.toNat % 8) := by
  have hdiv := @Nat.and_div_two_pow x.toNat m.toNat 3
  have hmod := @Nat.and_mod_two_pow x.toNat m.toNat 3
  have hx : x.toNat / 2 ^ 3 < 2 ^ 61 := by
    have := x.isLt
    omega
  rw [show m.toNat / 2 ^ 3 = 2 ^ 61 - 1 from hm, Nat.and_two_pow_sub_one_of_lt_two_pow hx] at hdiv
  rw [BitVec.toNat_and]
  change x.toNat &&& m.toNat = x.toNat / 8 * 8 + (x.toNat % 2 ^ 3 &&& m.toNat % 2 ^ 3)
  omega

section

variable (x : BitVec 64)
include x

theorem low_lt : x.toNat % 8 < 8 := Nat.mod_lt _ (Nat.succ_pos 7)

theorem and_wait_eq_zero : x &&& rwlockWait = 0 ↔ x.toNat % 2 = 0 := by
  have hbits : ∀ r < 8, (r &&& rwlockWait.toNat = 0 ↔ r % 2 = 0) := by decide
  have hx := hbits (x.toNat % 8) (low_lt _)
  rw [← BitVec.toNat_inj, toNat_and_low x _ (by decide)]
  exact hx.trans (by omega)

theorem and_wrlock_wait_eq :
    x &&& (rwlockWrlock ||| rwlockWait) = rwlockWrlock ||| rwlockWait ↔
      x.toNat / 4 % 2 = 1 ∧ x.toNat % 2 = 1 := by
  have hbits : ∀ r < 8, (r &&& (rwlockWrlock ||| rwlockWait).toNat =
      (rwlockWrlock ||| rwlockWait).toNat ↔ r / 4 % 2 = 1 ∧ r % 2 = 1) := by decide
  have hx := hbits (x.toNat % 8) (low_lt _)
  rw [← BitVec.toNat_inj, toNat_and_low x _ (by decide)]
  exact hx.trans (by omega)

end

theorem toNat_rwProc (p : BitVec 64) : (rwProc p).toNat = p.toNat / 8 * 8 := by
  have hbits : ∀ r < 8, r &&& (~~~rwlockMask).toNat % 8 = 0 := by decide
  have hx := hbits (p.toNat % 8) (low_lt _)
  rw [rwProc, toNat_and_high p _ (by decide), hx, Nat.add_zero]

/-! ## The word and the holders -/

section Encodes

variable {τ : Type} (P : ProcTable τ)

/-- The address in the word of a writer. -/
def ProcTable.bits (t : τ) : Nat := (rwProc (P.proc t)).toNat

theorem ProcTable.bits_mod (t : τ) : P.bits t % 8 = 0 := by
  rw [ProcTable.bits, toNat_rwProc]
  omega

theorem ProcTable.bits_bounds (t : τ) : 0 < P.bits t ∧ P.bits t + 8 ≤ 2 ^ 64 := by
  have hmod := P.bits_mod t
  have hlt : P.bits t < 2 ^ 64 := (rwProc (P.proc t)).isLt
  have hne : P.bits t ≠ 0 := by
    intro e
    exact P.nonnull t (BitVec.eq_of_toNat_eq e)
  omega

/-- There are not more threads than addresses, so that the readers can be counted in
    the upper bits. -/
theorem ProcTable.card_lt (P : ProcTable τ) (R : Finset τ) : R.card < 2 ^ 61 := by
  have hcard : R.card ≤ (Finset.Icc 1 (2 ^ 61 - 1)).card := by
    refine Finset.card_le_card_of_injOn (fun t => P.bits t / 8) ?_ ?_
    · intro t _
      have hmod := P.bits_mod t
      have hb := P.bits_bounds t
      simp only [Finset.coe_Icc, Set.mem_Icc]
      omega
    · intro t _ u _ e
      have hmt := P.bits_mod t
      have hmu := P.bits_mod u
      have he : P.bits t / 8 = P.bits u / 8 := e
      exact P.apart (BitVec.eq_of_toNat_eq (show P.bits t = P.bits u by omega))
  rw [Nat.card_Icc] at hcard
  omega

/-- The word `n` with the wait bits `b` says who holds the lock: one writer and no
    reader, with the address of the writer and `RWLOCK_WRLOCK`; or no writer, with the
    number of readers.  Without a holder the wait bits are clear. -/
def Encodes (held : τ → Held) (n b : Nat) : Prop :=
  (∃ w, held w = .write ∧ (∀ t, held t ≠ .nothing → t = w) ∧ n = P.bits w + 4 + b) ∨
  (∀ t, held t ≠ .write) ∧ ∃ R : Finset τ, (∀ t, t ∈ R ↔ held t = .read) ∧ n = 8 * R.card + b ∧
    (R = ∅ → b = 0)

/-- The wait bits: `RWLOCK_WRWANT` comes with `RWLOCK_WAIT`. -/
def WaitBits (b : Nat) : Prop := b = 0 ∨ b = 1 ∨ b = 3

variable {P} {held : τ → Held} {n b : Nat}

theorem Encodes.wrlock (h : Encodes P held n b) (hb : WaitBits b) :
    n / 4 % 2 = 1 ↔ ∃ w, held w = .write := by
  rcases h with ⟨w, hw, -, hn⟩ | ⟨hno, R, -, hn, -⟩
  · have hmod := P.bits_mod w
    refine iff_of_true ?_ ⟨w, hw⟩
    rcases hb with rfl | rfl | rfl <;> omega
  · refine iff_of_false ?_ ?_
    · rcases hb with rfl | rfl | rfl <;> omega
    · rintro ⟨w, hw⟩
      exact hno w hw

theorem Encodes.write_eq (h : Encodes P held n b) {t : τ} (ht : held t = .write) :
    n = P.bits t + 4 + b ∧ ∀ u, held u ≠ .nothing → u = t := by
  rcases h with ⟨w, hw, honly, hn⟩ | ⟨hno, -⟩
  · obtain rfl : t = w := honly t (by simp [ht])
    exact ⟨hn, honly⟩
  · exact absurd ht (hno t)

theorem Encodes.zero (h : Encodes P held 0 b) : b = 0 ∧ ∀ t, held t = .nothing := by
  rcases h with ⟨w, -, -, hn⟩ | ⟨hno, R, hR, hn, hb⟩
  · omega
  · have hcard : R.card = 0 := by omega
    have hempty : R = ∅ := Finset.card_eq_zero.1 hcard
    refine ⟨hb hempty, ?_⟩
    intro t
    cases ht : held t with
    | nothing => rfl
    | read =>
      have hmem := (hR t).2 ht
      rw [hempty] at hmem
      exact absurd hmem (Finset.notMem_empty t)
    | write => exact absurd ht (hno t)

variable [DecidableEq τ]

theorem Encodes.gain_write (h : Encodes P held 0 b) (t : τ) :
    Encodes P (update held t .write) (P.bits t + 4) 0 := by
  obtain ⟨-, hnone⟩ := h.zero
  refine .inl ⟨t, update_self _ _ _, ?_, rfl⟩
  intro u hu
  by_contra hne
  rw [update_of_ne hne] at hu
  exact hu (hnone u)

theorem Encodes.gain_read (h : Encodes P held n b) (hb : WaitBits b) (hn : n / 4 % 2 = 0) {t : τ}
    (ht : held t ≠ .read) :
    Encodes P (update held t .read) (n + 8) b ∧ n + 8 < 2 ^ 64 := by
  have hno : ¬ ∃ w, held w = .write := by
    rw [← h.wrlock hb]
    omega
  rcases h with ⟨w, hw, -⟩ | ⟨hnw, R, hR, rfl, -⟩
  · exact absurd ⟨w, hw⟩ hno
  · have htR : t ∉ R := by
      rw [hR]
      exact ht
    have hcard := Finset.card_insert_of_notMem htR
    have hbound := P.card_lt (insert t R)
    refine ⟨.inr ⟨?_, insert t R, ?_, by omega, ?_⟩, ?_⟩
    · intro u
      by_cases hut : u = t
      · subst hut
        simp
      · rw [update_of_ne hut]
        exact hnw u
    · intro u
      by_cases hut : u = t
      · subst hut
        simp
      · rw [update_of_ne hut, Finset.mem_insert, hR u]
        simp [hut]
    · intro e
      exact absurd e (Finset.insert_ne_empty t R)
    · rcases hb with rfl | rfl | rfl <;> omega

theorem Encodes.downgrade (h : Encodes P held n b) {t : τ} (ht : held t = .write) :
    Encodes P (update held t .read) (8 + b) b := by
  obtain ⟨-, honly⟩ := h.write_eq ht
  have hother : ∀ u, u ≠ t → held u = .nothing := by
    intro u hu
    by_contra hne
    exact hu (honly u hne)
  refine .inr ⟨?_, {t}, ?_, by simp, ?_⟩
  · intro u
    by_cases hut : u = t
    · subst hut
      simp
    · simp [update_of_ne hut, hother u hut]
  · intro u
    by_cases hut : u = t
    · subst hut
      simp
    · simp [hother u hut, hut]
  · intro e
    exact absurd e (Finset.singleton_ne_empty t)

theorem Encodes.release_write (h : Encodes P held n b) {t : τ} (ht : held t = .write) :
    Encodes P (update held t .nothing) 0 0 := by
  obtain ⟨-, honly⟩ := h.write_eq ht
  have hall : ∀ u, update held t .nothing u = .nothing := by
    intro u
    by_cases hut : u = t
    · subst hut
      simp
    · rw [update_of_ne hut]
      by_contra hne
      exact hut (honly u hne)
  refine .inr ⟨?_, ∅, ?_, by simp, fun _ => rfl⟩
  · intro u
    simp [hall u]
  · intro u
    simp [hall u]

theorem Encodes.release_read (h : Encodes P held n b) {t : τ} (ht : held t = .read) :
    ∃ m, n = 8 * (m + 1) + b ∧ Encodes P (update held t .nothing) (8 * m) 0 := by
  rcases h with ⟨w, hw, honly, -⟩ | ⟨hnw, R, hR, rfl, -⟩
  · obtain rfl := honly t (by simp [ht])
    rw [ht] at hw
    cases hw
  · have htR : t ∈ R := (hR t).2 ht
    have hcard := Finset.card_erase_add_one htR
    refine ⟨(R.erase t).card, by omega, .inr ⟨?_, R.erase t, ?_, rfl, fun _ => rfl⟩⟩
    · intro u
      by_cases hut : u = t
      · subst hut
        simp
      · rw [update_of_ne hut]
        exact hnw u
    · intro u
      by_cases hut : u = t
      · subst hut
        simp
      · rw [update_of_ne hut, Finset.mem_erase, hR u]
        simp [hut]

end Encodes

end OpenBsd.Kern
