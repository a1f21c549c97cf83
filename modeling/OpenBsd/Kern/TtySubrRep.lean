/-
  OpenBsd.Kern.TtySubrRep

  What a character list holds: the cells of its ring from `c_cf` on, each with its quote bit.

  The operations move one of the two ends of the ring by some cells, which do not go around
  the end of the buffer.  There is one lemma for each end and direction; the cells that are
  free may hold anything, and so may their quote bits.
-/

import OpenBsd.Kern.TtySubr
import OpenBsd.Lib.BoundedQueue

namespace OpenBsd.Kern

open OpenBsd.Lib

/-! ## The quote bits -/

theorem lowBits_eq_zero {k : Nat} (hk : k < 8) : lowBits 8 k = 0 ↔ k = 0 := by
  constructor
  · intro h
    by_contra hne
    have hbit := getLsbD_lowBits hk 0
    rw [h, decide_eq_true (Nat.pos_of_ne_zero hne)] at hbit
    simp at hbit
  · rintro rfl
    rfl

theorem test_zeroBytes (cp : Bitmap 8) (sby eby : Nat) (x : BitVec 8) (n : Nat) :
    Bitmap.test (fun j => if sby + 1 ≤ j ∧ j < eby then 0 else Function.update cp sby x j) n =
      if sby + 1 ≤ n / 8 ∧ n / 8 < eby then false
      else if n / 8 = sby then x.getLsbD (n % 8) else cp.test n := by
  rw [Bitmap.test]
  split
  · simp
  · exact Bitmap.test_update _ _ _

/-- `clrbits` clears the bits of a range. -/
theorem test_clrbits (cp : Bitmap 8) (off len i : Nat) :
    (clrbits cp off len).test i = (!decide (off ≤ i ∧ i < off + len) && cp.test i) := by
  unfold clrbits
  by_cases hone : len = 1
  · rw [if_pos hone, Bitmap.test_clear (by decide)]
    congr 2
    rw [decide_eq_decide]
    omega
  · rw [if_neg hone]
    dsimp only
    have hi := Nat.div_add_mod i 8
    have hoff := Nat.div_add_mod off 8
    have hend := Nat.div_add_mod (off + len) 8
    have hilt := Nat.mod_lt i (show 0 < 8 by decide)
    have hofflt := Nat.mod_lt off (show 0 < 8 by decide)
    have hendlt := Nat.mod_lt (off + len) (show 0 < 8 by decide)
    by_cases hsame : off / 8 = (off + len) / 8
    · -- all in one byte
      rw [if_pos hsame, Bitmap.test_update]
      by_cases hby : i / 8 = off / 8
      · rw [if_pos hby, BitVec.getLsbD_and, BitVec.getLsbD_not, BitVec.getLsbD_shiftLeft,
          getLsbD_lowBits (by omega), ← hby, Bool.and_comm]
        congr 1
        simp only [hilt, decide_true, Bool.true_and, Bool.not_and, Bool.not_not]
        grind
      · have hout : ¬ (off ≤ i ∧ i < off + len) := by omega
        rw [if_neg hby, decide_eq_false hout]
        rfl
    · -- the last bits of the first byte, whole bytes, and the first bits of the last byte
      rw [if_neg hsame]
      have hfirst : (cp (off / 8) &&& lowBits 8 (off % 8)).getLsbD (i % 8) =
          ((cp (off / 8)).getLsbD (i % 8) && decide (i % 8 < off % 8)) := by
        rw [BitVec.getLsbD_and, getLsbD_lowBits hofflt]
      have hmiddle := test_zeroBytes cp (off / 8) ((off + len) / 8)
        (cp (off / 8) &&& lowBits 8 (off % 8)) i
      rw [hfirst] at hmiddle
      by_cases hmask : lowBits 8 ((off + len) % 8) = 0
      · have hzero := (lowBits_eq_zero hendlt).1 hmask
        rw [if_neg (not_not.2 hmask), hmiddle]
        unfold Bitmap.test
        grind
      · rw [if_pos hmask, Bitmap.test_update]
        split
        · rename_i hby
          rw [BitVec.getLsbD_and, BitVec.getLsbD_not, getLsbD_lowBits hendlt, ← hby]
          rw [if_neg (by omega), if_neg (by omega), Bitmap.test, ← hby] at hmiddle
          rw [hmiddle]
          grind
        · rw [hmiddle]
          unfold Bitmap.test
          grind

/-! ## The cells of the ring -/

namespace Clist

variable {clp clp' : Clist} {f : Nat}

/-- The buffer. -/
def bytes (clp : Clist) : Nat → BitVec 8 := clp.cCs.getD fun _ => 0

/-- A cell with its quote bit. -/
def cell (clp : Clist) (i : Nat) : BitVec 8 × Bool := (clp.bytes i, quoteAt clp.cCq i)

/-- The characters in the list, the first one first. -/
def chars (clp : Clist) : List (BitVec 8 × Bool) :=
  window clp.cell clp.cCn (clp.cCf.getD 0) clp.cCc

@[simp] theorem length_chars (clp : Clist) : clp.chars.length = clp.cCc := length_window

/-- The pointers are into the buffer, with as many cells from one to the other as there are
    characters. -/
structure Ring (clp : Clist) (f : Nat) : Prop where
  cs : clp.cCs = some clp.bytes
  cf : clp.cCf = some f
  cl : clp.cCl = some ((f + clp.cCc) % clp.cCn)
  lt : f < clp.cCn
  le : clp.cCc ≤ clp.cCn

theorem Ring.chars_eq (h : Ring clp f) : clp.chars = window clp.cell clp.cCn f clp.cCc := by
  rw [chars, h.cf]
  rfl

theorem wrap_eq_mod {i : Nat} (h : i ≤ clp.cCn) : clp.wrap i = i % clp.cCn := by
  rw [wrap]
  split
  · rename_i he
    rw [he, Nat.mod_self]
  · exact (Nat.mod_eq_of_lt (by omega)).symm

theorem Ring.drop (h : Ring clp f) {m : Nat} (hm : m ≤ clp.cCc) (hend : f + m ≤ clp.cCn)
    (hcells : ∀ i, ¬ (f ≤ i ∧ i < f + m) → clp'.cell i = clp.cell i)
    (hcs : clp'.cCs = some clp'.bytes) (hcn : clp'.cCn = clp.cCn)
    (hcf : clp'.cCf = some (clp.wrap (f + m))) (hcl : clp'.cCl = clp.cCl)
    (hcc : clp'.cCc = clp.cCc - m) :
    Ring clp' (clp.wrap (f + m)) ∧ clp'.chars = clp.chars.drop m := by
  have hle := h.le
  have hpos : 0 < clp.cCn := Nat.lt_of_le_of_lt (Nat.zero_le f) h.lt
  have hwrap := wrap_eq_mod hend
  have hring : Ring clp' (clp.wrap (f + m)) := by
    refine ⟨hcs, hcf, ?_, ?_, by omega⟩
    · rw [hcl, h.cl, hcc, hcn, hwrap, Nat.mod_add_mod, show f + m + (clp.cCc - m) = f + clp.cCc by omega]
    · rw [hwrap, hcn]
      exact Nat.mod_lt _ hpos
  refine ⟨hring, ?_⟩
  have hsplit : clp.cCc = m + (clp.cCc - m) := by omega
  rw [hring.chars_eq, h.chars_eq, hcn, hcc, hwrap]
  conv => rhs; rw [hsplit, window_add]
  rw [List.drop_left' length_window]
  refine window_congr fun i hi => hcells _ ?_
  -- no cell that is left was one of the first `m`
  rintro ⟨hlo, hhi⟩
  obtain ⟨j, hj⟩ := Nat.exists_eq_add_of_le hlo
  have hne := @cell_ne clp.cCn f j (m + i) (by omega) (by omega)
  rw [Nat.mod_eq_of_lt (show f + j < clp.cCn by omega), ← Nat.add_assoc] at hne
  rw [Nat.mod_add_mod] at hj
  exact hne hj.symm

theorem Ring.append (h : Ring clp f) {ys : List (BitVec 8 × Bool)}
    (hroom : clp.cCc + ys.length ≤ clp.cCn)
    (hend : (f + clp.cCc) % clp.cCn + ys.length ≤ clp.cCn)
    (hcells : ∀ i, ¬ ((f + clp.cCc) % clp.cCn ≤ i ∧ i < (f + clp.cCc) % clp.cCn + ys.length) →
      clp'.cell i = clp.cell i)
    (hnew : ∀ j < ys.length, ys[j]? = some (clp'.cell ((f + clp.cCc) % clp.cCn + j)))
    (hcs : clp'.cCs = some clp'.bytes) (hcn : clp'.cCn = clp.cCn) (hcf : clp'.cCf = clp.cCf)
    (hcl : clp'.cCl = some (clp.wrap ((f + clp.cCc) % clp.cCn + ys.length)))
    (hcc : clp'.cCc = clp.cCc + ys.length) :
    Ring clp' f ∧ clp'.chars = clp.chars ++ ys := by
  have hring : Ring clp' f := by
    refine ⟨hcs, hcf.trans h.cf, ?_, hcn ▸ h.lt, by omega⟩
    rw [hcl, hcc, hcn, wrap_eq_mod hend, Nat.mod_add_mod, Nat.add_assoc]
  refine ⟨hring, ?_⟩
  rw [hring.chars_eq, h.chars_eq, hcn, hcc, window_add]
  congr 1
  · refine window_congr fun i hi => hcells _ ?_
    rintro ⟨hlo, hhi⟩
    obtain ⟨j, hj⟩ := Nat.exists_eq_add_of_le hlo
    have hne := @cell_ne clp.cCn f i (clp.cCc + j) (by omega) (by omega)
    rw [← Nat.add_assoc, ← Nat.mod_add_mod (f + clp.cCc) clp.cCn j,
      Nat.mod_eq_of_lt (show (f + clp.cCc) % clp.cCn + j < clp.cCn by omega)] at hne
    exact hne hj
  · rw [window_straight hend]
    refine List.ext_getElem? fun j => ?_
    by_cases hj : j < ys.length
    · rw [hnew j hj, List.getElem?_map, List.getElem?_range hj]
      rfl
    · rw [List.getElem?_eq_none (by simpa using hj), List.getElem?_eq_none (Nat.not_lt.1 hj)]

theorem Ring.dropLast (h : Ring clp f) (hpos : 0 < clp.cCc)
    (hcells : ∀ i, i ≠ (f + (clp.cCc - 1)) % clp.cCn → clp'.cell i = clp.cell i)
    (hcs : clp'.cCs = some clp'.bytes) (hcn : clp'.cCn = clp.cCn) (hcf : clp'.cCf = clp.cCf)
    (hcl : clp'.cCl = some ((f + (clp.cCc - 1)) % clp.cCn)) (hcc : clp'.cCc = clp.cCc - 1) :
    Ring clp' f ∧ clp.chars = clp'.chars ++ [clp.cell ((f + (clp.cCc - 1)) % clp.cCn)] := by
  have hle := h.le
  have hring : Ring clp' f := by
    refine ⟨hcs, hcf.trans h.cf, ?_, hcn ▸ h.lt, by omega⟩
    rw [hcl, hcc, hcn]
  refine ⟨hring, ?_⟩
  have hsplit : clp.cCc = clp.cCc - 1 + 1 := by omega
  rw [hring.chars_eq, h.chars_eq, hcn, hcc]
  conv => lhs; rw [hsplit, window_add]
  congr 1
  · refine window_congr fun i hi => (hcells _ ?_).symm
    exact cell_ne hi (by omega)
  · rw [window_straight (Nat.mod_lt _ (Nat.lt_of_lt_of_le hpos hle))]
    rfl

/-! ## Chunks -/

theorem Ring.frontChunk (h : Ring clp f) (hpos : 0 < clp.cCc) :
    (if (f + clp.cCc) % clp.cCn ≤ f then clp.cCn - f else (f + clp.cCc) % clp.cCn - f) =
      min clp.cCc (clp.cCn - f) := by
  have hlt := h.lt
  have hle := h.le
  by_cases hwrap : f + clp.cCc < clp.cCn
  · rw [Nat.mod_eq_of_lt hwrap, if_neg (by omega)]
    omega
  · rw [Nat.mod_eq_sub_mod (Nat.not_lt.1 hwrap), Nat.mod_eq_of_lt (by omega), if_pos (by omega)]
    omega

theorem Ring.backChunk (h : Ring clp f) (hroom : clp.cCc < clp.cCn) :
    (if (f + clp.cCc) % clp.cCn < f then f - (f + clp.cCc) % clp.cCn
      else clp.cCn - (f + clp.cCc) % clp.cCn) =
      min (clp.cCn - clp.cCc) (clp.cCn - (f + clp.cCc) % clp.cCn) := by
  have hlt := h.lt
  by_cases hwrap : f + clp.cCc < clp.cCn
  · rw [Nat.mod_eq_of_lt hwrap, if_neg (by omega)]
    omega
  · rw [Nat.mod_eq_sub_mod (Nat.not_lt.1 hwrap), Nat.mod_eq_of_lt (by omega), if_pos (by omega)]
    omega

theorem Ring.backCell (h : Ring clp f) (hpos : 0 < clp.cCc) :
    (if (f + clp.cCc) % clp.cCn = 0 then clp.cCn - 1 else (f + clp.cCc) % clp.cCn - 1) =
      (f + (clp.cCc - 1)) % clp.cCn := by
  have hlt := h.lt
  have hle := h.le
  by_cases hwrap : f + clp.cCc < clp.cCn
  · rw [Nat.mod_eq_of_lt hwrap, if_neg (by omega), Nat.mod_eq_of_lt (by omega)]
    omega
  · rw [Nat.mod_eq_sub_mod (Nat.not_lt.1 hwrap), Nat.mod_eq_of_lt (a := f + clp.cCc - clp.cCn) (by omega)]
    split
    · rw [Nat.mod_eq_of_lt (by omega)]
      omega
    · rw [Nat.mod_eq_sub_mod (by omega), Nat.mod_eq_of_lt (by omega)]
      omega

end Clist

end OpenBsd.Kern
