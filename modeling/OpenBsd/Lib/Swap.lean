/-
  OpenBsd.Lib.Swap

  Reversing the bytes of 16- and 32-bit words, and checksums that are the
  exclusive or of 16-bit words.
-/

import Mathlib.Data.Nat.Bitwise
import Mathlib.Tactic.IntervalCases
import OpenBsd.Lib.Codec

namespace OpenBsd.Lib

/-! ## Byte order -/

def swap16 (x : UInt16) : UInt16 := (x &&& 0xff) <<< 8 ||| (x &&& 0xff00) >>> 8

def swap32 (x : UInt32) : UInt32 :=
  (x &&& 0xff) <<< 24 ||| (x &&& 0xff00) <<< 8 ||| (x &&& 0xff0000) >>> 8 |||
    (x &&& 0xff000000) >>> 24

theorem getLsbD_swap16 (x : UInt16) {i : Nat} (hi : i < 16) :
    (swap16 x).toBitVec.getLsbD i = x.toBitVec.getLsbD ((i + 8) % 16) := by
  unfold swap16
  interval_cases i <;> simp

theorem getLsbD_swap32 (x : UInt32) {i : Nat} (hi : i < 32) :
    (swap32 x).toBitVec.getLsbD i = x.toBitVec.getLsbD (i % 8 + 8 * (3 - i / 8)) := by
  unfold swap32
  interval_cases i <;> simp

@[simp] theorem swap16_swap16 (x : UInt16) : swap16 (swap16 x) = x := by
  apply UInt16.eq_of_toBitVec_eq
  apply BitVec.eq_of_getLsbD_eq
  intro i hi
  have hback : ((i + 8) % 16 + 8) % 16 = i := by omega
  rw [getLsbD_swap16 _ hi, getLsbD_swap16 _ (Nat.mod_lt _ (by decide)), hback]

@[simp] theorem swap32_swap32 (x : UInt32) : swap32 (swap32 x) = x := by
  apply UInt32.eq_of_toBitVec_eq
  apply BitVec.eq_of_getLsbD_eq
  intro i hi
  have hback : (i % 8 + 8 * (3 - i / 8)) % 8 + 8 * (3 - (i % 8 + 8 * (3 - i / 8)) / 8) = i := by
    omega
  rw [getLsbD_swap32 _ hi, getLsbD_swap32 _ (by omega), hback]

theorem swap16_xor (x y : UInt16) : swap16 (x ^^^ y) = swap16 x ^^^ swap16 y := by
  apply UInt16.eq_of_toBitVec_eq
  apply BitVec.eq_of_getLsbD_eq
  intro i hi
  rw [UInt16.toBitVec_xor, BitVec.getLsbD_xor, getLsbD_swap16 _ hi, getLsbD_swap16 _ hi,
    getLsbD_swap16 _ hi, UInt16.toBitVec_xor, BitVec.getLsbD_xor]

/-! ## Sums of words -/

/-- `while (start < end) sum ^= *start++`, from `sum = 0`. -/
def xorSum (ws : List UInt16) : UInt16 := ws.foldl (· ^^^ ·) 0

theorem foldl_xor (ws : List UInt16) (s : UInt16) : ws.foldl (· ^^^ ·) s = s ^^^ xorSum ws := by
  unfold xorSum
  induction ws generalizing s with
  | nil => exact UInt16.xor_zero.symm
  | cons w ws ih =>
    rw [List.foldl_cons, List.foldl_cons, ih, ih (0 ^^^ w), UInt16.zero_xor, UInt16.xor_assoc]

@[simp] theorem xorSum_cons (w : UInt16) (ws : List UInt16) :
    xorSum (w :: ws) = w ^^^ xorSum ws := by
  show (w :: ws).foldl (· ^^^ ·) 0 = w ^^^ xorSum ws
  rw [List.foldl_cons, foldl_xor, UInt16.zero_xor]

theorem xorSum_append (vs ws : List UInt16) : xorSum (vs ++ ws) = xorSum vs ^^^ xorSum ws := by
  show (vs ++ ws).foldl (· ^^^ ·) 0 = xorSum vs ^^^ xorSum ws
  rw [List.foldl_append, foldl_xor]
  rfl

/-- Reading every word the other way round reads the sum the other way round. -/
theorem xorSum_map_swap16 (ws : List UInt16) : xorSum (ws.map swap16) = swap16 (xorSum ws) := by
  induction ws with
  | nil => rfl
  | cons w ws ih => rw [List.map_cons, xorSum_cons, ih, xorSum_cons, swap16_xor]

/-! ## Words of a byte string -/

/-- The 16-bit words of a little-endian memory; an odd byte at the end is left
    out. -/
def halfwords : List UInt8 → List UInt16
  | a :: b :: bs => u16.dec [a, b] :: halfwords bs
  | _ => []

@[simp] theorem length_halfwords (bs : List UInt8) : (halfwords bs).length = bs.length / 2 := by
  induction bs using halfwords.induct with
  | case1 a b bs ih =>
    rw [halfwords, List.length_cons, ih, List.length_cons, List.length_cons]
    omega
  | case2 bs h =>
    match bs, h with
    | [], _ => rfl
    | [_], _ => simp [halfwords]
    | a :: b :: bs, h => exact absurd rfl (h a b bs)

theorem halfwords_append {as : List UInt8} (bs : List UInt8) (h : as.length % 2 = 0) :
    halfwords (as ++ bs) = halfwords as ++ halfwords bs := by
  induction as using halfwords.induct with
  | case1 a b as ih =>
    rw [List.length_cons, List.length_cons] at h
    rw [List.cons_append, List.cons_append, halfwords, ih (by omega), halfwords, List.cons_append]
  | case2 as hshort =>
    match as, hshort, h with
    | [], _, _ => rfl
    | [_], _, h => simp at h
    | a :: b :: as, hshort, _ => exact absurd rfl (hshort a b as)

theorem halfwords_u16 (v : UInt16) : halfwords (u16.enc v) = [v] := by
  show [u16.dec (u16.enc v)] = [v]
  rw [u16.dec_enc_self]

end OpenBsd.Lib
