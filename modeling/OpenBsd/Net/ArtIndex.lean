/-
  OpenBsd.Net.ArtIndex

  Indices in the tables of `sys/net/art.c`.  The layouts of `art_attach` cut an address
  into strides of one or two bytes, and `art_bindex` is the place of the bits that a prefix
  has in its stride.
-/

import OpenBsd.Lib.LongestCover
import OpenBsd.Net.Art
import Mathlib.Algebra.BigOperators.Group.List.Basic
import Mathlib.Algebra.GroupWithZero.Nat

namespace OpenBsd.Net

open OpenBsd.Lib List

/-! ## Strides -/

/-- Where the stride of a level starts. -/
def strideSum (bits : List Nat) (l : Nat) : Nat := (bits.take l).sum

/-- Where the stride starts in which a length ends. -/
@[simp] def strideStart : List Nat → Nat → Nat
  | [], _ => 0
  | w :: ws, n => if n ≤ w then 0 else w + strideStart ws (n - w)

/-- Strides of one or two bytes that make up an address. -/
structure ByteStrides (bits : List Nat) (alen : Nat) : Prop where
  each : ∀ w ∈ bits, w = 8 ∨ w = 16
  sum : bits.sum = alen
  few : bits.length ≤ artMaxlvl

theorem byteStrides_of_layout {off alen : Nat} {bits : List Nat}
    (h : artLayout off = some (bits, alen)) : ByteStrides bits alen := by
  unfold artLayout at h
  split at h
  · cases h
    exact ⟨by decide, rfl, by decide⟩
  · cases h
    exact ⟨by decide, rfl, by decide⟩
  · cases h

section

variable {bits : List Nat} {alen l l' w n : Nat}

@[simp] theorem strideSum_zero : strideSum bits 0 = 0 := rfl

theorem strideSum_succ (h : bits[l]? = some w) : strideSum bits (l + 1) = strideSum bits l + w := by
  rw [strideSum, take_add_one, h, sum_append]
  rfl

theorem strideSum_cons (v : Nat) (l : Nat) :
    strideSum (v :: bits) (l + 1) = v + strideSum bits l := by
  rw [strideSum, take_succ_cons, sum_cons, strideSum]

theorem strideStart_eq (h : bits[l]? = some w) (hlo : strideSum bits l < n)
    (hhi : n ≤ strideSum bits l + w) : strideStart bits n = strideSum bits l := by
  induction bits generalizing l n with
  | nil => cases h
  | cons v bits ih =>
    cases l with
    | zero =>
      obtain rfl : v = w := Option.some.inj h
      rw [strideStart, if_pos (by rwa [strideSum_zero, Nat.zero_add] at hhi)]
      rfl
    | succ l =>
      rw [strideSum_cons] at hlo hhi ⊢
      rw [strideStart, if_neg (by omega), ih h (by omega) (by omega)]

theorem strideSum_le_strideStart (h : strideSum bits l < n) :
    strideSum bits l ≤ strideStart bits n := by
  induction bits generalizing l n with
  | nil =>
    have hzero : strideSum [] l = 0 := by
      rw [strideSum, take_nil]
      rfl
    rw [hzero]
    exact Nat.zero_le _
  | cons v bits ih =>
    cases l with
    | zero => exact Nat.zero_le _
    | succ l =>
      rw [strideSum_cons] at h ⊢
      rw [strideStart, if_neg (by omega)]
      have hrest := @ih l (n - v) (by omega)
      omega

theorem strideStart_lt (bits : List Nat) (hpos : 0 < n) : strideStart bits n < n := by
  induction bits generalizing n with
  | nil => exact hpos
  | cons v bits ih =>
    rw [strideStart]
    split
    · exact hpos
    · next hlt =>
      have hrest := ih (show 0 < n - v by omega)
      omega

theorem exists_level (hpos : 0 < n) (hle : n ≤ bits.sum) :
    ∃ l w, bits[l]? = some w ∧ strideSum bits l < n ∧ n ≤ strideSum bits l + w := by
  induction bits generalizing n with
  | nil => exact absurd hle (Nat.not_le_of_lt hpos)
  | cons v bits ih =>
    by_cases hv : n ≤ v
    · exact ⟨0, v, rfl, hpos, hv.trans_eq (Nat.zero_add v).symm⟩
    · rw [sum_cons] at hle
      obtain ⟨l, w, hw, hlo, hhi⟩ := ih (n := n - v) (by omega) (by omega)
      refine ⟨l + 1, w, hw, ?_, ?_⟩ <;> rw [strideSum_cons] <;> omega

theorem strideSum_mono (bits : List Nat) (h : l ≤ l') : strideSum bits l ≤ strideSum bits l' := by
  obtain ⟨k, rfl⟩ := Nat.exists_eq_add_of_le h
  rw [strideSum, strideSum, take_add, sum_append]
  exact Nat.le_add_right _ _

theorem exists_stride (h : strideSum bits l < bits.sum) : ∃ w, bits[l]? = some w := by
  have hlt : l < bits.length := by
    by_contra hge
    rw [strideSum, take_of_length_le (Nat.le_of_not_lt hge)] at h
    exact Nat.lt_irrefl _ h
  exact ⟨_, getElem?_eq_getElem hlt⟩

theorem strideSum_add_le_sum (h : bits[l]? = some w) : strideSum bits l + w ≤ bits.sum := by
  rw [← strideSum_succ h, strideSum]
  conv_rhs => rw [← take_append_drop (l + 1) bits, sum_append]
  exact Nat.le_add_right _ _

theorem ByteStrides.stride (hb : ByteStrides bits alen) (h : bits[l]? = some w) :
    w = 8 ∨ w = 16 := hb.each w (mem_of_getElem? h)

theorem ByteStrides.strideSum_mod (hb : ByteStrides bits alen) (l : Nat) :
    strideSum bits l % 8 = 0 := by
  have hall : ∀ ws : List Nat, (∀ w ∈ ws, w = 8 ∨ w = 16) → ws.sum % 8 = 0 := by
    intro ws hws
    induction ws with
    | nil => rfl
    | cons v ws ih =>
      have hv := hws v mem_cons_self
      have hrest := ih fun w hw => hws w (mem_cons_of_mem v hw)
      rw [sum_cons]
      omega
  exact hall _ fun w hw => hb.each w (mem_of_mem_take hw)

end

/-! ## Bits of an address -/

section

variable {addr : Nat → BitVec 8} {bits : List Nat} {n o w : Nat}

/-- `n` bits of an address from `o` on, the last one first. -/
def addrSlice (addr : Nat → BitVec 8) (o : Nat) : Nat → List Bool
  | 0 => []
  | n + 1 => addrBit addr (o + n) :: addrSlice addr o n

@[simp] theorem length_addrSlice (addr : Nat → BitVec 8) (o n : Nat) :
    (addrSlice addr o n).length = n := by
  induction n with
  | zero => rfl
  | succ n ih => rw [addrSlice, length_cons, ih]

@[simp] theorem length_addrPrefix (addr : Nat → BitVec 8) (n : Nat) :
    (addrPrefix addr n).length = n := by
  induction n with
  | zero => rfl
  | succ n ih => rw [addrPrefix, length_cons, ih]

theorem addrPrefix_add (addr : Nat → BitVec 8) (o n : Nat) :
    addrPrefix addr (o + n) = addrSlice addr o n ++ addrPrefix addr o := by
  induction n with
  | zero => rfl
  | succ n ih => rw [← Nat.add_assoc, addrPrefix, ih, addrSlice, cons_append]

theorem addrPrefix_suffix {m : Nat} (h : n ≤ m) : addrPrefix addr n <:+ addrPrefix addr m := by
  obtain ⟨k, rfl⟩ := Nat.exists_eq_add_of_le h
  rw [addrPrefix_add]
  exact suffix_append ..

theorem eq_addrPrefix_of_suffix {q : List Bool} (h : q <:+ addrPrefix addr n) :
    q = addrPrefix addr q.length := by
  have hle := h.length_le
  rw [length_addrPrefix] at hle
  have hself : addrPrefix addr q.length <:+ addrPrefix addr n := addrPrefix_suffix hle
  have hlen := length_addrPrefix addr q.length
  exact (suffix_of_suffix_length_le h hself (Nat.le_of_eq hlen.symm)).eq_of_length hlen.symm

theorem artKey_byte (addr : Nat → BitVec 8) : artKey addr 0 8 8 = (addr 0).toNat := by
  have hmask : (addr 0).toNat &&& (1 <<< 8 - 1) = (addr 0).toNat := by
    rw [show (1 <<< 8 - 1 : Nat) = 2 ^ 8 - 1 from rfl, Nat.and_two_pow_sub_one_eq_mod]
    exact Nat.mod_eq_of_lt (addr 0).isLt
  simp only [artKey, Nat.lt_irrefl, if_false, Nat.reduceLT, Nat.sub_self, Nat.shiftRight_zero,
    hmask]

theorem artKey_word (addr : Nat → BitVec 8) :
    artKey addr 0 16 16 = (addr 0).toNat <<< 8 ||| (addr 1).toNat := by
  have hmask : (addr 0).toNat &&& (1 <<< 8 - 1) = (addr 0).toNat := by
    rw [show (1 <<< 8 - 1 : Nat) = 2 ^ 8 - 1 from rfl, Nat.and_two_pow_sub_one_eq_mod]
    exact Nat.mod_eq_of_lt (addr 0).isLt
  simp only [artKey, Nat.lt_irrefl, if_false, if_true, Nat.reduceLT, Nat.sub_self, Nat.sub_zero,
    Nat.shiftRight_zero, Nat.reduceSub, hmask]

theorem testBit_artKey (hw : w = 8 ∨ w = 16) (hn : n < w) (addr : Nat → BitVec 8) :
    (artKey addr 0 w w).testBit (w - 1 - n) = addrBit addr n := by
  rcases hw with rfl | rfl
  · have hdiv : n / 8 = 0 := Nat.div_eq_of_lt hn
    rw [artKey_byte, addrBit, hdiv, Nat.mod_eq_of_lt hn]
    rfl
  · rw [artKey_word, Nat.testBit_or, Nat.testBit_shiftLeft, addrBit]
    by_cases hfirst : n < 8
    · have hdiv : n / 8 = 0 := Nat.div_eq_of_lt hfirst
      have hhigh : (addr 1).toNat.testBit (16 - 1 - n) = false :=
        Nat.testBit_lt_two_pow (Nat.lt_of_lt_of_le (addr 1).isLt
          (Nat.pow_le_pow_right Nat.two_pos (by omega)))
      rw [hdiv, Nat.mod_eq_of_lt hfirst, hhigh, Bool.or_false,
        show 16 - 1 - n - 8 = 7 - n by omega, decide_eq_true (by omega), Bool.true_and]
      rfl
    · have hdiv : n / 8 = 1 := by omega
      have hbit : 16 - 1 - n = 7 - n % 8 := by omega
      rw [hdiv, hbit, decide_eq_false (by omega), Bool.false_and, Bool.false_or]
      rfl

theorem artKey_lt (hw : w = 8 ∨ w = 16) (addr : Nat → BitVec 8) : artKey addr 0 w w < 2 ^ w := by
  rcases hw with rfl | rfl
  · rw [artKey_byte]
    exact (addr 0).isLt
  · rw [artKey_word]
    refine Nat.or_lt_two_pow ?_ (Nat.lt_of_lt_of_le (addr 1).isLt (by decide))
    have hlt := (addr 0).isLt
    rw [Nat.shiftLeft_eq]
    omega

theorem heapIdx_addrSlice (hw : w = 8 ∨ w = 16) (hn : n ≤ w) (ho : o % 8 = 0) :
    artKey (fun i => addr (o / 8 + i)) 0 w w >>> (w - n) + 1 <<< n
      = heapIdx (addrSlice addr o n) := by
  induction n with
  | zero =>
    rw [Nat.sub_zero, Nat.shiftRight_eq_div_pow, Nat.div_eq_of_lt (artKey_lt hw _)]
    rfl
  | succ n ih =>
    generalize hk : artKey (fun i => addr (o / 8 + i)) 0 w w = k at ih
    have hbit : k.testBit (w - 1 - n) = addrBit addr (o + n) := by
      rw [← hk, testBit_artKey hw (by omega), addrBit, addrBit,
        show (o + n) / 8 = o / 8 + n / 8 by omega, show (o + n) % 8 = n % 8 by omega]
    have hhalf : k >>> (w - n) = k >>> (w - 1 - n) / 2 := by
      rw [show w - n = w - 1 - n + 1 by omega, Nat.shiftRight_succ]
    have hlast : k >>> (w - 1 - n) % 2 = (addrBit addr (o + n)).toNat := by
      rw [← hbit, Nat.testBit_eq_decide_div_mod_eq, Nat.shiftRight_eq_div_pow]
      rcases Nat.mod_two_eq_zero_or_one (k / 2 ^ (w - 1 - n)) with h | h <;> rw [h] <;> rfl
    rw [addrSlice, heapIdx, ← ih (by omega), show w - (n + 1) = w - 1 - n by omega,
      Nat.shiftLeft_succ, hhalf]
    omega

variable {ν τ : Type} {tbl : ArtTable ν τ}

theorem artBindex_eq (addr : Nat → BitVec 8) (hw : tbl.bits = 8 ∨ tbl.bits = 16)
    (ho : tbl.offset % 8 = 0) (hn : n ≤ tbl.bits) :
    artBindex tbl addr (tbl.offset + n) = some (some (heapIdx (addrSlice addr tbl.offset n))) := by
  have hbend : ¬ 32 < tbl.bits := by omega
  rw [artBindex, if_neg (by omega)]
  simp only [ho, if_neg hbend, Nat.add_zero, Nat.add_sub_cancel_left]
  rw [heapIdx_addrSlice hw hn ho]

theorem artFindex_eq (hw : tbl.bits = 8 ∨ tbl.bits = 16) (ho : tbl.offset % 8 = 0) :
    artFindex tbl addr = some (heapIdx (addrSlice addr tbl.offset tbl.bits)) := by
  rw [artFindex, artBindex_eq addr hw ho (Nat.le_refl _)]
  rfl

end

end OpenBsd.Net
