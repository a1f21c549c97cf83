/-
  OpenBsd.Lib.Codec

  Fixed-size byte layouts.  A `Codec α` is the memory image of a C type: how many bytes
  it takes, the bytes of a value, and the value read back.  The round trip is a field, and
  so is that reading looks at no byte behind the value.  `leBytes` and `leNat` are the
  little-endian integers the layouts are made of.
-/

import Mathlib.Data.Vector.Defs
import Mathlib.Tactic.Ring

namespace OpenBsd.Lib

open List hiding Vector

/-! ## Little-endian integers -/

/-- The `n` low bytes of `v`, least significant first. -/
def leBytes : Nat → Nat → List UInt8
  | 0, _ => []
  | n + 1, v => UInt8.ofNat v :: leBytes n (v / 256)

/-- The number a little-endian byte string stands for. -/
def leNat : List UInt8 → Nat
  | [] => 0
  | b :: bs => b.toNat + 256 * leNat bs

@[simp] theorem length_leBytes (n v : Nat) : (leBytes n v).length = n := by
  induction n generalizing v with
  | zero => rfl
  | succ n ih => simp [leBytes, ih]

theorem leNat_leBytes (n v : Nat) : leNat (leBytes n v) = v % 256 ^ n := by
  induction n generalizing v with
  | zero => simp [leBytes, leNat, Nat.mod_one]
  | succ n ih =>
    simp only [leBytes, leNat, ih]
    have hb : (UInt8.ofNat v).toNat = v % 256 := by simp
    rw [hb, Nat.pow_succ, Nat.mul_comm (256 ^ n) 256, Nat.mod_mul]

/-! ## Layouts -/

/-- A fixed-size byte layout of `α`, with its own round trip. -/
structure Codec (α : Type) where
  size : Nat
  enc : α → List UInt8
  dec : List UInt8 → α
  length_enc : ∀ a, (enc a).length = size
  dec_enc : ∀ a rest, dec (enc a ++ rest) = a
  dec_take : ∀ bs, dec (bs.take size) = dec bs

namespace Codec

variable {α β : Type}

attribute [simp] length_enc dec_enc

theorem dec_enc_self (c : Codec α) (a : α) : c.dec (c.enc a) = a := by
  have h := c.dec_enc a []
  rwa [append_nil] at h

theorem enc_injective (c : Codec α) {a b : α} (h : c.enc a = c.enc b) : a = b := by
  rw [← c.dec_enc_self a, h, c.dec_enc_self]

/-- Cutting a buffer off behind a value does not change the value. -/
theorem dec_take_le (c : Codec α) (bs : List UInt8) {n : Nat} (h : c.size ≤ n) :
    c.dec (bs.take n) = c.dec bs := by
  rw [← c.dec_take (bs.take n), take_take, Nat.min_eq_left h, c.dec_take]

/-- Two layouts side by side. -/
def prod (c₁ : Codec α) (c₂ : Codec β) : Codec (α × β) where
  size := c₁.size + c₂.size
  enc p := c₁.enc p.1 ++ c₂.enc p.2
  dec bs := (c₁.dec bs, c₂.dec (bs.drop c₁.size))
  length_enc p := by simp
  dec_enc p rest := by
    have hdrop : (c₁.enc p.1 ++ (c₂.enc p.2 ++ rest)).drop c₁.size = c₂.enc p.2 ++ rest :=
      List.drop_left' (c₁.length_enc p.1)
    rw [List.append_assoc, hdrop, c₁.dec_enc, c₂.dec_enc]
  dec_take bs := by
    have hfst : c₁.dec (bs.take (c₁.size + c₂.size)) = c₁.dec bs :=
      c₁.dec_take_le bs (Nat.le_add_right ..)
    have hsnd : (bs.take (c₁.size + c₂.size)).drop c₁.size = (bs.drop c₁.size).take c₂.size := by
      rw [List.drop_take, Nat.add_sub_cancel_left]
    rw [hfst, hsnd, c₂.dec_take]

/-- The same bytes under another type. -/
def iso (c : Codec α) (pack : α → β) (unpack : β → α)
    (h : ∀ b, pack (unpack b) = b) : Codec β where
  size := c.size
  enc b := c.enc (unpack b)
  dec bs := pack (c.dec bs)
  length_enc b := c.length_enc (unpack b)
  dec_enc b rest := by rw [c.dec_enc, h]
  dec_take bs := by rw [c.dec_take]

theorem length_flatMap_enc (c : Codec α) (l : List α) :
    (l.flatMap c.enc).length = l.length * c.size := by
  induction l with
  | nil => simp
  | cons a l ih =>
    simp only [flatMap_cons, length_append, c.length_enc, ih, length_cons]
    ring

/-- Dropping whole items off a packed list leaves the packed tail. -/
theorem drop_flatMap_enc (c : Codec α) (l : List α) (i : Nat) :
    (l.flatMap c.enc).drop (i * c.size) = (l.drop i).flatMap c.enc := by
  induction l generalizing i with
  | nil => simp
  | cons a l ih =>
    cases i with
    | zero => simp
    | succ i =>
      have hi : (i + 1) * c.size = c.size + i * c.size := by ring
      rw [flatMap_cons, hi, ← List.drop_drop, drop_left' (c.length_enc a), ih, drop_succ_cons]

/-- Taking whole items off a packed list gives the packed front. -/
theorem take_flatMap_enc (c : Codec α) (l : List α) (i : Nat) :
    (l.flatMap c.enc).take (i * c.size) = (l.take i).flatMap c.enc := by
  induction l generalizing i with
  | nil => simp
  | cons a l ih =>
    cases i with
    | zero => simp
    | succ i =>
      have hi : (i + 1) * c.size = c.size + i * c.size := by ring
      rw [flatMap_cons, hi, ← c.length_enc a, take_append, take_of_length_le
        (by omega), Nat.add_sub_cancel_left, c.length_enc, ih, take_succ_cons, flatMap_cons]

/-- A packed list determines the list. -/
theorem flatMap_enc_injective (c : Codec α) (hc : 0 < c.size) {l l' : List α}
    (h : l.flatMap c.enc = l'.flatMap c.enc) : l = l' := by
  have hlen : l.length = l'.length := by
    have := congrArg List.length h
    rw [c.length_flatMap_enc, c.length_flatMap_enc] at this
    exact Nat.eq_of_mul_eq_mul_right hc this
  induction l generalizing l' with
  | nil => exact (length_eq_zero_iff.mp hlen.symm).symm
  | cons a l ih =>
    cases l' with
    | nil => simp at hlen
    | cons b l' =>
      rw [flatMap_cons, flatMap_cons] at h
      obtain ⟨hab, hrest⟩ := append_inj h (by simp)
      rw [c.enc_injective hab, ih hrest (by simpa using hlen)]

/-- Item `i` of a packed list followed by anything. -/
theorem dec_drop_flatMap (c : Codec α) {l : List α} {i : Nat} (hi : i < l.length)
    (rest : List UInt8) :
    c.dec ((l.flatMap c.enc ++ rest).drop (i * c.size)) = l[i] := by
  have hle : i * c.size ≤ (l.flatMap c.enc).length := by
    rw [c.length_flatMap_enc]
    exact Nat.mul_le_mul_right _ (Nat.le_of_lt hi)
  rw [drop_append_of_le_length hle, drop_flatMap_enc, drop_eq_getElem_cons hi,
    flatMap_cons, append_assoc, c.dec_enc]

/-- `n` copies of one layout: a C array. -/
def vector (c : Codec α) (n : Nat) : Codec (Vector α n) where
  size := n * c.size
  enc v := v.toList.flatMap c.enc
  dec bs := Vector.ofFn fun i => c.dec (bs.drop (i.val * c.size))
  length_enc v := by rw [c.length_flatMap_enc, Vector.length_toList]
  dec_enc v rest := by
    ext i hi
    have hi' : i < v.toList.length := by simpa using hi
    rw [Vector.getElem_ofFn, c.dec_drop_flatMap hi', Vector.getElem_toList]
  dec_take bs := by
    congr 1
    funext i
    have hi : (i.val + 1) * c.size ≤ n * c.size := Nat.mul_le_mul_right _ i.isLt
    rw [Nat.succ_mul] at hi
    rw [List.drop_take, c.dec_take_le _ (by omega)]

end Codec

/-! ## The C integer types -/

/-- `uint8_t` -/
def u8 : Codec UInt8 where
  size := 1
  enc v := [v]
  dec bs := bs.headD 0
  length_enc _ := rfl
  dec_enc _ _ := rfl
  dec_take bs := by cases bs <;> rfl

/-- `uint16_t`, little endian -/
def u16 : Codec UInt16 where
  size := 2
  enc v := leBytes 2 v.toNat
  dec bs := UInt16.ofNat (leNat (bs.take 2))
  length_enc _ := length_leBytes ..
  dec_enc v rest := by
    have hv : v.toNat < 256 ^ 2 := UInt16.toNat_lt v
    rw [List.take_left' (length_leBytes ..), leNat_leBytes, Nat.mod_eq_of_lt hv, UInt16.ofNat_toNat]
  dec_take bs := by rw [List.take_take, Nat.min_self]

/-- `uint32_t`, little endian -/
def u32 : Codec UInt32 where
  size := 4
  enc v := leBytes 4 v.toNat
  dec bs := UInt32.ofNat (leNat (bs.take 4))
  length_enc _ := length_leBytes ..
  dec_enc v rest := by
    have hv : v.toNat < 256 ^ 4 := UInt32.toNat_lt v
    rw [List.take_left' (length_leBytes ..), leNat_leBytes, Nat.mod_eq_of_lt hv, UInt32.ofNat_toNat]
  dec_take bs := by rw [List.take_take, Nat.min_self]

/-- `uint64_t`, little endian -/
def u64 : Codec UInt64 where
  size := 8
  enc v := leBytes 8 v.toNat
  dec bs := UInt64.ofNat (leNat (bs.take 8))
  length_enc _ := length_leBytes ..
  dec_enc v rest := by
    have hv : v.toNat < 256 ^ 8 := UInt64.toNat_lt v
    rw [List.take_left' (length_leBytes ..), leNat_leBytes, Nat.mod_eq_of_lt hv, UInt64.ofNat_toNat]
  dec_take bs := by rw [List.take_take, Nat.min_self]

end OpenBsd.Lib
