/-
  OpenBsd.Crypto.Idgen

  The generator of identifiers in `crypto/idgen.c`.  What `arc4random`, `arc4random_buf` and
  `time_second` give during one turn of its loop is a parameter (`IdgenDraw`).
-/

import Mathlib.Data.BitVec
import Mathlib.Data.List.Basic
import Mathlib.Data.Nat.Bitwise

namespace OpenBsd.Crypto

abbrev IdgenKey := Fin 32 → BitVec 8

def idgen32Ftable : List (BitVec 8) := [
  0xa3, 0xd7, 0x09, 0x83, 0xf8, 0x48, 0xf6, 0xf4, 0xb3, 0x21, 0x15, 0x78, 0x99, 0xb1, 0xaf, 0xf9,
  0xe7, 0x2d, 0x4d, 0x8a, 0xce, 0x4c, 0xca, 0x2e, 0x52, 0x95, 0xd9, 0x1e, 0x4e, 0x38, 0x44, 0x28,
  0x0a, 0xdf, 0x02, 0xa0, 0x17, 0xf1, 0x60, 0x68, 0x12, 0xb7, 0x7a, 0xc3, 0xe9, 0xfa, 0x3d, 0x53,
  0x96, 0x84, 0x6b, 0xba, 0xf2, 0x63, 0x9a, 0x19, 0x7c, 0xae, 0xe5, 0xf5, 0xf7, 0x16, 0x6a, 0xa2,
  0x39, 0xb6, 0x7b, 0x0f, 0xc1, 0x93, 0x81, 0x1b, 0xee, 0xb4, 0x1a, 0xea, 0xd0, 0x91, 0x2f, 0xb8,
  0x55, 0xb9, 0xda, 0x85, 0x3f, 0x41, 0xbf, 0xe0, 0x5a, 0x58, 0x80, 0x5f, 0x66, 0x0b, 0xd8, 0x90,
  0x35, 0xd5, 0xc0, 0xa7, 0x33, 0x06, 0x65, 0x69, 0x45, 0x00, 0x94, 0x56, 0x6d, 0x98, 0x9b, 0x76,
  0x97, 0xfc, 0xb2, 0xc2, 0xb0, 0xfe, 0xdb, 0x20, 0xe1, 0xeb, 0xd6, 0xe4, 0xdd, 0x47, 0x4a, 0x1d,
  0x42, 0xed, 0x9e, 0x6e, 0x49, 0x3c, 0xcd, 0x43, 0x27, 0xd2, 0x07, 0xd4, 0xde, 0xc7, 0x67, 0x18,
  0x89, 0xcb, 0x30, 0x1f, 0x8d, 0xc6, 0x8f, 0xaa, 0xc8, 0x74, 0xdc, 0xc9, 0x5d, 0x5c, 0x31, 0xa4,
  0x70, 0x88, 0x61, 0x2c, 0x9f, 0x0d, 0x2b, 0x87, 0x50, 0x82, 0x54, 0x64, 0x26, 0x7d, 0x03, 0x40,
  0x34, 0x4b, 0x1c, 0x73, 0xd1, 0xc4, 0xfd, 0x3b, 0xcc, 0xfb, 0x7f, 0xab, 0xe6, 0x3e, 0x5b, 0xa5,
  0xad, 0x04, 0x23, 0x9c, 0x14, 0x51, 0x22, 0xf0, 0x29, 0x79, 0x71, 0x7e, 0xff, 0x8c, 0x0e, 0xe2,
  0x0c, 0xef, 0xbc, 0x72, 0x75, 0x6f, 0x37, 0xa1, 0xec, 0xd3, 0x8e, 0x62, 0x8b, 0x86, 0x10, 0xe8,
  0x08, 0x77, 0x11, 0xbe, 0x92, 0x4f, 0x24, 0xc5, 0x32, 0x36, 0x9d, 0xcf, 0xf3, 0xa6, 0xbb, 0xac,
  0x5e, 0x6c, 0xa9, 0x13, 0x57, 0x25, 0xb5, 0xe3, 0xbd, 0xa8, 0x3a, 0x01, 0x05, 0x59, 0x2a, 0x46]

def idgen32G (key : IdgenKey) (k : Nat) (w : BitVec 16) : BitVec 16 :=
  let ftable := fun i : BitVec 8 => idgen32Ftable.getD i.toNat 0
  let o := k * 4
  let g1 := (w >>> 8).setWidth 8
  let g2 := w.setWidth 8
  let g3 := ftable (g2 ^^^ key (Fin.ofNat 32 o)) ^^^ g1
  let g4 := ftable (g3 ^^^ key (Fin.ofNat 32 (o + 1))) ^^^ g2
  let g5 := ftable (g4 ^^^ key (Fin.ofNat 32 (o + 2))) ^^^ g3
  let g6 := ftable (g5 ^^^ key (Fin.ofNat 32 (o + 3))) ^^^ g4
  g5.setWidth 16 <<< 8 ||| g6.setWidth 16

/-- `n` turns of the loop of `idgen32_permute` from round `r` on, and its last round. -/
def idgen32Rounds (key : IdgenKey) : Nat → Nat → BitVec 16 → BitVec 16 → BitVec 16 × BitVec 16
  | 0, r, wl, wr => (wl, wr ^^^ (idgen32G key r wl ^^^ BitVec.ofNat 16 r))
  | n + 1, r, wl, wr =>
    let wr := wr ^^^ (idgen32G key r wl ^^^ BitVec.ofNat 16 r)
    let wl := wl ^^^ ((idgen32G key (r + 1) wr ^^^ BitVec.ofNat 16 (r + 1)) &&& 0x7fff)
    idgen32Rounds key n (r + 2) wl wr

def idgen32Permute (key : IdgenKey) (x : BitVec 32) : BitVec 32 :=
  let w := idgen32Rounds key 15 0 ((x >>> 16).setWidth 16 &&& 0x7fff) (x.setWidth 16)
  w.1.setWidth 32 <<< 16 ||| w.2.setWidth 32

/-- `struct idgen32_ctx` -/
structure Idgen32Ctx where
  counter : BitVec 32
  offset : BitVec 32
  hibit : BitVec 32
  key : IdgenKey
  rekeyTime : Int

def idgen32RekeyLimit : BitVec 32 := 0x60000000

/-- The value that a counter stands for. -/
def Idgen32Ctx.value (ctx : Idgen32Ctx) (counter : BitVec 32) : BitVec 32 :=
  ctx.hibit ||| idgen32Permute ctx.key ((ctx.offset + counter) &&& 0x7fffffff)

theorem xor_right_inj {n : Nat} {a b c : BitVec n} (h : a ^^^ c = b ^^^ c) : a = b := by
  rw [← BitVec.xor_zero (x := a), ← BitVec.xor_self (x := c), ← BitVec.xor_assoc, h,
    BitVec.xor_assoc, BitVec.xor_self, BitVec.xor_zero]

theorem idgen32Rounds_inj (key : IdgenKey) {n r : Nat} {wl wr wl' wr' : BitVec 16}
    (h : idgen32Rounds key n r wl wr = idgen32Rounds key n r wl' wr') : wl = wl' ∧ wr = wr' := by
  induction n generalizing r wl wr wl' wr' with
  | zero =>
    obtain ⟨rfl, h⟩ := Prod.mk.inj h
    exact ⟨rfl, xor_right_inj h⟩
  | succ n ih =>
    obtain ⟨hl, hr⟩ := ih h
    rw [hr] at hl
    obtain rfl := xor_right_inj hl
    exact ⟨rfl, xor_right_inj hr⟩

/-- The left half keeps its 15 bits. -/
theorem idgen32Rounds_left (key : IdgenKey) (n r : Nat) {wl : BitVec 16} (wr : BitVec 16)
    (h : wl.toNat < 2 ^ 15) : (idgen32Rounds key n r wl wr).1.toNat < 2 ^ 15 := by
  induction n generalizing r wl wr with
  | zero => exact h
  | succ n ih =>
    refine ih _ _ ?_
    rw [BitVec.toNat_xor, BitVec.toNat_and]
    exact Nat.xor_lt_two_pow h (Nat.and_lt_two_pow _ (by decide))

theorem toNat_join (w : BitVec 16 × BitVec 16) :
    (w.1.setWidth 32 <<< 16 ||| w.2.setWidth 32).toNat = w.1.toNat * 2 ^ 16 + w.2.toNat := by
  have hr := w.2.isLt
  have hl := w.1.isLt
  rw [BitVec.toNat_or, BitVec.toNat_shiftLeft, BitVec.toNat_setWidth, BitVec.toNat_setWidth,
    Nat.mod_eq_of_lt (by omega : w.1.toNat < 2 ^ 32),
    Nat.mod_eq_of_lt (by omega : w.2.toNat < 2 ^ 32),
    Nat.mod_eq_of_lt (by rw [Nat.shiftLeft_eq]; omega), ← Nat.shiftLeft_add_eq_or_of_lt hr,
    Nat.shiftLeft_eq]

theorem toNat_left (x : BitVec 32) :
    ((x >>> 16).setWidth 16 &&& 0x7fff).toNat = x.toNat / 2 ^ 16 % 2 ^ 15 := by
  have hmask : BitVec.toNat (0x7fff : BitVec 16) = 2 ^ 15 - 1 := rfl
  have hx := x.isLt
  rw [BitVec.toNat_and, hmask, Nat.and_two_pow_sub_one_eq_mod, BitVec.toNat_setWidth,
    BitVec.toNat_ushiftRight, Nat.shiftRight_eq_div_pow]
  omega

theorem idgen32Permute_lt (key : IdgenKey) (x : BitVec 32) :
    (idgen32Permute key x).toNat < 2 ^ 31 := by
  have hl := idgen32Rounds_left key 15 0 (x.setWidth 16) (by rw [toNat_left x]; omega)
  have hr := (idgen32Rounds key 15 0 ((x >>> 16).setWidth 16 &&& 0x7fff) (x.setWidth 16)).2.isLt
  rw [idgen32Permute, toNat_join]
  omega

theorem idgen32Permute_inj (key : IdgenKey) {x y : BitVec 32} (hx : x.toNat < 2 ^ 31)
    (hy : y.toNat < 2 ^ 31) (h : idgen32Permute key x = idgen32Permute key y) : x = y := by
  have hw := congrArg BitVec.toNat h
  simp only [idgen32Permute, toNat_join] at hw
  generalize hu : idgen32Rounds key 15 0 ((x >>> 16).setWidth 16 &&& 0x7fff)
    (x.setWidth 16) = u at hw
  generalize hv : idgen32Rounds key 15 0 ((y >>> 16).setWidth 16 &&& 0x7fff)
    (y.setWidth 16) = v at hw
  have hur := u.2.isLt
  have hvr := v.2.isLt
  have huv : u = v := Prod.ext (BitVec.eq_of_toNat_eq (by omega)) (BitVec.eq_of_toNat_eq (by omega))
  obtain ⟨hl, hr⟩ := idgen32Rounds_inj key (hu.trans (huv.trans hv.symm))
  have hl' := congrArg BitVec.toNat hl
  have hr' := congrArg BitVec.toNat hr
  rw [toNat_left, toNat_left] at hl'
  rw [BitVec.toNat_setWidth, BitVec.toNat_setWidth] at hr'
  exact BitVec.eq_of_toNat_eq (by omega)

/-! ## Runs -/

variable {ctx : Idgen32Ctx}

/-- A context between two turns. -/
structure Idgen32Ctx.Ok (ctx : Idgen32Ctx) : Prop where
  hibit : ctx.hibit.toNat = 0 ∨ ctx.hibit.toNat = 2 ^ 31
  counter : ctx.counter.toNat ≤ idgen32RekeyLimit.toNat + 1

/-- A value that came up when so many rekeyings were still to come: under this key, under the
    key before it, or earlier. -/
def Idgen32Ctx.Past (ctx : Idgen32Ctx) (v : BitVec 32) : Nat → Prop
  | 0 => ∃ c : BitVec 32, c.toNat < ctx.counter.toNat ∧ v = ctx.value c
  | 1 => 2 ^ 31 ≤ v.toNat ↔ ctx.hibit.toNat = 0
  | _ + 2 => True

theorem Idgen32Ctx.Ok.toNat_value (h : ctx.Ok) (c : BitVec 32) : (ctx.value c).toNat =
    ctx.hibit.toNat + (idgen32Permute ctx.key ((ctx.offset + c) &&& 0x7fffffff)).toNat := by
  have hlt := idgen32Permute_lt ctx.key ((ctx.offset + c) &&& 0x7fffffff)
  rw [Idgen32Ctx.value, BitVec.toNat_or]
  rcases h.hibit with hb | hb
  · rw [hb, Nat.zero_or, Nat.zero_add]
  · have hadd := Nat.shiftLeft_add_eq_or_of_lt hlt 1
    rwa [Nat.one_shiftLeft, ← hb, eq_comm] at hadd

theorem Idgen32Ctx.Ok.value_inj (h : ctx.Ok) {c c' : BitVec 32}
    (hc : c.toNat ≤ idgen32RekeyLimit.toNat) (hc' : c'.toNat ≤ idgen32RekeyLimit.toNat)
    (hv : ctx.value c = ctx.value c') : c = c' := by
  have hmask : BitVec.toNat (0x7fffffff : BitVec 32) = 2 ^ 31 - 1 := rfl
  have hlimit : idgen32RekeyLimit.toNat = 0x60000000 := rfl
  have hin : ∀ c, ((ctx.offset + c) &&& 0x7fffffff).toNat =
      (ctx.offset.toNat + c.toNat) % 2 ^ 32 % 2 ^ 31 := fun c => by
    rw [BitVec.toNat_and, hmask, Nat.and_two_pow_sub_one_eq_mod, BitVec.toNat_add]
  have htoNat := congrArg BitVec.toNat hv
  rw [h.toNat_value, h.toNat_value, Nat.add_left_cancel_iff] at htoNat
  have harg := congrArg BitVec.toNat (idgen32Permute_inj ctx.key
    (by rw [hin]; omega) (by rw [hin]; omega) (BitVec.eq_of_toNat_eq htoNat))
  rw [hin, hin] at harg
  exact BitVec.eq_of_toNat_eq (by omega)

theorem toNat_add_one {c : BitVec 32} (h : c.toNat ≤ idgen32RekeyLimit.toNat) :
    (c + 1).toNat = c.toNat + 1 := by
  have hlimit : idgen32RekeyLimit.toNat = 0x60000000 := rfl
  have hone : BitVec.toNat (1 : BitVec 32) = 1 := rfl
  rw [BitVec.toNat_add, hone]
  omega

/-- The value of the counter is none of those under this key and under the key before. -/
theorem Idgen32Ctx.Past.next (h : ctx.Ok) {v : BitVec 32} {k : Nat} (hp : ctx.Past v k)
    (hc : ctx.counter.toNat ≤ idgen32RekeyLimit.toNat) :
    Idgen32Ctx.Past { ctx with counter := ctx.counter + 1 } v k ∧
      (ctx.value ctx.counter = v → 2 ≤ k) := by
  match k with
  | 0 =>
    obtain ⟨c, hlt, rfl⟩ := hp
    refine ⟨⟨c, toNat_add_one hc ▸ Nat.lt_succ_of_lt hlt, rfl⟩, fun hv => ?_⟩
    · rw [h.value_inj hc (by omega) hv] at hlt
      exact absurd hlt (Nat.lt_irrefl _)
  | 1 =>
    refine ⟨hp, ?_⟩
    rintro rfl
    have hlt := idgen32Permute_lt ctx.key ((ctx.offset + ctx.counter) &&& 0x7fffffff)
    rw [Past, h.toNat_value] at hp
    rcases h.hibit with hb | hb <;> omega
  | k + 2 => exact ⟨trivial, fun _ => Nat.le_add_left 2 k⟩

end OpenBsd.Crypto
