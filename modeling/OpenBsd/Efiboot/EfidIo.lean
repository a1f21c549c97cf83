/-
  OpenBsd.Efiboot.EfidIo

  `efid_io` with `F_READ` of `sys/arch/amd64/stand/efiboot/efidev.c`, call by call: which sectors
  `ReadBlocks` is asked for and which bytes of them end up where in `buf`.

  `u_int` values are reduced modulo `2 ^ 32` wherever the source computes one.  `Efidev` has the same
  function as the bytes it leaves behind.
-/

import OpenBsd.Efiboot.Efidev

namespace OpenBsd.Efiboot

open List

variable {c : Content} {buf : Nat → Option UInt8} {i n : Nat}

/-- `blkio->Media`: `BlockSize` is a `UINT32`, and `blocks` is `LastBlock + 1`. -/
structure EfiMedia where
  blockSize : Nat
  blocks : Nat
  blockSize_pos : 0 < blockSize
  blockSize_dvd : devBsize ∣ blockSize
  blockSize_lt : blockSize < 2 ^ 32

/-- The difference of two `u_int`s. -/
@[irreducible] def subUint (a b : Nat) : Nat := (a + 2 ^ 32 - b) % 2 ^ 32

theorem subUint_of_le {a b : Nat} (h : b ≤ a) (ha : a < 2 ^ 32) : subUint a b = a - b := by
  unfold subUint
  omega

def EfiMedia.blks (m : EfiMedia) : Nat := m.blockSize / devBsize

/-- A `ReadBlocks` of `size` bytes from `lba` on, of which `len` bytes from byte `skip` on end up at
`buf + dst`. -/
structure Transfer where
  lba : Nat
  size : Nat
  skip : Nat
  len : Nat
  dst : Nat
  deriving DecidableEq

/-- `i_lblks`: the blocks in front of the first whole sector. -/
def iLblks (m : EfiMedia) (off : Nat) : Nat := if off % m.blks = 0 then 0 else m.blks - off % m.blks

/-- `i_tblks`: the blocks behind the last whole sector. -/
def iTblks (m : EfiMedia) (off nsect : Nat) : Nat := (off + nsect) % 2 ^ 32 % m.blks

/-- `i_nblks`: the blocks between. -/
def iNblks (m : EfiMedia) (off nsect : Nat) : Nat :=
  subUint nsect (iLblks m off + iTblks m off nsect)

/-- The leading blocks come out of `iblk`. -/
def headTransfer (m : EfiMedia) (off : Nat) : Transfer :=
  { lba := subUint (off / m.blks) 1
    size := m.blockSize
    -- `iblk` is a `u_char *`: the blocks are counted as bytes
    skip := m.blks - iLblks m off
    len := iLblks m off * devBsize % 2 ^ 32
    dst := 0 }

/-- The whole sectors are read in place. -/
def bodyTransfer (m : EfiMedia) (off nsect : Nat) : Transfer :=
  { lba := off / m.blks
    size := m.blockSize * (iNblks m off nsect / m.blks) % 2 ^ 32
    skip := 0
    len := m.blockSize * (iNblks m off nsect / m.blks) % 2 ^ 32
    dst := iLblks m off * devBsize % 2 ^ 32 }

/-- The trailing blocks come out of `iblk` again. -/
def tailTransfer (m : EfiMedia) (off nsect : Nat) : Transfer :=
  { lba := (off / m.blks + iNblks m off nsect / m.blks) % 2 ^ 32
    size := m.blockSize
    skip := 0
    len := iTblks m off nsect * devBsize % 2 ^ 32
    dst := (iLblks m off + iNblks m off nsect) * devBsize % 2 ^ 32 }

/-- `efid_io` with `F_READ`. -/
def efidTransfers (m : EfiMedia) (off nsect : Nat) : List Transfer :=
  (if 0 < iLblks m off then [headTransfer m off] else []) ++
    (if 0 < iNblks m off nsect then [bodyTransfer m off nsect] else []) ++
    (if 0 < iTblks m off nsect then [tailTransfer m off nsect] else [])

/-- What is on the device: byte `j` of a block. -/
abbrev Content := Nat → Nat → UInt8

/-- Byte `j` of what a transfer copies. -/
def Transfer.data (t : Transfer) (m : EfiMedia) (c : Content) (j : Nat) : UInt8 :=
  c (t.lba + (t.skip + j) / m.blockSize) ((t.skip + j) % m.blockSize)

/-- `buf` after a transfer.  Bytes nothing was copied to are `none`. -/
def Transfer.copy (t : Transfer) (m : EfiMedia) (c : Content) (buf : Nat → Option UInt8) :
    Nat → Option UInt8 :=
  fun i => if t.dst ≤ i ∧ i < t.dst + t.len then some (t.data m c (i - t.dst)) else buf i

/-- `buf` after all transfers. -/
def fillBuf (m : EfiMedia) (c : Content) (ts : List Transfer) : Nat → Option UInt8 :=
  ts.foldl (fun buf t => t.copy m c buf) fun _ => none

/-- The bytes of `nsect` blocks of `DEV_BSIZE` from `off` on, and none behind them. -/
def blockBytes (m : EfiMedia) (c : Content) (off nsect : Nat) : Nat → Option UInt8 :=
  fun i =>
    if i < nsect * devBsize then
      some (c ((off * devBsize + i) / m.blockSize) ((off * devBsize + i) % m.blockSize))
    else none

/-- The call is for whole blocks of the device. -/
def Transfer.Inside (t : Transfer) (m : EfiMedia) : Prop :=
  m.blockSize ∣ t.size ∧ t.lba + t.size / m.blockSize ≤ m.blocks

/-- Whatever is on the device, the blocks asked for end up in `buf`, by calls that stay inside. -/
def ReadsExactly (m : EfiMedia) (off nsect : Nat) : Prop :=
  (∀ t ∈ efidTransfers m off nsect, t.Inside m) ∧
    ∀ c, fillBuf m c (efidTransfers m off nsect) = blockBytes m c off nsect

/-! ## The size of a block -/

variable {m : EfiMedia}

theorem EfiMedia.blockSize_eq (m : EfiMedia) : m.blockSize = m.blks * devBsize :=
  (Nat.div_mul_cancel m.blockSize_dvd).symm

theorem EfiMedia.blks_pos (m : EfiMedia) : 0 < m.blks := by
  have heq := m.blockSize_eq
  have hpos := m.blockSize_pos
  apply Nat.pos_of_ne_zero
  intro hzero
  rw [hzero, Nat.zero_mul] at heq
  omega

theorem EfiMedia.blks_lt (m : EfiMedia) : m.blks < 2 ^ 23 := by
  have heq := m.blockSize_eq
  have hlt := m.blockSize_lt
  unfold devBsize at heq
  omega

theorem copy_of_mem {t : Transfer} (h : t.dst ≤ i) (h' : i < t.dst + t.len) :
    t.copy m c buf i = some (t.data m c (i - t.dst)) := if_pos ⟨h, h'⟩

theorem copy_of_notMem {t : Transfer} (h : ¬ (t.dst ≤ i ∧ i < t.dst + t.len)) :
    t.copy m c buf i = buf i := if_neg h

theorem fillBuf_isSome (c : Content) (ts : List Transfer) (i : Nat) :
    (fillBuf m c ts i).isSome ↔ ∃ t ∈ ts, t.dst ≤ i ∧ i < t.dst + t.len := by
  have hgen : ∀ buf : Nat → Option UInt8, (ts.foldl (fun buf t => t.copy m c buf) buf i).isSome ↔
        (∃ t ∈ ts, t.dst ≤ i ∧ i < t.dst + t.len) ∨ (buf i).isSome := by
    induction ts with
    | nil => simp
    | cons t ts ih =>
      intro buf
      rw [foldl_cons, ih]
      by_cases hin : t.dst ≤ i ∧ i < t.dst + t.len
      · rw [copy_of_mem hin.1 hin.2]
        simp [hin]
      · rw [copy_of_notMem hin]
        simp [hin]
  rw [fillBuf, hgen]
  simp

/-! ## Requests that start with a whole block -/

theorem efidTransfers_aligned {off nsect : Nat} (h : iLblks m off = 0) :
    efidTransfers m off nsect =
      (if 0 < iNblks m off nsect then [bodyTransfer m off nsect] else []) ++
      (if 0 < iTblks m off nsect then [tailTransfer m off nsect] else []) := by
  unfold efidTransfers
  rw [h, if_neg (Nat.lt_irrefl 0), nil_append]

/-- A request of `a` sectors from the start, `q` whole sectors and `t` blocks behind them, of which
nothing wraps. -/
structure Aligned (m : EfiMedia) (off nsect a q t : Nat) : Prop where
  off_eq : off = m.blks * a
  nsect_eq : nsect = m.blks * q + t
  lt : t < m.blks
  offset : off < 2 ^ 32
  count : nsect < 2 ^ 31
  bytes : m.blockSize * q < 2 ^ 32
  inside : off + nsect ≤ m.blocks * m.blks
  iTblks_eq : iTblks m off nsect = t

namespace Aligned

variable {off nsect a q t : Nat}

section

variable (h : Aligned m off nsect a q t)
include h

theorem iLblks_eq : iLblks m off = 0 := by
  rw [iLblks, if_pos]
  rw [h.off_eq, Nat.mul_mod_right]

theorem iNblks_eq : iNblks m off nsect = m.blks * q := by
  have hcount := h.count
  have heq := h.nsect_eq
  rw [iNblks, h.iLblks_eq, h.iTblks_eq, subUint_of_le (by omega) (by omega)]
  omega

theorem lba : off / m.blks = a := by
  rw [h.off_eq, Nat.mul_div_cancel_left _ m.blks_pos]

theorem body : bodyTransfer m off nsect = ⟨a, m.blockSize * q, 0, m.blockSize * q, 0⟩ := by
  unfold bodyTransfer
  rw [h.iNblks_eq, h.iLblks_eq, h.lba, Nat.mul_div_cancel_left _ m.blks_pos, Nat.mod_eq_of_lt h.bytes,
    Nat.zero_mul, Nat.zero_mod]

theorem tail (ht : 0 < t) :
    tailTransfer m off nsect = ⟨a + q, m.blockSize, 0, t * devBsize, m.blockSize * q⟩ := by
  have hblks : 2 ≤ m.blks := by
    have hlt := h.lt
    omega
  have ha : 2 * a ≤ m.blks * a := Nat.mul_le_mul_right a hblks
  have hq : 2 * q ≤ m.blks * q := Nat.mul_le_mul_right q hblks
  have hlba : (a + q) % 2 ^ 32 = a + q := by
    have h1 := h.off_eq
    have h2 := h.nsect_eq
    have h3 := h.offset
    have h4 := h.count
    apply Nat.mod_eq_of_lt
    omega
  have hlen : t * devBsize % 2 ^ 32 = t * devBsize := by
    have hlt := h.lt
    have hblkslt := m.blks_lt
    unfold devBsize
    apply Nat.mod_eq_of_lt
    omega
  have hdst : (0 + m.blks * q) * devBsize % 2 ^ 32 = m.blockSize * q := by
    have hmul : (0 + m.blks * q) * devBsize = m.blockSize * q := by
      rw [m.blockSize_eq]
      ring
    rw [hmul, Nat.mod_eq_of_lt h.bytes]
  unfold tailTransfer
  rw [h.iNblks_eq, h.iLblks_eq, h.iTblks_eq, h.lba, Nat.mul_div_cancel_left _ m.blks_pos, hlba, hlen, hdst]

theorem tail_lt : t * devBsize < m.blockSize := by
  rw [m.blockSize_eq]
  exact Nat.mul_lt_mul_of_pos_right h.lt (by decide)

theorem calls : ∀ x ∈ efidTransfers m off nsect, x.Inside m := by
  have hdev : m.blks * (a + q) + t ≤ m.blks * m.blocks := by
    have hinside := h.inside
    rw [h.off_eq, h.nsect_eq, Nat.mul_comm m.blocks] at hinside
    rwa [Nat.mul_add, Nat.add_assoc]
  intro x hx
  rw [efidTransfers_aligned h.iLblks_eq, mem_append] at hx
  rcases hx with hx | hx
  · split at hx
    · rw [mem_singleton.1 hx, h.body]
      refine ⟨Nat.dvd_mul_right _ _, ?_⟩
      show a + m.blockSize * q / m.blockSize ≤ m.blocks
      rw [Nat.mul_div_cancel_left _ m.blockSize_pos]
      apply Nat.le_of_mul_le_mul_left _ m.blks_pos
      omega
    · cases hx
  · rw [h.iTblks_eq] at hx
    split at hx
    next ht =>
      rw [mem_singleton.1 hx, h.tail ht]
      refine ⟨Nat.dvd_refl _, ?_⟩
      show a + q + m.blockSize / m.blockSize ≤ m.blocks
      rw [Nat.div_self m.blockSize_pos]
      apply Nat.lt_of_mul_lt_mul_left (a := m.blks)
      omega
    next => cases hx

/-- Each byte comes from its place on the device. -/
theorem fill (c : Content) :
    fillBuf m c (efidTransfers m off nsect) = blockBytes m c off nsect := by
  have hoff : off * devBsize = m.blockSize * a := by
    rw [h.off_eq, m.blockSize_eq]
    ring
  have hend : nsect * devBsize = m.blockSize * q + t * devBsize := by
    rw [h.nsect_eq, m.blockSize_eq]
    ring
  have hbody : ∀ i, fillBuf m c (if 0 < iNblks m off nsect then [bodyTransfer m off nsect] else []) i =
      if i < m.blockSize * q then some (c (a + i / m.blockSize) (i % m.blockSize)) else none := by
    intro i
    rw [h.iNblks_eq]
    split
    · rw [h.body]
      simp [fillBuf, Transfer.copy, Transfer.data]
    next hzero =>
      have hq : q = 0 := by
        have hpos := m.blks_pos
        by_contra hne
        exact hzero (Nat.mul_pos hpos (Nat.pos_of_ne_zero hne))
      rw [hq, Nat.mul_zero, if_neg (Nat.not_lt_zero i)]
      rfl
  funext i
  unfold blockBytes
  rw [hend, hoff, Nat.mul_add_div m.blockSize_pos, Nat.mul_add_mod]
  rw [efidTransfers_aligned h.iLblks_eq, fillBuf, foldl_append]
  have htail := h.tail_lt
  rw [h.iTblks_eq]
  by_cases ht : 0 < t
  · rw [if_pos ht, h.tail ht, foldl_cons, foldl_nil]
    by_cases hin : m.blockSize * q ≤ i ∧ i < m.blockSize * q + t * devBsize
    · rw [copy_of_mem hin.1 hin.2, if_pos hin.2]
      have hi : i = m.blockSize * q + (i - m.blockSize * q) := by omega
      have hdiv : i / m.blockSize = q := by
        rw [hi, Nat.mul_add_div m.blockSize_pos, Nat.div_eq_of_lt (by omega), Nat.add_zero]
      have hmod : i % m.blockSize = i - m.blockSize * q := by
        rw [hi, Nat.mul_add_mod, Nat.mod_eq_of_lt (by omega)]
        omega
      show some (c (a + q + (0 + (i - m.blockSize * q)) / m.blockSize)
        ((0 + (i - m.blockSize * q)) % m.blockSize)) = _
      rw [hdiv, hmod, Nat.zero_add, Nat.div_eq_of_lt (by omega), Nat.mod_eq_of_lt (by omega),
        Nat.add_zero]
    · rw [copy_of_notMem hin]
      refine (hbody i).trans ?_
      by_cases hlt : i < m.blockSize * q
      · rw [if_pos hlt, if_pos (by omega)]
      · rw [if_neg hlt, if_neg (by omega)]
  · have hzero : t = 0 := by omega
    rw [if_neg ht, foldl_nil, hzero, Nat.zero_mul, Nat.add_zero]
    exact hbody i

end

end Aligned

/-! ## What comes out wrong -/

theorem fillBuf_aligned_isSome {off nsect : Nat} (h : iLblks m off = 0) (c : Content) (i : Nat) :
    (fillBuf m c (efidTransfers m off nsect) i).isSome ↔
      (0 < iNblks m off nsect ∧ i < m.blockSize * (iNblks m off nsect / m.blks) % 2 ^ 32) ∨
      (0 < iTblks m off nsect ∧ iNblks m off nsect * devBsize % 2 ^ 32 ≤ i ∧
        i < iNblks m off nsect * devBsize % 2 ^ 32 + iTblks m off nsect * devBsize) := by
  have hlen : iTblks m off nsect * devBsize % 2 ^ 32 = iTblks m off nsect * devBsize := by
    have hlt : iTblks m off nsect < m.blks := Nat.mod_lt _ m.blks_pos
    have hblkslt := m.blks_lt
    unfold devBsize
    apply Nat.mod_eq_of_lt
    omega
  have hmem : ∀ t, t ∈ efidTransfers m off nsect ↔
      (0 < iNblks m off nsect ∧ t = bodyTransfer m off nsect) ∨
      (0 < iTblks m off nsect ∧ t = tailTransfer m off nsect) := by
    intro t
    rw [efidTransfers_aligned h, mem_append]
    split <;> split <;> simp_all
  rw [fillBuf_isSome]
  constructor
  · rintro ⟨t, ht, hdst, hlt⟩
    rcases (hmem t).1 ht with ⟨hpos, rfl⟩ | ⟨hpos, rfl⟩
    · refine .inl ⟨hpos, ?_⟩
      simp only [bodyTransfer, h, Nat.zero_mul, Nat.zero_mod, Nat.zero_add] at hlt
      exact hlt
    · refine .inr ⟨hpos, ?_⟩
      simp only [tailTransfer, h, Nat.zero_add, hlen] at hdst hlt
      exact ⟨hdst, hlt⟩
  · rintro (⟨hpos, hlt⟩ | ⟨hpos, hdst, hlt⟩)
    · refine ⟨_, (hmem _).2 (.inl ⟨hpos, rfl⟩), ?_⟩
      simp only [bodyTransfer, h, Nat.zero_mul, Nat.zero_mod, Nat.zero_add]
      exact ⟨Nat.zero_le i, hlt⟩
    · refine ⟨_, (hmem _).2 (.inr ⟨hpos, rfl⟩), ?_⟩
      simp only [tailTransfer, h, Nat.zero_add, hlen]
      exact ⟨hdst, hlt⟩

/-- An aligned request that comes out right did so without a wrap. -/
theorem ReadsExactly.aligned {off nsect : Nat} (hexact : ReadsExactly m off nsect) (hoff : m.blks ∣ off)
    (hnsect : 1 ≤ nsect) (hcount : nsect < 2 ^ 31) :
    iTblks m off nsect = nsect % m.blks ∧ (nsect - nsect % m.blks) * devBsize < 2 ^ 32 := by
  have hlblks : iLblks m off = 0 := if_pos (Nat.mod_eq_zero_of_dvd hoff)
  have hcovers : ∀ i, i < nsect * devBsize ↔
      (0 < iNblks m off nsect ∧ i < m.blockSize * (iNblks m off nsect / m.blks) % 2 ^ 32) ∨
      (0 < iTblks m off nsect ∧ iNblks m off nsect * devBsize % 2 ^ 32 ≤ i ∧
        i < iNblks m off nsect * devBsize % 2 ^ 32 + iTblks m off nsect * devBsize) := by
    intro i
    rw [← fillBuf_aligned_isSome hlblks fun _ _ => 0, hexact.2, blockBytes]
    split <;> simp_all
  have htlt : iTblks m off nsect < m.blks := Nat.mod_lt _ m.blks_pos
  have hblkslt := m.blks_lt
  -- the tail does not go past the end of `buf`
  have hfits : iTblks m off nsect ≤ nsect := by
    by_contra hmore
    have hpast := (hcovers (iNblks m off nsect * devBsize % 2 ^ 32 + iTblks m off nsect * devBsize - 1)).2
      (.inr (by unfold devBsize; omega))
    unfold devBsize at hpast
    omega
  have hn : iNblks m off nsect = nsect - iTblks m off nsect := by
    rw [iNblks, hlblks, Nat.zero_add, subUint_of_le hfits (by omega)]
  generalize hN : iNblks m off nsect = n at *
  generalize hT : iTblks m off nsect = t at *
  generalize hS : m.blockSize * (n / m.blks) % 2 ^ 32 = size at *
  -- the body is as long as it should be, or a byte is missing
  have hfull : n * devBsize ≤ size := by
    by_contra hshort
    have hnext := (hcovers size).1 (by unfold devBsize at *; omega)
    have hlast := (hcovers (nsect * devBsize - 1)).1 (by unfold devBsize; omega)
    unfold devBsize at *
    omega
  have hproduct : m.blockSize * (n / m.blks) ≤ n * devBsize := by
    have hle := Nat.mul_div_le n m.blks
    calc m.blockSize * (n / m.blks) = m.blks * (n / m.blks) * devBsize := by
          rw [m.blockSize_eq]
          ring
      _ ≤ n * devBsize := Nat.mul_le_mul_right _ hle
  have hsize : size ≤ m.blockSize * (n / m.blks) := by
    rw [← hS]
    exact Nat.mod_le _ _
  have hlt : size < 2 ^ 32 := by
    rw [← hS]
    exact Nat.mod_lt _ (by decide)
  have hwhole : m.blks * (n / m.blks) = n := by
    have heq : m.blks * (n / m.blks) * devBsize = n * devBsize := by
      calc m.blks * (n / m.blks) * devBsize = m.blockSize * (n / m.blks) := by
            rw [m.blockSize_eq]
            ring
        _ = n * devBsize := by omega
    exact Nat.eq_of_mul_eq_mul_right (by decide) heq
  have hmod : nsect % m.blks = t := by
    have hsum : nsect = m.blks * (n / m.blks) + t := by omega
    rw [hsum, Nat.mul_add_mod, Nat.mod_eq_of_lt htlt]
  refine ⟨hmod.symm, ?_⟩
  rw [hmod, ← hn]
  omega

end OpenBsd.Efiboot
