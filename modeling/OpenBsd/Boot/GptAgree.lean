/-
  OpenBsd.Boot.GptAgree

  One writer and two readers of the GPT: gdisk's `GPT_store`, the kernel's
  `readgptlabel` and efiboot's `findopenbsd_gpt`.

  gdisk and efiboot put four entries into a sector, whatever its size; the kernel takes as
  many as fit and reads only the sectors it expects to be full.  `kernelArray` is the array
  it ends up with; when that is not what gdisk stored (`kernelArray_eq_iff`), only a
  coincidence of checksums lets the disk through.
-/

import OpenBsd.Gdisk.Cmd
import OpenBsd.Gdisk.Interrupt
import OpenBsd.Kern.SubrDisk
import OpenBsd.Efiboot.Efidev

namespace OpenBsd.Boot

open OpenBsd.Lib List
open OpenBsd.Disklabel
open OpenBsd.Gdisk (Gpt StoreOk partLbas copyHeader primaryHeader backupHeader copyWrites
  packBlock quad partBytes unusedEntry fullEntry filledDisk markCrc)
open OpenBsd.Kern
open OpenBsd.Efiboot

variable {crc32 : List UInt8 → UInt32} {d : Disk} {g : Gpt}

/-! ## The kernel on one header -/

/-- The entry array as the kernel gathers it from sector `lba` on. -/
def kernelArray (d : Disk) (lba num : Nat) : List GptPartition :=
  let pps := d.secsize / sizeofGptPartition
  ((List.range (num / pps)).flatMap fun k => sectorParts pps (d.sector (lba + k)))
    ++ List.replicate (num - num / pps * pps) GptPartition.zero

theorem length_flatMap_sectorParts (d : Disk) (pps n lba : Nat) :
    ((List.range n).flatMap fun k => sectorParts pps (d.sector (lba + k))).length = n * pps := by
  simp only [length_flatMap, length_sectorParts, map_const', length_range, sum_replicate_nat]

/-- A header of the stored table leads the kernel to `kernelArray`, unless the
    array is too large to allocate. -/
theorem gptArray_copyHeader {d' : Disk} (cur bak plba : UInt64)
    (hlba : plba.toNat + partLbas g ≤ d'.size) :
    gptArray d' (GptHeader.ofGdisk (copyHeader crc32 d g cur bak plba)) =
      if mallocMax < g.header.partitionsNum.toNat * sizeofGptPartition then .error .trap
      else .ok (kernelArray d' plba.toNat g.header.partitionsNum.toNat) := by
  have hle := d'.devBsize_le
  have hpps : 4 ≤ d'.secsize / sizeofGptPartition := by
    rw [devBsize] at hle
    rw [sizeofGptPartition]
    omega
  -- the kernel reads whole sectors only, never more of them than gdisk wrote
  have hnum : g.header.partitionsNum.toNat / (d'.secsize / sizeofGptPartition) ≤ partLbas g := by
    have hmono : g.header.partitionsNum.toNat / (d'.secsize / sizeofGptPartition)
        ≤ g.header.partitionsNum.toNat / 4 := Nat.div_le_div_left hpps (by decide)
    rw [partLbas]
    omega
  have hread : readGptParts d' (d'.secsize / sizeofGptPartition)
      (g.header.partitionsNum.toNat / (d'.secsize / sizeofGptPartition)) plba.toNat = .ok _ :=
    readGptParts_eq _ (by omega)
  by_cases hbig : mallocMax < g.header.partitionsNum.toNat * sizeofGptPartition
  · -- malloc refuses the array
    rw [if_pos hbig, gptArray]
    exact if_pos hbig
  · rw [if_neg hbig, gptArray]
    refine (if_neg hbig).trans ?_
    show (readGptParts d' (d'.secsize / sizeofGptPartition)
      (g.header.partitionsNum.toNat / (d'.secsize / sizeofGptPartition)) plba.toNat >>= _) = _
    rw [hread]
    simp only [bind, Except.bind, pure, Except.pure, length_flatMap_sectorParts]
    rfl

theorem dec_sector_header {d' : Disk} {n : Nat} {h : Gdisk.GptHeader}
    (hblk : d'.block n = Block.ofBytes (Gdisk.GptHeader.codec.enc h)) :
    GptHeader.codec.dec (d'.sector n) = GptHeader.ofGdisk h := by
  have hlen : (Gdisk.GptHeader.codec.enc h).length ≤ devBsize := by
    rw [Gdisk.GptHeader.codec.length_enc]
    decide
  have htake : (d'.sector n).take devBsize
      = Gdisk.GptHeader.codec.enc h ++ List.replicate (devBsize - _) 0 :=
    (congrArg Subtype.val hblk).trans (Block.ofBytes_val hlen)
  rw [GptHeader.dec_eq_ofGdisk, ← take_append_drop devBsize (d'.sector n), htake,
    append_assoc, Gdisk.GptHeader.codec.dec_enc]

theorem kernHeaderOk_copyHeader {d' : Disk} (ok : StoreOk d g) (hsize : d'.size = d.size)
    (cur bak plba : UInt64) (hplba : plba.toNat < d.size) :
    KernHeaderOk crc32 d' (GptHeader.ofGdisk (copyHeader crc32 d g cur bak plba)) := by
  have hsz := ok.size_le
  have hlt := d.size_lt
  refine ⟨rfl, rfl, rfl, ?_, ?_, ?_, ?_, rfl⟩
  · have hcsum := (Gdisk.copyHeader_ok crc32 d g cur bak plba).headerChecksum
    rw [Gdisk.headerCrc, take_of_length_le (by rw [Gdisk.GptHeader.codec.length_enc]; rfl)]
      at hcsum
    exact hcsum
  · show (UInt64.ofNat (partLbas g + 2)).toNat < d'.size
    rw [UInt64.toNat_ofNat']
    omega
  · show (UInt64.ofNat (d.size - (partLbas g + 2))).toNat < d'.size
    rw [UInt64.toNat_ofNat']
    omega
  · show plba.toNat < d'.size
    omega

theorem gptTryHeader_copyHeader {d' : Disk} {n : Nat} (altheader : Bool) (ok : StoreOk d g)
    (hsize : d'.size = d.size) (hn : n < d.size) (cur bak plba : UInt64)
    (hblk : d'.block n
      = Block.ofBytes (Gdisk.GptHeader.codec.enc (copyHeader crc32 d g cur bak plba)))
    (hplba : plba.toNat < d.size) (hroom : plba.toNat + partLbas g ≤ d.size) :
    gptTryHeader crc32 d' n altheader =
      if mallocMax < g.header.partitionsNum.toNat * sizeofGptPartition then .error .trap
      else
        let gh := GptHeader.ofGdisk (copyHeader crc32 d g cur bak plba)
        let gp := kernelArray d' plba.toNat g.header.partitionsNum.toNat
        if gptChkParts crc32 gh gp = false then
          if altheader then .error (.errno .einval) else .ok none
        else .ok (some (gh, gp)) := by
  rw [gptTryHeader_eq crc32 altheader (hsize ▸ hn) (dec_sector_header hblk)
    (kernHeaderOk_copyHeader ok hsize cur bak plba hplba),
    gptArray_copyHeader cur bak plba (hsize ▸ hroom)]
  by_cases hbig : mallocMax < g.header.partitionsNum.toNat * sizeofGptPartition
  · rw [if_pos hbig, if_pos hbig]
    rfl
  · rw [if_neg hbig, if_neg hbig]
    rfl

/-! ## Sectors of 512 bytes -/

theorem flatMap_quad (part : List Gdisk.GptPartition) (n : Nat) :
    (List.range n).flatMap (quad part) = part.take (4 * n) := by
  induction n with
  | zero => rfl
  | succ n ih =>
    have hsum : 4 * (n + 1) = 4 * n + 4 := by omega
    rw [range_succ, flatMap_append, ih, hsum, take_add, flatMap_cons, flatMap_nil, append_nil, quad]

variable {qs : List Gdisk.GptPartition}

theorem sectorParts_packBlock (h : qs.length = 4)
    (rest : List UInt8) :
    sectorParts 4 ((packBlock qs).val ++ rest) = qs.map GptPartition.ofGdisk := by
  have hfit : (partBytes qs).length ≤ devBsize := by
    rw [Gdisk.length_partBytes, h]
    decide
  apply ext_getElem
  · rw [length_sectorParts, length_map, h]
  · intro k hk hk'
    rw [length_sectorParts] at hk
    simp only [sectorParts, getElem_map, getElem_range, GptPartition.dec_eq_ofGdisk]
    rw [packBlock, Block.ofBytes_val hfit, append_assoc]
    exact congrArg GptPartition.ofGdisk (Gdisk.GptPartition.codec.dec_drop_flatMap (by omega) _)

variable {lba : Nat}

/-- On 512-byte sectors the kernel gets all entries but those of a sector that
    is not full. -/
theorem kernelArray_512 {d' : Disk} (hsec : d'.secsize = devBsize)
    (hblk : ∀ j, j < partLbas g → d'.block (lba + j) = packBlock (quad g.part j)) :
    kernelArray d' lba g.header.partitionsNum.toNat
      = (g.part.take (4 * (g.header.partitionsNum.toNat / 4))).map GptPartition.ofGdisk
        ++ List.replicate (g.header.partitionsNum.toNat % 4) GptPartition.zero := by
  have hpps : d'.secsize / sizeofGptPartition = 4 := by
    rw [hsec]
    decide
  have hlen := g.length_part
  simp only [kernelArray, hpps]
  -- sector by sector, four entries each
  have hsectors : ((List.range (g.header.partitionsNum.toNat / 4)).flatMap fun k =>
      sectorParts 4 (d'.sector (lba + k)))
      = (List.range (g.header.partitionsNum.toNat / 4)).flatMap fun k =>
        (quad g.part k).map GptPartition.ofGdisk := by
    simp only [flatMap_def]
    congr 1
    apply map_congr_left
    intro k hk
    rw [mem_range] at hk
    have hquad : (quad g.part k).length = 4 := by
      rw [quad, length_take, length_drop]
      omega
    -- with 512-byte sectors the block is the whole sector
    have hsector : d'.sector (lba + k) = (packBlock (quad g.part k)).val ++ [] := by
      rw [append_nil, ← hblk k (by rw [partLbas]; omega)]
      exact (take_of_length_le (by rw [d'.length_sector, hsec])).symm
    rw [hsector, sectorParts_packBlock hquad]
  rw [hsectors, ← flatMap_quad, map_flatMap]
  congr 2
  omega

theorem kernelArray_eq_iff {d' : Disk} (hsec : d'.secsize = devBsize)
    (hblk : ∀ j, j < partLbas g → d'.block (lba + j) = packBlock (quad g.part j)) :
    kernelArray d' lba g.header.partitionsNum.toNat = g.part.map GptPartition.ofGdisk ↔
      ∀ p ∈ g.part.drop (4 * (g.header.partitionsNum.toNat / 4)), p = unusedEntry := by
  have hlen := g.length_part
  have hdrop : (g.part.drop (4 * (g.header.partitionsNum.toNat / 4))).length
      = g.header.partitionsNum.toNat % 4 := by
    rw [length_drop]
    omega
  have hzero : GptPartition.zero = GptPartition.ofGdisk unusedEntry := rfl
  have hsplit : g.part.map GptPartition.ofGdisk
      = (g.part.take (4 * (g.header.partitionsNum.toNat / 4))).map GptPartition.ofGdisk
        ++ (g.part.drop (4 * (g.header.partitionsNum.toNat / 4))).map GptPartition.ofGdisk := by
    rw [← map_append, take_append_drop]
  -- what is left to compare are the entries behind the last whole sector
  rw [kernelArray_512 hsec hblk, hsplit, append_cancel_left_eq, eq_comm,
    eq_replicate_iff, length_map]
  constructor
  · rintro ⟨-, hall⟩ p hp
    apply GptPartition.ofGdisk_injective
    rw [← hzero]
    exact hall _ (mem_map_of_mem hp)
  · intro hall
    refine ⟨hdrop, fun b hb => ?_⟩
    obtain ⟨p, hp, rfl⟩ := mem_map.mp hb
    rw [hall p hp, hzero]

/-! ## Larger sectors -/

/-- On larger sectors the fifth entry the kernel sees is what was behind the
    first block of the sector before; filled with 0xff it is no entry gdisk
    stores. -/
theorem kernelArray_ne_large {d' : Disk} (ok : StoreOk d g)
    (hsec : devBsize < d'.secsize)
    (hsector : ∀ j, j < partLbas g → d'.sector (lba + j)
      = (packBlock (quad g.part j)).val ++ List.replicate (d'.secsize - devBsize) 0xff)
    (hused : ∃ p ∈ g.part, ¬ Gdisk.uuidIsNil p.type) :
    kernelArray d' lba g.header.partitionsNum.toNat ≠ g.part.map GptPartition.ofGdisk := by
  intro heq
  obtain ⟨k, hk⟩ := d'.secsize_dvd
  rw [devBsize] at hk hsec
  have hpps : 8 ≤ d'.secsize / sizeofGptPartition := by
    rw [sizeofGptPartition]
    omega
  have hlen := g.length_part
  by_cases hfew : g.header.partitionsNum.toNat < d'.secsize / sizeofGptPartition
  · -- no sector is read: every entry is zero, and one of the table is in use
    obtain ⟨p, hp, hnil⟩ := hused
    rw [kernelArray, Nat.div_eq_of_lt hfew, Nat.zero_mul, Nat.sub_zero, range_zero,
      flatMap_nil, nil_append] at heq
    have hmem : GptPartition.ofGdisk p ∈ List.replicate g.header.partitionsNum.toNat
        GptPartition.zero := by
      rw [heq]
      exact mem_map_of_mem hp
    have hp0 : p = unusedEntry := GptPartition.ofGdisk_injective (eq_of_mem_replicate hmem)
    rw [hp0] at hnil
    exact hnil rfl
  · -- the fifth entry comes from behind the first block, where all bytes are 0xff
    have h4 : 4 < g.part.length := by omega
    obtain ⟨m, hm⟩ : ∃ m, g.header.partitionsNum.toNat / (d'.secsize / sizeofGptPartition)
        = m + 1 := by
      have hpos := Nat.div_pos (Nat.not_lt.mp hfew) (by omega)
      exact ⟨_, (Nat.succ_pred_eq_of_pos hpos).symm⟩
    have hfifth : (kernelArray d' lba g.header.partitionsNum.toNat)[4]?
        = some (GptPartition.codec.dec ((d'.sector lba).drop (4 * sizeofGptPartition))) := by
      simp only [kernelArray, hm, range_succ_eq_map, flatMap_cons, append_assoc, Nat.add_zero]
      rw [getElem?_append_left (by rw [length_sectorParts]; omega), sectorParts,
        getElem?_map, getElem?_range (by omega), Option.map_some]
    have hfull : (d'.sector lba).drop (4 * sizeofGptPartition)
        = Gdisk.GptPartition.codec.enc fullEntry
          ++ List.replicate (d'.secsize - devBsize - Gdisk.sizeofGptPartition) 0xff := by
      have h0 := hsector 0 (by rw [partLbas]; omega)
      rw [Nat.add_zero] at h0
      have hfour : 4 * sizeofGptPartition = devBsize := rfl
      rw [h0, hfour, drop_left' (packBlock _).property, Gdisk.enc_fullEntry,
        replicate_append_replicate, Nat.add_sub_cancel']
      rw [devBsize, Gdisk.sizeofGptPartition]
      omega
    rw [heq, getElem?_map, getElem?_eq_getElem h4, Option.map_some, hfull,
      GptPartition.dec_eq_ofGdisk, Gdisk.GptPartition.codec.dec_enc, Option.some.injEq] at hfifth
    have hp4 := GptPartition.ofGdisk_injective hfifth
    -- no entry of a table that was stored ends so far out
    obtain ⟨-, -, hend⟩ := ok.bounds g.part[4] (getElem_mem h4) (by rw [hp4]; decide)
    have hlt := d.size_lt
    rw [hp4] at hend
    have hmax : fullEntry.endLba.toNat = 2 ^ 64 - 1 := rfl
    omega

/-! ## The checksum of the array -/

theorem length_kernelArray (d : Disk) (lba num : Nat) : (kernelArray d lba num).length = num := by
  have hle := Nat.div_mul_le_self num (d.secsize / sizeofGptPartition)
  rw [kernelArray, length_append, length_flatMap_sectorParts, length_replicate]
  omega

theorem flatMap_enc_ofGdisk (part : List Gdisk.GptPartition) :
    (part.map GptPartition.ofGdisk).flatMap GptPartition.codec.enc = partBytes part := by
  rw [flatMap_map]
  rfl

theorem gptChkParts_eq (cur bak plba : UInt64) {gp : List GptPartition}
    (hsmall : ¬ mallocMax < g.header.partitionsNum.toNat * sizeofGptPartition)
    (hlen : gp.length = g.header.partitionsNum.toNat) :
    gptChkParts crc32 (GptHeader.ofGdisk (copyHeader crc32 d g cur bak plba)) gp
      = decide (crc32 (gp.flatMap GptPartition.codec.enc) = crc32 (partBytes g.part)) := by
  -- below the limit of malloc the product does not wrap
  have hprod : (g.header.partitionsNum * UInt32.ofNat Gdisk.sizeofGptPartition).toNat
      = g.header.partitionsNum.toNat * sizeofGptPartition := by
    rw [UInt32.toNat_mul]
    apply Nat.mod_eq_of_lt
    simp only [mallocMax, sizeofGptPartition] at hsmall
    simp only [Gdisk.sizeofGptPartition, UInt32.toNat_ofNat']
    omega
  have hgp : (gp.flatMap GptPartition.codec.enc).take
      (g.header.partitionsNum.toNat * sizeofGptPartition) = gp.flatMap GptPartition.codec.enc := by
    apply take_of_length_le
    rw [GptPartition.codec.length_flatMap_enc, hlen]
    exact Nat.le_refl _
  have hpart : (partBytes g.part).take (g.header.partitionsNum.toNat * sizeofGptPartition)
      = partBytes g.part := by
    apply take_of_length_le
    rw [Gdisk.length_partBytes, g.length_part]
    exact Nat.le_refl _
  -- both sides checksum their whole array
  show decide (crc32 ((gp.flatMap GptPartition.codec.enc).take
      (g.header.partitionsNum * UInt32.ofNat Gdisk.sizeofGptPartition).toNat)
    = crc32 ((partBytes g.part).take
      (g.header.partitionsNum * UInt32.ofNat Gdisk.sizeofGptPartition).toNat)) = _
  rw [hprod, hgp, hpart]

theorem markCrc_ne {gp : List GptPartition} (hne : gp ≠ g.part.map GptPartition.ofGdisk) :
    markCrc g (gp.flatMap GptPartition.codec.enc) ≠ markCrc g (partBytes g.part) := by
  have hbytes : gp.flatMap GptPartition.codec.enc ≠ partBytes g.part := by
    intro h
    rw [← flatMap_enc_ofGdisk] at h
    exact hne (GptPartition.codec.flatMap_enc_injective (by decide) h)
  simp only [markCrc, if_neg hbytes, if_true]
  decide

/-! ## The kernel on a stored disk -/

section

variable {d' : Disk} (ok : StoreOk d g) (hsize : d'.size = d.size)
include ok hsize

theorem gptTryHeader_primary
    (hone : d'.block 1 = Block.ofBytes (Gdisk.GptHeader.codec.enc (primaryHeader crc32 d g))) :
    gptTryHeader crc32 d' gptsector false =
      if mallocMax < g.header.partitionsNum.toNat * sizeofGptPartition then .error .trap
      else
        let gh := GptHeader.ofGdisk (primaryHeader crc32 d g)
        let gp := kernelArray d' 2 g.header.partitionsNum.toNat
        if gptChkParts crc32 gh gp = false then .ok none else .ok (some (gh, gp)) := by
  have hsz := ok.size_le
  exact gptTryHeader_copyHeader false ok hsize (by rw [gptsector]; omega) _ _ 2 hone
    (by simp only [UInt64.reduceToNat]; omega) (by simp only [UInt64.reduceToNat]; omega)

theorem gptTryHeader_backup (hlast : d'.block (d.size - 1)
      = Block.ofBytes (Gdisk.GptHeader.codec.enc (backupHeader crc32 d g))) :
    gptTryHeader crc32 d' (d.size - 1) true =
      if mallocMax < g.header.partitionsNum.toNat * sizeofGptPartition then .error .trap
      else
        let gh := GptHeader.ofGdisk (backupHeader crc32 d g)
        let gp := kernelArray d' (d.size - (partLbas g + 1)) g.header.partitionsNum.toNat
        if gptChkParts crc32 gh gp = false then .error (.errno .einval)
        else .ok (some (gh, gp)) := by
  have hsz := ok.size_le
  have hlt := d.size_lt
  have hplba : (UInt64.ofNat (d.size - (partLbas g + 1))).toNat = d.size - (partLbas g + 1) :=
    Gdisk.toNat_ofNat_lba (by omega)
  have h := gptTryHeader_copyHeader true ok hsize (by omega) _ 1
    (UInt64.ofNat (d.size - (partLbas g + 1))) hlast (by rw [hplba]; omega)
    (by rw [hplba]; omega)
  rw [hplba] at h
  exact h

theorem gptTable_of_array_eq
    (hone : d'.block 1 = Block.ofBytes (Gdisk.GptHeader.codec.enc (primaryHeader crc32 d g)))
    (hsmall : ¬ mallocMax < g.header.partitionsNum.toNat * sizeofGptPartition)
    (harr : kernelArray d' 2 g.header.partitionsNum.toNat = g.part.map GptPartition.ofGdisk) :
    gptTable crc32 d' = .ok (GptHeader.ofGdisk (primaryHeader crc32 d g),
      g.part.map GptPartition.ofGdisk) := by
  have hchk : gptChkParts crc32 (GptHeader.ofGdisk (primaryHeader crc32 d g))
      (g.part.map GptPartition.ofGdisk) = true := by
    have hlen : (g.part.map GptPartition.ofGdisk).length = g.header.partitionsNum.toNat := by
      rw [length_map, g.length_part]
    rw [primaryHeader, gptChkParts_eq _ _ _ hsmall hlen, flatMap_enc_ofGdisk, decide_eq_true rfl]
  have htry := gptTryHeader_primary ok hsize hone
  simp only [if_neg hsmall, harr, hchk, Bool.true_eq_false, if_false] at htry
  simp only [gptTable, htry, bind, Except.bind, pure, Except.pure]

/-- Both copies are refused under the marking checksum when the kernel does not
    read the whole array from either, if it can allocate it at all. -/
theorem gptTable_of_array_ne (hone : d'.block 1
      = Block.ofBytes (Gdisk.GptHeader.codec.enc (primaryHeader (markCrc g) d g)))
    (hlast : d'.block (d.size - 1)
      = Block.ofBytes (Gdisk.GptHeader.codec.enc (backupHeader (markCrc g) d g)))
    (hne : ¬ mallocMax < g.header.partitionsNum.toNat * sizeofGptPartition →
      kernelArray d' 2 g.header.partitionsNum.toNat ≠ g.part.map GptPartition.ofGdisk ∧
      kernelArray d' (d.size - (partLbas g + 1)) g.header.partitionsNum.toNat
        ≠ g.part.map GptPartition.ofGdisk) : ∃ e, gptTable (markCrc g) d' = .error e := by
  have hprimary := gptTryHeader_primary ok hsize hone
  by_cases hbig : mallocMax < g.header.partitionsNum.toNat * sizeofGptPartition
  · rw [if_pos hbig] at hprimary
    refine ⟨.trap, ?_⟩
    simp only [gptTable, hprimary, bind, Except.bind]
  · obtain ⟨hprim, hback⟩ := hne hbig
    -- under this checksum every other array fails
    have hchk : ∀ (cur bak plba : UInt64) (gp : List GptPartition),
        gp.length = g.header.partitionsNum.toNat → gp ≠ g.part.map GptPartition.ofGdisk →
        gptChkParts (markCrc g) (GptHeader.ofGdisk (copyHeader (markCrc g) d g cur bak plba)) gp
          = false := by
      intro cur bak plba gp hlen hgp
      rw [gptChkParts_eq _ _ _ hbig hlen]
      exact decide_eq_false (markCrc_ne hgp)
    have hbackup := gptTryHeader_backup ok hsize hlast
    rw [if_neg hbig] at hprimary hbackup
    simp only at hprimary hbackup
    -- the primary is passed over, the backup is the last chance
    have hnone := hprimary.trans (if_pos (hchk _ _ _ _ (length_kernelArray ..) hprim))
    have hinval := hbackup.trans (if_pos (hchk _ _ _ _ (length_kernelArray ..) hback))
    refine ⟨.errno .einval, ?_⟩
    simp only [gptTable, hnone, hsize, hinval, bind, Except.bind]

end

/-! ## efiboot on a stored disk -/

/-- The type both readers look for. -/
def isOpenbsd (p : Gdisk.GptPartition) : Bool := p.type = openbsdUuid

theorem type_of_isOpenbsd {p : Gdisk.GptPartition} (h : isOpenbsd p = true) :
    p.type = openbsdUuid := of_decide_eq_true h

theorem packBlock_pad (h : qs.length ≤ 4) :
    packBlock qs = packBlock (qs ++ List.replicate (4 - qs.length) unusedEntry) := by
  have hbytes : ∀ n, partBytes (List.replicate n unusedEntry)
      = List.replicate (n * Gdisk.sizeofGptPartition) 0 := by
    intro n
    induction n with
    | zero => rfl
    | succ n ih =>
      rw [replicate_succ, partBytes, flatMap_cons, ← partBytes, ih,
        Gdisk.enc_unusedEntry, replicate_append_replicate, Nat.succ_mul, Nat.add_comm]
  apply Subtype.ext
  have hlen := Gdisk.length_partBytes qs
  rw [Gdisk.sizeofGptPartition] at hlen
  have hpad : (partBytes (qs ++ List.replicate (4 - qs.length) unusedEntry)).length = devBsize := by
    rw [Gdisk.length_partBytes, length_append, length_replicate, Gdisk.sizeofGptPartition, devBsize]
    omega
  rw [packBlock, packBlock, Block.ofBytes_val (by rw [hlen, devBsize]; omega),
    Block.ofBytes_val (Nat.le_of_eq hpad), hpad, Nat.sub_self, replicate_zero,
    append_nil, Gdisk.partBytes_append, hbytes, hlen]
  congr 2
  rw [devBsize, Gdisk.sizeofGptPartition]
  omega

variable {gh : GptHeader}

/-- efiboot's loop over one packed sector, from entry `k` on. -/
theorem gptScanBlock_full (hps : gh.ghPartSize.toNat = sizeofGptPartition)
    {qs : List Gdisk.GptPartition} (hqs : qs.length = 4) (n k : Nat) (hk : k + n = 4) :
    gptScanBlock gh (packBlock qs).val n k
      = .val (((qs.drop k).find? isOpenbsd).map (·.startLba)) none := by
  induction n generalizing k with
  | zero =>
    rw [drop_of_length_le (by omega)]
    rfl
  | succ n ih =>
    have hlt : k < qs.length := by omega
    -- efiboot steps by the size in the header, gdisk by 128: the same offset
    have hdec : Gdisk.GptPartition.codec.dec ((packBlock qs).val.drop (sizeofGptPartition * k))
        = qs[k] := by
      rw [Nat.mul_comm]
      exact Gdisk.dec_packBlock hlt (by omega)
    have htype : Uuid.codec.dec ((packBlock qs).val.drop (sizeofGptPartition * k))
        = qs[k].type := congrArg Gdisk.GptPartition.type hdec
    have hstart : (GptPartition.codec.dec
        ((packBlock qs).val.drop (sizeofGptPartition * k))).gpLbaStart = qs[k].startLba :=
      congrArg Gdisk.GptPartition.startLba hdec
    -- type and start of entry k lie inside the block
    have hfit : ¬ devBsize < sizeofGptPartition * k + 16 := by
      rw [devBsize, sizeofGptPartition]
      omega
    have hfit' : ¬ devBsize < sizeofGptPartition * k + 40 := by
      rw [devBsize, sizeofGptPartition]
      omega
    simp only [gptScanBlock, hps, if_neg hfit, if_neg hfit', htype, hstart]
    rw [drop_eq_getElem_cons hlt, find?_cons]
    by_cases hty : qs[k].type = openbsdUuid
    · have hyes : isOpenbsd qs[k] = true := decide_eq_true hty
      rw [if_pos hty, hyes]
      rfl
    · have hno : isOpenbsd qs[k] = false := decide_eq_false hty
      rw [if_neg hty, hno, ih (k + 1) (by omega)]

theorem gptScanBlock_packBlock (hps : gh.ghPartSize.toNat = sizeofGptPartition)
    {qs : List Gdisk.GptPartition} (hqs : qs.length ≤ 4) :
    gptScanBlock gh (packBlock qs).val 4 0 = .val ((qs.find? isOpenbsd).map (·.startLba)) none := by
  have hfull : (qs ++ List.replicate (4 - qs.length) unusedEntry).length = 4 := by
    rw [length_append, length_replicate]
    omega
  have hnone : (List.replicate (4 - qs.length) unusedEntry).find? isOpenbsd = none := by
    rw [find?_eq_none]
    intro p hp
    rw [eq_of_mem_replicate hp]
    decide
  rw [packBlock_pad hqs, gptScanBlock_full hps hfull 4 0 rfl, List.drop_zero, find?_append,
    hnone, Option.or_none]

/-- efiboot's loop over the sectors of the array, from sector `j` on. -/
theorem gptScanBlocks_stored {d' : Disk} (hsec : d'.secsize = devBsize)
    (hps : gh.ghPartSize.toNat = sizeofGptPartition) (hpn : gh.ghPartNum = g.header.partitionsNum)
    (hnum : g.header.partitionsNum.toNat < 2 ^ 30) (hroom : 2 + partLbas g ≤ d'.size)
    (hblk : ∀ j, j < partLbas g → d'.block (2 + j) = packBlock (quad g.part j))
    (n j : Nat) (hj : j + n = partLbas g) (fuel : Nat) (hfuel : n < fuel) :
    gptScanBlocks d' gh fuel (4 * j) (2 + j)
      = some (.val (((g.part.drop (4 * j)).find? isOpenbsd).map (·.startLba) |>.getD (-1)) none) := by
  have hpps : gptPartspersec gh = 4 := by
    rw [gptPartspersec, hps]
    decide
  have hblks : efiBlkspersec d' = 1 := by
    rw [efiBlkspersec, hsec]
    decide
  have hsize : ¬ gh.ghPartSize = 0 := by
    intro h
    rw [h] at hps
    exact absurd hps (by decide)
  have hlen := g.length_part
  obtain ⟨fuel, rfl⟩ : ∃ m, fuel = m + 1 := ⟨fuel - 1, by omega⟩
  induction n generalizing j fuel with
  | zero =>
    -- `part` has come to `gh_part_num`
    have hend : g.part.drop (4 * j) = [] := by
      apply drop_of_length_le
      rw [partLbas] at hj
      omega
    have hstop : ¬ 4 * j < gh.ghPartNum.toNat := by
      rw [hpn]
      rw [partLbas] at hj
      omega
    rw [hend, gptScanBlocks, if_neg hstop]
    rfl
  | succ n ih =>
    -- the block number does not exceed 32 bits
    have hoff : efiSectoblk d' (2 + j) % 2 ^ 32 = 2 + j := by
      rw [efiSectoblk, hblks, partLbas] at *
      omega
    have hbuf : d'.sector (2 + j) = (packBlock (quad g.part j)).val := by
      rw [← hblk j (by omega)]
      exact (take_of_length_le (by rw [d'.length_sector, hsec])).symm
    have hquad : (quad g.part j).length ≤ 4 := by
      rw [quad, length_take]
      omega
    -- this block, then the blocks behind it
    have hsplit : g.part.drop (4 * j) = quad g.part j ++ g.part.drop (4 * (j + 1)) := by
      rw [quad, show 4 * (j + 1) = 4 * j + 4 by omega, ← List.drop_drop, take_append_drop]
    have hmore : 4 * j < gh.ghPartNum.toNat := by
      rw [hpn]
      rw [partLbas] at hj
      omega
    -- and `part` does not wrap
    have hpart : (4 * j + 4) % 2 ^ 32 = 4 * (j + 1) := by
      rw [partLbas] at hj
      omega
    simp only [gptScanBlocks, if_pos hmore, hoff,
      efidIo_one hsec (show 2 + j < d'.size by omega), hbuf, if_neg hsize, hpps,
      gptScanBlock_packBlock hps hquad]
    rw [hsplit, find?_append]
    cases hfind : (quad g.part j).find? isOpenbsd with
    | some p => rfl
    | none =>
      simp only [Option.map_none, Option.none_or, hpart]
      obtain ⟨m, rfl⟩ : ∃ m, fuel = m + 1 := ⟨fuel - 1, by omega⟩
      exact ih (j + 1) (by omega) m (by omega)

/-- efiboot finds the first OpenBSD entry of a stored table on 512-byte
    sectors. -/
theorem findopenbsdGpt_stored {d' : Disk} (ok : StoreOk d g) (hsize : d'.size = d.size)
    (hsec : d'.secsize = devBsize) (hnum : g.header.partitionsNum.toNat < 2 ^ 30)
    (hone : d'.block 1 = Block.ofBytes (Gdisk.GptHeader.codec.enc (primaryHeader crc32 d g)))
    (hblk : ∀ j, j < partLbas g → d'.block (2 + j) = packBlock (quad g.part j))
    {p : Gdisk.GptPartition} (hfind : g.part.find? isOpenbsd = some p) :
    findopenbsdGpt d' = .val p.startLba none := by
  have hsz := ok.size_le
  have hlt := d.size_lt
  have hp : p ∈ g.part := mem_of_find?_eq_some hfind
  have hty : p.type = openbsdUuid := type_of_isOpenbsd (find?_some hfind)
  -- the partition found lies in the data area, so that area is not empty
  obtain ⟨h1, h2, h3⟩ := ok.bounds p hp (by rw [hty]; decide)
  rw [UInt64.le_iff_toNat_le] at h2
  have hlbas : 0 < partLbas g := by
    have hlen := g.length_part
    have hpos := length_pos_of_mem hp
    rw [partLbas]
    omega
  have hoff : efiSectoblk d' 1 % 2 ^ 32 = 1 := by
    rw [efiSectoblk, efiBlkspersec, hsec]
    decide
  have hstart : (UInt64.ofNat (partLbas g + 2)).toNat = partLbas g + 2 :=
    Gdisk.toNat_ofNat_lba (by omega)
  have hlt2 : (2 : UInt64) < UInt64.ofNat (partLbas g + 2) := by
    rw [UInt64.lt_iff_toNat_lt, hstart]
    simp only [UInt64.reduceToNat]
    omega
  -- the header passes every test of efiboot
  have hok : EfiHeaderOk d' (GptHeader.ofGdisk (primaryHeader crc32 d g)) := by
    refine ⟨rfl, rfl, ?_, hlt2, ?_⟩
    · show (UInt64.ofNat (partLbas g + 2)).toNat < d'.size - 1
      rw [hstart]
      omega
    · show (g.header.partitionsNum * UInt32.ofNat Gdisk.sizeofGptPartition).toNat / d'.secsize
        ≤ (UInt64.ofNat (partLbas g + 2) - 2).toNat
      have hprod : (g.header.partitionsNum * UInt32.ofNat Gdisk.sizeofGptPartition).toNat
          ≤ g.header.partitionsNum.toNat * 128 := by
        rw [UInt32.toNat_mul]
        exact Nat.mod_le _ _
      rw [UInt64.toNat_sub_of_le _ _ (UInt64.le_of_lt hlt2), hstart, hsec, devBsize, partLbas]
      simp only [UInt64.reduceToNat]
      omega
  have hread : efidIo d' (efiSectoblk d' 1 % 2 ^ 32) 1 = .ok (d'.sector 1) := by
    rw [hoff, efidIo_one hsec (by omega)]
  -- and the scan meets the entries in the order of the table
  have hfuel : partLbas g < 2 ^ 32 := by
    rw [partLbas]
    omega
  have hscan : gptScanBlocks d' (GptHeader.ofGdisk (primaryHeader crc32 d g)) (2 ^ 32) _ _
      = some (.val _ none) :=
    gptScanBlocks_stored hsec rfl rfl hnum (by omega) hblk (partLbas g) 0 (Nat.zero_add _)
      (2 ^ 32) hfuel
  rw [Nat.mul_zero, Nat.add_zero, List.drop_zero, hfind] at hscan
  rw [findopenbsdGpt_eq hread (dec_sector_header hone) hok]
  show (gptScanBlocks d' (GptHeader.ofGdisk (primaryHeader crc32 d g)) (2 ^ 32) 0 2).getD .undef = _
  rw [hscan]
  rfl

/-! ## Agreement -/

/-- Storing `g` on `d` leaves a disk that the kernel accepts and on which kernel
    and efiboot both take entry `i` of the table, at its start LBA. -/
def ReadersAgree (crc32 : List UInt8 → UInt32) (d : Disk) (g : Gpt) (i : Nat) : Prop :=
  ∀ d' g', Gdisk.gptStore crc32 d g = .ok (d', g') →
    ∀ secpercyl bend partoffp, secpercyl ≠ 0 →
      ∃ p place err, g.part[i]? = some p ∧
        readgptlabel crc32 d' secpercyl bend partoffp = .ok place ∧
        place.ourpart = some i ∧ place.partoff = p.startLba.toNat ∧
        findopenbsdGpt d' = .val p.startLba err

/-- The lowest-numbered OpenBSD entry. -/
def firstOpenbsd (g : Gpt) : Option Nat := g.part.findIdx? isOpenbsd

variable {i : Nat}

theorem firstOpenbsd_spec (h : firstOpenbsd g = some i) :
    ∃ p, g.part[i]? = some p ∧ g.part.find? isOpenbsd = some p ∧ p ∈ g.part ∧
      p.type = openbsdUuid := by
  obtain ⟨hi, hp, hfirst⟩ := findIdx?_eq_some_iff_getElem.mp h
  have hfind : g.part.find? isOpenbsd = some g.part[i] := by
    rw [find?_eq_some_iff_getElem]
    exact ⟨hp, i, hi, rfl, fun j hj => by simpa using hfirst j hj⟩
  exact ⟨_, getElem?_eq_getElem hi, hfind, getElem_mem hi, type_of_isOpenbsd hp⟩

theorem gptOurs_ofGdisk (ok : StoreOk d g) {p : Gdisk.GptPartition} (hp : p ∈ g.part) :
    gptOurs (GptHeader.ofGdisk (primaryHeader crc32 d g)) (GptPartition.ofGdisk p)
      = isOpenbsd p := by
  by_cases hty : p.type = openbsdUuid
  · have hlt := d.size_lt
    have hsz := ok.size_le
    obtain ⟨h1, h2, h3⟩ := ok.bounds p hp (by rw [hty]; decide)
    have hyes : isOpenbsd p = true := decide_eq_true hty
    have hlo : ¬ p.startLba < UInt64.ofNat (partLbas g + 2) := by
      rw [UInt64.lt_iff_toNat_lt, UInt64.toNat_ofNat']
      omega
    have hhi : ¬ p.endLba > UInt64.ofNat (d.size - (partLbas g + 2)) := by
      rw [gt_iff_lt, UInt64.lt_iff_toNat_lt, UInt64.toNat_ofNat']
      omega
    rw [hyes]
    -- the three range tests of the kernel pass for every entry gdisk stored
    show (!(decide (p.startLba > p.endLba) ||
      decide (p.startLba < UInt64.ofNat (partLbas g + 2)) ||
      decide (p.endLba > UInt64.ofNat (d.size - (partLbas g + 2)))) &&
      decide (p.type = openbsdUuid)) = true
    rw [decide_eq_false (UInt64.not_lt.mpr h2), decide_eq_false hlo, decide_eq_false hhi,
      decide_eq_true hty]
    rfl
  · have hno : isOpenbsd p = false := decide_eq_false hty
    rw [hno]
    show (_ && decide (p.type = openbsdUuid)) = false
    rw [decide_eq_false hty, Bool.and_false]

theorem gptScan_stored (ok : StoreOk d g) (partoffp : Bool) (slots : List Partition) :
    (gptScan (GptHeader.ofGdisk (primaryHeader crc32 d g)) partoffp 0
      (g.part.map GptPartition.ofGdisk) slots).1 = firstOpenbsd g := by
  have hcongr : ∀ (l : List Gdisk.GptPartition), (∀ p ∈ l, p ∈ g.part) →
      (l.map GptPartition.ofGdisk).findIdx?
        (gptOurs (GptHeader.ofGdisk (primaryHeader crc32 d g))) = l.findIdx? isOpenbsd := by
    intro l hl
    induction l with
    | nil => rfl
    | cons p l ih =>
      rw [map_cons, findIdx?_cons, findIdx?_cons, gptOurs_ofGdisk ok (hl p mem_cons_self),
        ih fun q hq => hl q (mem_cons_of_mem _ hq)]
  rw [gptScan_fst, hcongr g.part fun _ hp => hp, firstOpenbsd]
  cases g.part.findIdx? isOpenbsd <;> rfl

/-- Entries four to a sector, at most 2097120 of them and none lost at the end:
    the readers agree. -/
theorem readersAgree_of (hi : firstOpenbsd g = some i) (hsec : d.secsize = devBsize)
    (hnum : g.header.partitionsNum.toNat ≤ 2097120)
    (htail : ∀ p ∈ g.part.drop (4 * (g.header.partitionsNum.toNat / 4)), p = unusedEntry) :
    ReadersAgree crc32 d g i := by
  intro d' g' hstore secpercyl bend partoffp hcyl
  obtain ⟨ok, rfl, -⟩ := Gdisk.gptStore_ok_iff.mp hstore
  obtain ⟨p, hget, hfind, -, -⟩ := firstOpenbsd_spec hi
  have hsec' : (d.writeAll (copyWrites crc32 d g)).secsize = devBsize := by
    rw [Disk.writeAll_secsize, hsec]
  have hsmall : ¬ mallocMax < g.header.partitionsNum.toNat * sizeofGptPartition := by
    rw [mallocMax, sizeofGptPartition]
    omega
  -- the kernel sees the whole table, since what it does not read is unused
  have harr := (kernelArray_eq_iff hsec' fun j hj => Gdisk.stored_block_primary ok hj).mpr htail
  have htable : gptTable crc32 _ = .ok (GptHeader.ofGdisk (primaryHeader crc32 d g), _) :=
    gptTable_of_array_eq ok (Disk.writeAll_size ..) (Gdisk.stored_block_one ok) hsmall harr
  have hefi : findopenbsdGpt (d.writeAll (copyWrites crc32 d g)) = .val p.startLba none :=
    findopenbsdGpt_stored ok (Disk.writeAll_size ..) hsec' (by omega)
      (Gdisk.stored_block_one ok) (fun j hj => Gdisk.stored_block_primary ok hj) hfind
  -- both take the first OpenBSD entry
  have hscan : (gptScan (GptHeader.ofGdisk (primaryHeader crc32 d g)) partoffp 0
      (g.part.map GptPartition.ofGdisk) []).1 = some i := (gptScan_stored ok partoffp []).trans hi
  have hpos : ¬ (d.writeAll (copyWrites crc32 d g)).secsize = 0 := by
    rw [hsec']
    decide
  have hours : (g.part.map GptPartition.ofGdisk).getD i GptPartition.zero
      = GptPartition.ofGdisk p := by
    rw [getD_eq_getElem?_getD, getElem?_map, hget]
    rfl
  have hlabel : readgptlabel crc32 (d.writeAll (copyWrites crc32 d g)) secpercyl bend partoffp
      = .ok ⟨some i, p.startLba.toNat, (p.endLba + 1).toNat,
        (gptScan (GptHeader.ofGdisk (primaryHeader crc32 d g)) partoffp 0
          (g.part.map GptPartition.ofGdisk) []).2⟩ := by
    simp only [readgptlabel, if_neg hcyl, if_neg hpos, htable, bind, Except.bind, pure,
      Except.pure, hscan, hours]
    rfl
  exact ⟨p, _, none, hget, hlabel, rfl, rfl, hefi⟩

theorem stored_sector_filled {b : Block} (hmem : (lba, b) ∈ copyWrites crc32 (filledDisk d 0xff) g)
    (hsize : 2 * (partLbas g + 1) + 1 ≤ d.size) :
    ((filledDisk d 0xff).writeAll (copyWrites crc32 (filledDisk d 0xff) g)).sector lba
      = b.val ++ List.replicate (d.secsize - devBsize) 0xff := by
  rw [Disk.sector_writeAll_of_mem _ hmem
    (Gdisk.nodup_copyWrites (show _ ≤ (filledDisk d 0xff).size from hsize))]
  show b.val ++ (List.replicate d.secsize 0xff).drop devBsize = _
  rw [drop_replicate]

/-- Otherwise the kernel refuses the disk for some checksum and content. -/
theorem not_readersAgree (ok : StoreOk d g) (hi : firstOpenbsd g = some i)
    (hbad : ¬ (d.secsize = devBsize ∧ g.header.partitionsNum.toNat ≤ 2097120 ∧
      ∀ p ∈ g.part.drop (4 * (g.header.partitionsNum.toNat / 4)), p = unusedEntry)) :
    ¬ ReadersAgree (markCrc g) (filledDisk d 0xff) g i := by
  intro hagree
  have ok' : StoreOk (filledDisk d 0xff) g := Gdisk.storeOk_congr ok rfl
  have hsz := ok.size_le
  obtain ⟨p, -, -, hp, hty⟩ := firstOpenbsd_spec hi
  have hused : ∃ p ∈ g.part, ¬ Gdisk.uuidIsNil p.type := ⟨p, hp, by rw [hty]; decide⟩
  -- neither copy gives the kernel the array whose checksum is stored
  obtain ⟨e, herr⟩ := gptTable_of_array_ne ok' (Disk.writeAll_size ..)
    (Gdisk.stored_block_one ok') (Gdisk.stored_block_last ok') (by
      intro hsmall
      rw [mallocMax, sizeofGptPartition] at hsmall
      by_cases hsec : d.secsize = devBsize
      · -- 512-byte sectors: the entries behind the last whole sector read as zero
        have htail : ¬ ∀ p ∈ g.part.drop (4 * (g.header.partitionsNum.toNat / 4)),
            p = unusedEntry := fun h => hbad ⟨hsec, by omega, h⟩
        have hsec' : ((filledDisk d 0xff).writeAll
            (copyWrites (markCrc g) (filledDisk d 0xff) g)).secsize = devBsize := by
          rw [Disk.writeAll_secsize]
          exact hsec
        exact ⟨fun h => htail ((kernelArray_eq_iff hsec' fun j hj =>
            Gdisk.stored_block_primary ok' hj).mp h),
          fun h => htail ((kernelArray_eq_iff hsec' fun j hj =>
            Gdisk.stored_block_backup ok' hj).mp h)⟩
      · -- larger sectors: the blocks of the table are 0xff behind the first 512 bytes
        have hlarge : devBsize < ((filledDisk d 0xff).writeAll
            (copyWrites (markCrc g) (filledDisk d 0xff) g)).secsize := by
          rw [Disk.writeAll_secsize]
          exact Nat.lt_of_le_of_ne d.devBsize_le (Ne.symm hsec)
        refine ⟨kernelArray_ne_large ok hlarge (fun j hj => ?_) hused,
          kernelArray_ne_large ok hlarge (fun j hj => ?_) hused⟩
        · rw [Disk.writeAll_secsize]
          exact stored_sector_filled (Gdisk.mem_copyWrites.mpr (Or.inl (Or.inr ⟨j, hj, rfl⟩))) hsz
        · rw [Disk.writeAll_secsize]
          exact stored_sector_filled (Gdisk.mem_copyWrites.mpr (Or.inr (Or.inr ⟨j, hj, rfl⟩))) hsz)
  obtain ⟨q, place, err, -, hlabel, -⟩ := hagree _ _
    (Gdisk.gptStore_ok_iff.mpr ⟨ok', rfl, rfl⟩) 1 0 true (by decide)
  have hpos : ¬ ((filledDisk d 0xff).writeAll
      (copyWrites (markCrc g) (filledDisk d 0xff) g)).secsize = 0 := by
    rw [Disk.writeAll_secsize]
    exact Nat.ne_of_gt d.secsize_pos
  simp only [readgptlabel, if_neg hpos, herr, bind, Except.bind, Nat.one_ne_zero, if_false] at hlabel
  cases hlabel

/-- gdisk, kernel and efiboot agree on a table, for every content of the disk
    and every `crc32`, exactly when sectors have 512 bytes, the kernel can
    allocate the array, and no used entry is in a sector that is not full. -/
theorem readersAgree_iff {crc₀ : List UInt8 → UInt32} {d₀ : Disk} {g : Gpt} {r : Disk × Gpt}
    {i : Nat} (hstore : Gdisk.gptStore crc₀ d₀ g = .ok r) (hi : firstOpenbsd g = some i) :
    (∀ crc32 (d : Disk), d.size = d₀.size → d.secsize = d₀.secsize → ReadersAgree crc32 d g i) ↔
      d₀.secsize = devBsize ∧ g.header.partitionsNum.toNat ≤ 2097120 ∧
        ∀ p ∈ g.part.drop (4 * (g.header.partitionsNum.toNat / 4)), p = unusedEntry := by
  obtain ⟨ok, -⟩ := Gdisk.gptStore_ok_iff.mp
    (show Gdisk.gptStore crc₀ d₀ g = .ok (r.1, r.2) from hstore)
  constructor
  · intro h
    by_contra hbad
    exact not_readersAgree ok hi hbad (h (markCrc g) (filledDisk d₀ 0xff) rfl rfl)
  · rintro ⟨hsec, hnum, htail⟩ crc32 d - hd
    exact readersAgree_of hi (hd.trans hsec) hnum htail

theorem firstOpenbsd_openbsdGpt : firstOpenbsd Gdisk.openbsdGpt = some 1 := by decide

/-- A table of five entries, the last one unused, on 512-byte sectors. -/
theorem readersAgree_iff_openbsd :
    (∀ crc32 (d : Disk), d.size = 300 → d.secsize = devBsize →
      ReadersAgree crc32 d Gdisk.openbsdGpt 1) ↔
      devBsize = devBsize ∧ Gdisk.openbsdGpt.header.partitionsNum.toNat ≤ 2097120 ∧
        ∀ p ∈ Gdisk.openbsdGpt.part.drop
          (4 * (Gdisk.openbsdGpt.header.partitionsNum.toNat / 4)), p = unusedEntry := by
  have hstore : Gdisk.gptStore (fun _ => 0) (Gdisk.blankDisk 300 (by decide)) Gdisk.openbsdGpt
      = .ok (_, _) :=
    Gdisk.gptStore_ok_iff.mpr ⟨Gdisk.openbsdGpt_storeOk (by decide), rfl, rfl⟩
  exact readersAgree_iff hstore firstOpenbsd_openbsdGpt

/-- A blank disk of 4096-byte sectors. -/
def blankDisk4k (size : Nat) (h : size < 2 ^ 48) : Disk where
  secsize := 4096
  size := size
  sector _ := List.replicate 4096 0
  secsize_pos := by decide
  secsize_dvd := by decide
  size_lt := h
  length_sector _ := List.length_replicate

/-- The same table on 300 sectors of 4096 bytes is not read by the kernel. -/
theorem kernel_refuses_4k :
    ¬ ReadersAgree (markCrc Gdisk.openbsdGpt) (filledDisk (blankDisk4k 300 (by decide)) 0xff)
      Gdisk.openbsdGpt 1 := by
  apply not_readersAgree (Gdisk.openbsdGpt_storeOk (by decide)) firstOpenbsd_openbsdGpt
  rintro ⟨hsec, -⟩
  exact absurd hsec (by decide)

end OpenBsd.Boot
