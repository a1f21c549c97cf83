/-
  OpenBsd.Gdisk.Interrupt

  `GPT_store` stopped half way.

  The writes before the one that fails leave nothing, or the new primary header with some of
  the new entries, or the new primary copy with some of the new backup.  In the middle case
  the checksum must give the mixture of entries away, so that the old backup copy is loaded.
  It is taken over a 32-bit product of bytes: from 2^25 entries on it no longer covers the
  whole array.
-/

import OpenBsd.Gdisk.RoundTrip

namespace OpenBsd.Gdisk

open OpenBsd.Lib
open List hiding Vector

/-- `GPT_store` with the first `k` of its writes carried out. -/
def gptStoreUpTo (crc32 : List UInt8 → UInt32) (k : Nat) (d : Disk) (g : Gpt) :
    Except Fault Disk := do
  let (ws, _) ← storeWrites crc32 d g
  (ws.take k).foldlM gptWrite d

/-- `crc32` tells the entry array on `d`, behind the primary header of `g`, from
    the array of `g`. -/
def CrcDistinguishes (crc32 : List UInt8 → UInt32) (d : Disk) (g : Gpt) : Prop :=
  entriesOnDisk d 2 g.header.partitionsNum.toNat ≠ g.part →
    crc32 (partBytes (entriesOnDisk d 2 g.header.partitionsNum.toNat)) ≠ crc32 (partBytes g.part)

/-- Whatever table was stored on `d` before, a store of `g` over it can stop
    after any number of writes and the old or the new table is loaded. -/
def InterruptSafe (crc32 : List UInt8 → UInt32) (d : Disk) (g : Gpt) : Prop :=
  ∀ old dOld old', gptStore crc32 d old = .ok (dOld, old') →
    ∀ dNew new', gptStore crc32 dOld g = .ok (dNew, new') →
      ∀ k dk, gptStoreUpTo crc32 k dOld g = .ok dk → CrcDistinguishes crc32 dk g →
        LoadsAs (userLoad crc32 dk) old' ∨ LoadsAs (userLoad crc32 dk) new'

variable {crc32 : List UInt8 → UInt32} {d : Disk} {g : Gpt}

/-! ## What the first writes leave -/

theorem gptStoreUpTo_eq (ok : StoreOk d g) (k : Nat) :
    gptStoreUpTo crc32 k d g = .ok (d.writeAll ((copyWrites crc32 d g).take k)) := by
  simp only [gptStoreUpTo, storeWrites_of_storeOk crc32 ok, bind, Except.bind]
  apply foldlM_gptWrite
  intro w hw
  exact copyWrites_lt_size ok.size_le (mem_of_mem_take hw)

theorem length_storeCopy (h : GptHeader) (g : Gpt) :
    (storeCopy h g.part).length = partLbas g + 1 := by
  rw [storeCopy_eq, length_cons, length_map, length_range, partLbas_eq]

theorem block_take_of_mem (ok : StoreOk d g) {k lba : Nat} {b : Block}
    (h : (lba, b) ∈ (copyWrites crc32 d g).take k) :
    (d.writeAll ((copyWrites crc32 d g).take k)).block lba = b := by
  apply d.block_writeAll_of_mem h
  exact ((take_sublist k _).map Prod.fst).nodup (nodup_copyWrites ok.size_le)

theorem block_take_of_high {k lba : Nat} (hk : k ≤ partLbas g + 1) (hlba : 2 + partLbas g ≤ lba) :
    (d.writeAll ((copyWrites crc32 d g).take k)).block lba = d.block lba := by
  apply d.block_writeAll_of_notMem
  intro hmem
  obtain ⟨w, hw, rfl⟩ := mem_map.mp hmem
  rw [copyWrites, take_append_of_le_length (by rw [length_storeCopy]; exact hk)] at hw
  have hw' := mem_storeCopy.mp (mem_of_mem_take hw)
  rw [primary_currentLba, primary_partitionsLba, partLbas_eq] at hw'
  rcases hw' with rfl | ⟨j, hj, rfl⟩ <;> simp only at hlba <;> omega

theorem block_one_take (ok : StoreOk d g) {k : Nat} (hk : 0 < k) :
    (d.writeAll ((copyWrites crc32 d g).take k)).block 1
      = Block.ofBytes (GptHeader.codec.enc (primaryHeader crc32 d g)) := by
  apply block_take_of_mem ok
  obtain ⟨k, rfl⟩ : ∃ m, k = m + 1 := ⟨k - 1, by omega⟩
  rw [copyWrites, storeCopy_eq, cons_append, take_succ_cons]
  exact mem_cons_self

theorem block_primary_take (ok : StoreOk d g) {k j : Nat} (hj : j < partLbas g) (hk : j + 1 < k) :
    (d.writeAll ((copyWrites crc32 d g).take k)).block (2 + j) = packBlock (quad g.part j) := by
  apply block_take_of_mem ok
  obtain ⟨k, rfl⟩ : ∃ m, k = m + 1 := ⟨k - 1, by omega⟩
  rw [copyWrites, storeCopy_eq, cons_append, take_succ_cons, partLbas_eq]
  apply mem_cons_of_mem
  rw [take_append, ← map_take, take_range]
  apply mem_append_left
  exact mem_map.mpr ⟨j, mem_range.mpr (by omega), rfl⟩

/-! ## Small tables -/

theorem partCrc_primary (hnum : g.header.partitionsNum.toNat < 2 ^ 25) {part : List GptPartition}
    (hlen : part.length = g.header.partitionsNum.toNat) :
    partCrc crc32 (primaryHeader crc32 d g) part = crc32 (partBytes part) := by
  show crc32 ((partBytes part).take (g.header.partitionsNum * UInt32.ofNat sizeofGptPartition).toNat) = _
  have hprod : (g.header.partitionsNum * UInt32.ofNat sizeofGptPartition).toNat
      = g.header.partitionsNum.toNat * sizeofGptPartition := by
    rw [UInt32.toNat_mul]
    exact Nat.mod_eq_of_lt (by simp only [sizeofGptPartition, UInt32.toNat_ofNat']; omega)
  rw [hprod, take_of_length_le]
  rw [length_partBytes, hlen]

variable {d' : Disk}

/-- Behind the primary header of `g`, whatever array is on the disk is loaded if
    its checksum is right. -/
theorem load_primary_array (ok : StoreOk d g) (hsize : d'.size = d.size)
    (hone : d'.block 1 = Block.ofBytes (GptHeader.codec.enc (primaryHeader crc32 d g))) :
    gptLoad crc32 d' false =
      if partCrc crc32 (primaryHeader crc32 d g) (entriesOnDisk d' 2 g.header.partitionsNum.toNat)
          = (primaryHeader crc32 d g).partitionsChecksum then
        .ok ⟨primaryHeader crc32 d g, entriesOnDisk d' 2 g.header.partitionsNum.toNat,
          length_entriesOnDisk ..⟩
      else .error .error := by
  have hsz := ok.size_le
  rw [gptLoad_of_block_one (by omega) hone]
  apply loadTable_eq
  · exact copyHeader_ok ..
  · intro j hj
    have hj' : j < partLbas g := hj
    rw [primary_partitionsLba]
    omega
  · exact ok.num_le

theorem load_mixture (ok : StoreOk d g) (hsize : d'.size = d.size)
    (hnum : g.header.partitionsNum.toNat < 2 ^ 25)
    (hone : d'.block 1 = Block.ofBytes (GptHeader.codec.enc (primaryHeader crc32 d g)))
    (hmix : entriesOnDisk d' 2 g.header.partitionsNum.toNat ≠ g.part)
    (hcrc : CrcDistinguishes crc32 d' g) : gptLoad crc32 d' false = .error .error := by
  rw [load_primary_array ok hsize hone]
  apply if_neg
  have hsum : (primaryHeader crc32 d g).partitionsChecksum = crc32 (partBytes g.part) :=
    partCrc_primary (d := d) hnum g.length_part
  rw [hsum, partCrc_primary hnum (length_entriesOnDisk ..)]
  exact hcrc hmix

theorem userLoad_of_ok {g₁ : Gpt} (h : gptLoad crc32 d false = .ok g₁) :
    userLoad crc32 d = .ok g₁ := by
  rw [userLoad, h]

theorem userLoad_of_error (h : gptLoad crc32 d false = .error .error) :
    userLoad crc32 d = gptLoad crc32 d true := by
  rw [userLoad, h]

/-- The primary writes of a new table spare the old backup copy, and the new
    header leads to it. -/
theorem load_old_backup {old : Gpt} {k : Nat} (okOld : StoreOk d old) (hsize : d.size < 2 ^ 31)
    (ok : StoreOk (d.writeAll (copyWrites crc32 d old)) g)
    (hk : 0 < k) (hk' : k ≤ partLbas g + 1) :
    gptLoad crc32 ((d.writeAll (copyWrites crc32 d old)).writeAll
      ((copyWrites crc32 (d.writeAll (copyWrites crc32 d old)) g).take k)) true
        = .ok (storedGpt crc32 d old) := by
  have hold := okOld.size_le
  have hnew := ok.size_le
  rw [Disk.writeAll_size] at hnew
  apply load_backup okOld
  · rw [Disk.writeAll_size, Disk.writeAll_size]
  · -- the new header names the same last block as the old one
    have hlast : (primaryHeader crc32 (d.writeAll (copyWrites crc32 d old)) g).backupLba
        = UInt64.ofNat (d.size - 1) := by
      show UInt64.ofNat ((d.writeAll (copyWrites crc32 d old)).size - 1) = _
      rw [Disk.writeAll_size]
    have hle : (UInt64.ofNat (d.size - 1)).toNat ≤ intMax := by
      rw [toNat_last]
      simp only [intMax]
      omega
    rw [block_one_take ok hk, dec_ofBytes_header, hlast, u64OfInt_small hle, toNat_last]
  · -- the writes so far did not reach the backup
    rw [block_take_of_high hk' (by omega), stored_block_last okOld]
  · intro j hj
    rw [block_take_of_high hk' (by omega), stored_block_backup okOld hj]

theorem interruptSafe_of_num_lt (hsize : d.size < 2 ^ 31)
    (hnum : g.header.partitionsNum.toNat < 2 ^ 25) : InterruptSafe crc32 d g := by
  intro old dOld old' hOld dNew new' hNew k dk hk hcrc
  obtain ⟨okOld, rfl, rfl⟩ := gptStore_ok_iff.mp hOld
  obtain ⟨ok, rfl, rfl⟩ := gptStore_ok_iff.mp hNew
  rw [gptStoreUpTo_eq ok, Except.ok.injEq] at hk
  subst hk
  by_cases hk0 : k = 0
  · -- nothing written: the old primary copy
    subst hk0
    left
    rw [take_zero, Disk.writeAll_nil, userLoad_of_ok (load_stored_primary okOld)]
    exact loadsAs_primary d old
  have hone := @block_one_take crc32 _ _ ok k (Nat.pos_of_ne_zero hk0)
  by_cases hall : partLbas g + 1 ≤ k
  · -- the primary copy is complete
    right
    rw [userLoad_of_ok (load_primary ok (Disk.writeAll_size ..) hone
      fun j hj => block_primary_take ok hj (by omega))]
    exact loadsAs_primary _ g
  by_cases hsame : entriesOnDisk ((d.writeAll (copyWrites crc32 d old)).writeAll
      ((copyWrites crc32 (d.writeAll (copyWrites crc32 d old)) g).take k)) 2
        g.header.partitionsNum.toNat = g.part
  · -- the sectors not yet written already held the new entries
    right
    have hload := load_primary_array ok (Disk.writeAll_size ..) hone
    rw [userLoad_of_ok (hload.trans (if_pos (by rw [hsame]; rfl)))]
    exact ⟨_, rfl, hsame, rfl, rfl, rfl, rfl⟩
  · -- a mixture: its checksum is wrong, and the old backup copy is whole
    left
    rw [userLoad_of_error (load_mixture ok (Disk.writeAll_size ..) hnum hone hsame hcrc),
      load_old_backup okOld hsize ok (Nat.pos_of_ne_zero hk0) (by omega)]
    exact ⟨_, rfl, rfl, rfl, rfl, rfl, rfl⟩

/-! ## Large tables -/

/-- The same disk with every byte set to `b`. -/
def filledDisk (d : Disk) (b : UInt8) : Disk :=
  { d with
    sector := fun _ => List.replicate d.secsize b
    length_sector := fun _ => List.length_replicate }

theorem filledDisk_block (d : Disk) (b : UInt8) (lba : Nat) :
    ((filledDisk d b).block lba).val = List.replicate devBsize b := by
  have hle := d.devBsize_le
  simp only [filledDisk, Disk.block, take_replicate]
  rw [Nat.min_eq_left hle]

/-- A table without entries. -/
def emptyGpt : Gpt where
  header := ⟨gptSignature, gptRevision, 92, 0, 0, 1, 0, 0, 0, Uuid.nil, 2, 0, 128, 0⟩
  part := []
  length_part := List.length_nil

theorem emptyGpt_storeOk (h : 3 ≤ d.size) : StoreOk d emptyGpt :=
  ⟨Or.inl rfl, by decide, h, fun _ hp => absurd hp not_mem_nil⟩

/-- A checksum that is 1 on the entries of `g` and 0 elsewhere. -/
def markCrc (g : Gpt) (bs : List UInt8) : UInt32 := if bs = partBytes g.part then 1 else 0

theorem markCrc_distinguishes (d : Disk) (g : Gpt) : CrcDistinguishes (markCrc g) d g := by
  intro hne
  have hbytes : partBytes (entriesOnDisk d 2 g.header.partitionsNum.toNat) ≠ partBytes g.part :=
    fun h => hne (GptPartition.codec.flatMap_enc_injective (by decide) h)
  simp only [markCrc, if_neg hbytes, if_true]
  decide

/-- The entry whose bytes are all 0xff. -/
def fullEntry : GptPartition :=
  ⟨⟨0xffffffff, 0xffff, 0xffff, 0xff, 0xff, Vector.replicate 6 0xff⟩,
    ⟨0xffffffff, 0xffff, 0xffff, 0xff, 0xff, Vector.replicate 6 0xff⟩,
    0xffffffffffffffff, 0xffffffffffffffff, 0xffffffffffffffff, Vector.replicate 36 0xffff⟩

theorem enc_unusedEntry :
    GptPartition.codec.enc unusedEntry = List.replicate sizeofGptPartition 0 := by decide

theorem enc_fullEntry :
    GptPartition.codec.enc fullEntry = List.replicate sizeofGptPartition 0xff := by decide

theorem exists_filler (p : GptPartition) :
    ∃ b e, GptPartition.codec.enc e = List.replicate sizeofGptPartition b ∧ e ≠ p := by
  by_cases hp : p = unusedEntry
  · refine ⟨0xff, fullEntry, enc_fullEntry, fun heq => ?_⟩
    rw [hp] at heq
    have hstart : fullEntry.startLba = unusedEntry.startLba := by rw [heq]
    exact absurd hstart (by decide)
  · exact ⟨0, unusedEntry, enc_unusedEntry, Ne.symm hp⟩

variable {b : UInt8}

theorem entryOnDisk_filled {e : GptPartition} {lba i : Nat}
    (he : GptPartition.codec.enc e = List.replicate sizeofGptPartition b)
    (hblk : (d.block (lba + i / 4)).val = List.replicate devBsize b) :
    entryOnDisk d lba i = e := by
  have hfit : devBsize - i % 4 * sizeofGptPartition
      = sizeofGptPartition + (devBsize - i % 4 * sizeofGptPartition - sizeofGptPartition) := by
    simp only [devBsize, sizeofGptPartition]
    omega
  have hsplit : List.replicate (devBsize - i % 4 * sizeofGptPartition) b
      = GptPartition.codec.enc e
        ++ List.replicate (devBsize - i % 4 * sizeofGptPartition - sizeofGptPartition) b := by
    rw [he, replicate_append_replicate, ← hfit]
  rw [entryOnDisk, hblk, drop_replicate, hsplit, GptPartition.codec.dec_enc]

/-- The disk of an interrupted store: `b` everywhere, a table without entries on
    it, and of the table `g` all primary writes but the last. -/
def cutDisk (d : Disk) (b : UInt8) (g : Gpt) : Disk :=
  let dOld := (filledDisk d b).writeAll (copyWrites (markCrc g) (filledDisk d b) emptyGpt)
  dOld.writeAll ((copyWrites (markCrc g) dOld g).take (partLbas g))

theorem storeOk_congr (ok : StoreOk d g) (h : d'.size = d.size) : StoreOk d' g :=
  ⟨ok.lba1, ok.num_le, h ▸ ok.size_le, h ▸ ok.bounds⟩

theorem cutDisk_entry (ok : StoreOk d g) {i : Nat} (hi : i < g.part.length)
    (hlt : i / 4 + 1 < partLbas g) : entryOnDisk (cutDisk d b g) 2 i = g.part[i] := by
  obtain ⟨hq, hget⟩ := quad_getElem hi
  have hle : (quad g.part (i / 4)).length ≤ 4 := by
    rw [quad, length_take]
    omega
  have hblk : (cutDisk d b g).block (2 + i / 4) = packBlock (quad g.part (i / 4)) :=
    block_primary_take (storeOk_congr ok (Disk.writeAll_size (filledDisk d b) _)) (by omega) hlt
  rw [entryOnDisk, hblk, dec_packBlock hq hle, hget]

theorem cutDisk_block (ok : StoreOk d g) (hpos : 0 < partLbas g) :
    ((cutDisk d b g).block (2 + (partLbas g - 1))).val = List.replicate devBsize b := by
  have hsz := ok.size_le
  -- the interrupted store did not get to the last sector of the array
  have hnew : (cutDisk d b g).block (2 + (partLbas g - 1))
      = ((filledDisk d b).writeAll (copyWrites (markCrc g) (filledDisk d b) emptyGpt)).block
          (2 + (partLbas g - 1)) := by
    apply Disk.block_writeAll_of_notMem
    intro hmem
    obtain ⟨w, hw, hw1⟩ := mem_map.mp hmem
    obtain ⟨n, hn⟩ : ∃ n, partLbas g = n + 1 := ⟨partLbas g - 1, by omega⟩
    rw [copyWrites, take_append_of_le_length (by rw [length_storeCopy]; omega), storeCopy_eq,
      partLbas_eq, hn, take_succ_cons, ← map_take, take_range] at hw
    rcases mem_cons.mp hw with rfl | hw
    · rw [primary_currentLba] at hw1
      omega
    · obtain ⟨j, hj, rfl⟩ := mem_map.mp hw
      rw [mem_range] at hj
      rw [primary_partitionsLba] at hw1
      omega
  -- nor did the empty table have one
  have hold : ((filledDisk d b).writeAll (copyWrites (markCrc g) (filledDisk d b) emptyGpt)).block
      (2 + (partLbas g - 1)) = (filledDisk d b).block (2 + (partLbas g - 1)) := by
    apply Disk.block_writeAll_of_notMem
    intro hmem
    have hsize : (filledDisk d b).size = d.size := rfl
    rcases mem_copyWrites_fst.mp hmem with (h | ⟨j, hj, h⟩) | (h | ⟨j, hj, h⟩)
    · omega
    · exact absurd hj (Nat.not_lt_zero j)
    · omega
    · exact absurd hj (Nat.not_lt_zero j)
  rw [hnew, hold, filledDisk_block]

/-- From 2^25 entries on the product that bounds the checksum has wrapped; the
    entries it covers were all written before the cut. -/
theorem cutDisk_checksum (ok : StoreOk d g)
    (hnum : 2 ^ 25 ≤ g.header.partitionsNum.toNat) :
    (partBytes (entriesOnDisk (cutDisk d b g) 2 g.header.partitionsNum.toNat)).take
        (g.header.partitionsNum * UInt32.ofNat sizeofGptPartition).toNat
      = (partBytes g.part).take
        (g.header.partitionsNum * UInt32.ofNat sizeofGptPartition).toNat := by
  have hlt := g.header.partitionsNum.toNat_lt
  -- the length of the checksummed bytes wraps
  have hprod : (g.header.partitionsNum * UInt32.ofNat sizeofGptPartition).toNat
      = g.header.partitionsNum.toNat % 2 ^ 25 * GptPartition.codec.size := by
    rw [UInt32.toNat_mul]
    simp only [sizeofGptPartition, UInt32.toNat_ofNat', GptPartition.codec_size]
    omega
  rw [hprod, partBytes, partBytes, GptPartition.codec.take_flatMap_enc,
    GptPartition.codec.take_flatMap_enc]
  congr 1
  -- what it covers are entries that were written
  apply ext_getElem
  · simp only [length_take, length_entriesOnDisk, g.length_part]
  · intro i hi hi'
    simp only [length_take, length_entriesOnDisk] at hi
    simp only [getElem_take, entriesOnDisk, getElem_map, getElem_range]
    apply cutDisk_entry ok
    rw [partLbas]
    omega

/-- From 2^25 entries on a cut in front of the last primary sector can go
    unnoticed. -/
theorem not_interruptSafe (ok : StoreOk d g) (hnum : 2 ^ 25 ≤ g.header.partitionsNum.toNat)
    {b : UInt8} {e : GptPartition}
    (he : GptPartition.codec.enc e = List.replicate sizeofGptPartition b)
    (hne : g.part.getLast? ≠ some e) : ¬ InterruptSafe (markCrc g) (filledDisk d b) g := by
  intro hsafe
  have hsz := ok.size_le
  have hpos : 0 < partLbas g := by
    rw [partLbas]
    omega
  have okOld : StoreOk (filledDisk d b) emptyGpt := emptyGpt_storeOk (show 3 ≤ d.size by omega)
  have okNew : StoreOk ((filledDisk d b).writeAll
      (copyWrites (markCrc g) (filledDisk d b) emptyGpt)) g :=
    storeOk_congr ok (Disk.writeAll_size (filledDisk d b) _)
  have hsize : (cutDisk d b g).size = ((filledDisk d b).writeAll
      (copyWrites (markCrc g) (filledDisk d b) emptyGpt)).size := Disk.writeAll_size ..
  -- the mixture is not the new table: its last entry is the filler
  have hmix : entriesOnDisk (cutDisk d b g) 2 g.header.partitionsNum.toNat ≠ g.part := by
    intro heq
    apply hne
    rw [← heq, getLast?_eq_getElem?, length_entriesOnDisk]
    have hi : g.header.partitionsNum.toNat - 1
        < (entriesOnDisk (cutDisk d b g) 2 g.header.partitionsNum.toNat).length := by
      rw [length_entriesOnDisk]
      omega
    rw [getElem?_eq_getElem hi]
    simp only [entriesOnDisk, getElem_map, getElem_range]
    rw [entryOnDisk_filled he]
    rw [show (g.header.partitionsNum.toNat - 1) / 4 = partLbas g - 1 by rw [partLbas]; omega]
    exact cutDisk_block ok hpos
  have hload : gptLoad (markCrc g) (cutDisk d b g) false = .ok ⟨_, _, length_entriesOnDisk ..⟩ :=
    (load_primary_array okNew hsize (block_one_take okNew hpos)).trans
      (if_pos (congrArg (markCrc g) (cutDisk_checksum ok hnum)))
  have hor := hsafe emptyGpt _ _ (gptStore_ok_iff.mpr ⟨okOld, rfl, rfl⟩) _ _
    (gptStore_ok_iff.mpr ⟨okNew, rfl, rfl⟩) (partLbas g) (cutDisk d b g)
    (gptStoreUpTo_eq okNew _) (markCrc_distinguishes _ g)
  rw [userLoad_of_ok hload] at hor
  rcases hor with ⟨g₁, hg₁, hpart, -⟩ | ⟨g₁, hg₁, hpart, -⟩
  · rw [Except.ok.injEq] at hg₁
    subst hg₁
    have hlen : (entriesOnDisk (cutDisk d b g) 2 g.header.partitionsNum.toNat).length = 0 :=
      congrArg List.length hpart
    rw [length_entriesOnDisk] at hlen
    omega
  · rw [Except.ok.injEq] at hg₁
    subst hg₁
    exact hmix hpart

/-- A table of `g`'s kind survives every interruption of its store, over every
    old table and every disk content, exactly when the 32-bit product that
    bounds its checksum does not wrap. -/
theorem interruptSafe_iff {crc₀ : List UInt8 → UInt32} {d₀ : Disk} {g : Gpt} {r : Disk × Gpt}
    (hstore : gptStore crc₀ d₀ g = .ok r) (hsize : d₀.size < 2 ^ 31) :
    (∀ crc32 (d : Disk), d.size = d₀.size → d.secsize = d₀.secsize → InterruptSafe crc32 d g) ↔
      g.header.partitionsNum.toNat < 2 ^ 25 := by
  obtain ⟨ok, -⟩ := gptStore_ok_iff.mp (show gptStore crc₀ d₀ g = .ok (r.1, r.2) from hstore)
  constructor
  · intro h
    by_contra hnum
    -- a table so large is not empty
    have hne : g.part ≠ [] := by
      intro hnil
      have hlen := g.length_part
      rw [hnil, length_nil] at hlen
      omega
    -- a disk filled with something other than the last entry
    obtain ⟨b, e, he, hlast⟩ := exists_filler (g.part.getLast hne)
    refine not_interruptSafe ok (Nat.not_lt.mp hnum) he ?_ (h (markCrc g) (filledDisk d₀ b) rfl rfl)
    rw [getLast?_eq_some_getLast hne, Ne, Option.some.injEq]
    exact Ne.symm hlast
  · intro hnum crc32 d hd _
    exact interruptSafe_of_num_lt (by rw [hd]; exact hsize) hnum

/-- The blank table survives. -/
theorem interruptSafe_iff_blank :
    (∀ crc32 (d : Disk), d.size = 100 → d.secsize = devBsize → InterruptSafe crc32 d blankGpt) ↔
      blankGpt.header.partitionsNum.toNat < 2 ^ 25 :=
  interruptSafe_iff (gptStore_blank (fun _ => 0) (d := blankDisk 100 (by decide)) (by decide))
    (by decide)

/-- A table of 2^25 unused entries. -/
def hugeGpt : Gpt where
  header := ⟨gptSignature, gptRevision, 92, 0, 0, 1, 0, 0, 0, Uuid.nil, 2, 0x2000000, 128, 0⟩
  part := List.replicate 0x2000000 unusedEntry
  length_part := List.length_replicate

theorem hugeGpt_storeOk (h : 2 ^ 25 ≤ d.size) : StoreOk d hugeGpt := by
  have hlbas : partLbas hugeGpt = 2 ^ 23 := by decide
  refine ⟨Or.inl rfl, by decide, by rw [hlbas]; omega, ?_⟩
  intro p hp hnil
  rw [eq_of_mem_replicate hp] at hnil
  exact absurd rfl hnil

/-- Stored over a table without entries on a disk of 2^25 sectors of 0xff, and
    cut in front of its last primary sector, the huge table is loaded with four
    entries that are in neither table. -/
theorem huge_table_mixed :
    ¬ InterruptSafe (markCrc hugeGpt) (filledDisk (blankDisk (2 ^ 25) (by decide)) 0xff)
      hugeGpt := by
  apply not_interruptSafe (hugeGpt_storeOk (Nat.le_refl _)) (Nat.le_refl _) enc_fullEntry
  intro hlast
  have hmem : fullEntry ∈ hugeGpt.part := mem_of_getLast? hlast
  have heq : fullEntry = unusedEntry := eq_of_mem_replicate hmem
  exact absurd (congrArg GptPartition.startLba heq) (by decide)

end OpenBsd.Gdisk
