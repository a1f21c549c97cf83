/-
  OpenBsd.Gdisk.RoundTrip

  Reading back what `GPT_store` wrote.

  The primary copy always comes back.  The backup copy is found through an `int` and the
  sector at LBA 1 (`load_backup_foreign`), so another sector may be read in its place; there
  is always a `crc32` for which that is no header (`loadTable_reject`).
-/

import OpenBsd.Gdisk.Layout

namespace OpenBsd.Gdisk

open OpenBsd.Lib

variable {crc32 : List UInt8 → UInt32} {d : Disk} {g : Gpt}

/-! ## The stored copies -/

theorem dec_ofBytes_header (h : GptHeader) :
    GptHeader.codec.dec (Block.ofBytes (GptHeader.codec.enc h)).val = h := by
  have hlen : (GptHeader.codec.enc h).length ≤ devBsize := by
    rw [GptHeader.codec.length_enc]
    decide
  rw [Block.ofBytes_val hlen, GptHeader.codec.dec_enc]

theorem stored_block_one (ok : StoreOk d g) :
    (d.writeAll (copyWrites crc32 d g)).block 1
      = Block.ofBytes (GptHeader.codec.enc (primaryHeader crc32 d g)) :=
  d.block_writeAll_of_mem (mem_copyWrites.mpr (Or.inl (Or.inl rfl))) (nodup_copyWrites ok.size_le)

theorem stored_block_primary (ok : StoreOk d g) {j : Nat} (hj : j < partLbas g) :
    (d.writeAll (copyWrites crc32 d g)).block (2 + j) = packBlock (quad g.part j) :=
  d.block_writeAll_of_mem (mem_copyWrites.mpr (Or.inl (Or.inr ⟨j, hj, rfl⟩)))
    (nodup_copyWrites ok.size_le)

theorem stored_block_last (ok : StoreOk d g) :
    (d.writeAll (copyWrites crc32 d g)).block (d.size - 1)
      = Block.ofBytes (GptHeader.codec.enc (backupHeader crc32 d g)) :=
  d.block_writeAll_of_mem (mem_copyWrites.mpr (Or.inr (Or.inl rfl))) (nodup_copyWrites ok.size_le)

theorem stored_block_backup (ok : StoreOk d g) {j : Nat} (hj : j < partLbas g) :
    (d.writeAll (copyWrites crc32 d g)).block (d.size - (partLbas g + 1) + j)
      = packBlock (quad g.part j) :=
  d.block_writeAll_of_mem (mem_copyWrites.mpr (Or.inr (Or.inr ⟨j, hj, rfl⟩)))
    (nodup_copyWrites ok.size_le)

variable {d' : Disk}

/-- Any header of the stored table loads as that table from a disk whose
    sectors at `plba` hold its entries. -/
theorem loadTable_copy (ok : StoreOk d g) (buf : Block) (cur bak plba : UInt64)
    (hlba : ∀ j, j < partLbas g → plba.toNat + j < d'.size)
    (hblk : ∀ j, j < partLbas g → d'.block (plba.toNat + j) = packBlock (quad g.part j)) :
    loadTable crc32 d' (copyHeader crc32 d g cur bak plba) buf
      = .ok ⟨copyHeader crc32 d g cur bak plba, g.part, g.length_part⟩ := by
  apply loadTable_copyHeader buf ok.num_le hlba
  rw [← g.length_part]
  apply entriesOnDisk_of_blocks
  rw [partLbas_eq]
  exact hblk

/-- The table as `GPT_load` returns it from the primary copy. -/
def primaryGpt (crc32 : List UInt8 → UInt32) (d : Disk) (g : Gpt) : Gpt :=
  ⟨primaryHeader crc32 d g, g.part, g.length_part⟩

theorem gptLoad_of_block_one {h : GptHeader} (hsize : 1 < d'.size)
    (hone : d'.block 1 = Block.ofBytes (GptHeader.codec.enc h)) :
    gptLoad crc32 d' false = loadTable crc32 d' h (d'.block 1) := by
  have hread : gptRead d' 1 = .ok (d'.block 1) := gptRead_ok hsize
  simp only [gptLoad, loadHeader, if_neg (Nat.not_le.mpr hsize), bind, Except.bind, pure,
    Except.pure, hread, Bool.false_eq_true, if_false]
  rw [hone, dec_ofBytes_header]

theorem load_primary (ok : StoreOk d g) (hsize : d'.size = d.size)
    (hone : d'.block 1 = Block.ofBytes (GptHeader.codec.enc (primaryHeader crc32 d g)))
    (hblk : ∀ j, j < partLbas g → d'.block (2 + j) = packBlock (quad g.part j)) :
    gptLoad crc32 d' false = .ok (primaryGpt crc32 d g) := by
  have hsz := ok.size_le
  rw [gptLoad_of_block_one (by omega) hone]
  exact loadTable_copy ok (d'.block 1) 1 (UInt64.ofNat (d.size - 1)) 2
    (fun j hj => by simp only [UInt64.reduceToNat]; omega) hblk

/-- A disk that still has the backup copy loads it, provided LBA 1 leads to the
    last sector. -/
theorem load_backup (ok : StoreOk d g) (hsize : d'.size = d.size)
    (hone : u64OfInt (GptHeader.codec.dec (d'.block 1).val).backupLba = d.size - 1)
    (hlast : d'.block (d.size - 1)
      = Block.ofBytes (GptHeader.codec.enc (backupHeader crc32 d g)))
    (hblk : ∀ j, j < partLbas g →
      d'.block (d.size - (partLbas g + 1) + j) = packBlock (quad g.part j)) :
    gptLoad crc32 d' true = .ok (storedGpt crc32 d g) := by
  have hsz := ok.size_le
  have hlt := d.size_lt
  -- block 1 is read for the place of the backup, then the last block
  have hread : gptRead d' 1 = .ok (d'.block 1) := gptRead_ok (by omega)
  have hread' : gptRead d' (d.size - 1) = .ok (d'.block (d.size - 1)) := gptRead_ok (by omega)
  have hsmall : ¬ d'.size ≤ 1 := by omega
  have hfar : ¬ d'.size ≤ d.size - 1 := by omega
  have hplba : (UInt64.ofNat (d.size - (partLbas g + 1))).toNat = d.size - (partLbas g + 1) :=
    toNat_ofNat_lba (by omega)
  -- from there on a copy loads as the primary does
  have hload : loadTable crc32 d' (backupHeader crc32 d g) (d'.block (d.size - 1))
      = .ok (storedGpt crc32 d g) :=
    loadTable_copy ok _ _ 1 _ (fun j hj => by rw [hplba]; omega) (by rw [hplba]; exact hblk)
  simp only [gptLoad, loadHeader, if_neg hsmall, bind, Except.bind, pure, Except.pure, hread,
    if_true, hone, if_neg hfar, hread', hlast, dec_ofBytes_header]
  rw [hlast] at hload
  exact hload

/-! ## The backup LBA in an `int` -/

theorem u64OfInt_small {v : UInt64} (h : v.toNat ≤ intMax) : u64OfInt v = v.toNat := by
  simp only [intMax] at h
  have hlow : v.toNat % 2 ^ 32 = v.toNat := Nat.mod_eq_of_lt (by omega)
  simp only [u64OfInt, hlow, intMax]
  rw [if_pos h]

theorem u64OfInt_ge {v : UInt64} (h : intMax < v.toNat % 2 ^ 32) : 2 ^ 48 ≤ u64OfInt v := by
  simp only [u64OfInt]
  rw [if_neg (Nat.not_le.mpr h)]
  omega

theorem succ_ne_self_u32 (c : UInt32) : c + 1 ≠ c := by
  intro h
  have hn := congrArg UInt32.toNat h
  rw [UInt32.toNat_add] at hn
  have := c.toNat_lt
  simp only [UInt32.reduceToNat] at hn
  omega

theorem loadTable_reject (d : Disk) {h : GptHeader} {c : UInt32} (buf : Block)
    (hc : c ≠ h.headerChecksum) : loadTable (fun _ => c) d h buf = .error .error :=
  loadTable_error buf (Or.inr hc)

/-- With `alt`, a sector other than the one `int offset` names plays no part;
    if that sector is past the end, or no header for this `crc32`, the load
    fails. -/
theorem load_backup_foreign {c : UInt32}
    (hc : ∀ o, o = u64OfInt (GptHeader.codec.dec (d'.block 1).val).backupLba → o < d'.size →
      c ≠ (GptHeader.codec.dec (d'.block o).val).headerChecksum) :
    gptLoad (fun _ => c) d' true = .error .error := by
  simp only [gptLoad, loadHeader, bind, Except.bind, pure, Except.pure, if_true]
  -- no block 1, no block at the place it names, or a header with a wrong checksum
  by_cases hsmall : d'.size ≤ 1
  · rw [if_pos hsmall]
    rfl
  have hread : gptRead d' 1 = .ok (d'.block 1) := gptRead_ok (by omega)
  rw [if_neg hsmall, hread]
  simp only
  by_cases hfar : d'.size ≤ u64OfInt (GptHeader.codec.dec (d'.block 1).val).backupLba
  · rw [if_pos hfar]
    rfl
  · rw [if_neg hfar, gptRead_ok (Nat.not_le.mp hfar)]
    exact loadTable_reject d' _ (hc _ rfl (Nat.not_le.mp hfar))

/-! ## The round trip -/

/-- A load returned 0 with the partition array of `g` and its identity. -/
def LoadsAs (r : Except Fault Gpt) (g : Gpt) : Prop :=
  ∃ g₁, r = .ok g₁ ∧ g₁.part = g.part ∧ g₁.header.guid = g.header.guid ∧
    g₁.header.partitionsNum = g.header.partitionsNum ∧
    g₁.header.startLba = g.header.startLba ∧ g₁.header.endLba = g.header.endLba

/-- If storing `g` on `d` returns 0, both copies load as the stored table. -/
def RoundTrips (crc32 : List UInt8 → UInt32) (d : Disk) (g : Gpt) : Prop :=
  ∀ d' g', gptStore crc32 d g = .ok (d', g') →
    LoadsAs (gptLoad crc32 d' false) g' ∧ LoadsAs (gptLoad crc32 d' true) g'

theorem loadsAs_primary (d : Disk) (g : Gpt) :
    LoadsAs (.ok (primaryGpt crc32 d g)) (storedGpt crc32 d g) :=
  ⟨_, rfl, rfl, rfl, rfl, rfl, rfl⟩

theorem load_stored_primary (ok : StoreOk d g) :
    gptLoad crc32 (d.writeAll (copyWrites crc32 d g)) false = .ok (primaryGpt crc32 d g) :=
  load_primary ok (Disk.writeAll_size ..) (stored_block_one ok) fun _ hj => stored_block_primary ok hj

theorem stored_backupLba (ok : StoreOk d g) :
    (GptHeader.codec.dec ((d.writeAll (copyWrites crc32 d g)).block 1).val).backupLba
      = UInt64.ofNat (d.size - 1) := by
  rw [stored_block_one ok, dec_ofBytes_header]
  rfl

theorem stored_offset (ok : StoreOk d g) :
    u64OfInt (GptHeader.codec.dec ((d.writeAll (copyWrites crc32 d g)).block 1).val).backupLba
      = u64OfInt (UInt64.ofNat (d.size - 1)) := by
  rw [stored_backupLba ok]

theorem toNat_last (d : Disk) : (UInt64.ofNat (d.size - 1)).toNat = d.size - 1 :=
  toNat_ofNat_lba (by have := d.size_lt; omega)

theorem roundTrips_of_size_le (hsize : d.size ≤ 2 ^ 31) : RoundTrips crc32 d g := by
  intro d' g' hstore
  obtain ⟨ok, rfl, rfl⟩ := gptStore_ok_iff.mp hstore
  rw [load_stored_primary ok]
  refine ⟨loadsAs_primary d g, ?_⟩
  -- the address of the last block fits an int
  have hoff : u64OfInt (UInt64.ofNat (d.size - 1)) = d.size - 1 := by
    have hle : (UInt64.ofNat (d.size - 1)).toNat ≤ intMax := by
      rw [toNat_last]
      simp only [intMax]
      omega
    rw [u64OfInt_small hle, toNat_last]
  have hload : gptLoad crc32 (d.writeAll (copyWrites crc32 d g)) true = .ok (storedGpt crc32 d g) :=
    load_backup ok (Disk.writeAll_size ..) (by rw [stored_offset ok, hoff])
      (stored_block_last ok) fun _ hj => stored_block_backup ok hj
  rw [hload]
  exact ⟨_, rfl, rfl, rfl, rfl, rfl, rfl⟩

/-- When the last LBA is 1 modulo 2^32 the `int` leads back to the primary
    header, and the primary copy is loaded twice. -/
theorem roundTrips_of_size_mod (hsize : d.size % 2 ^ 32 = 2) : RoundTrips crc32 d g := by
  intro d' g' hstore
  obtain ⟨ok, rfl, rfl⟩ := gptStore_ok_iff.mp hstore
  have hload : gptLoad crc32 _ false = .ok (primaryGpt crc32 d g) := load_stored_primary ok
  -- converted to int it is 1: both loads read the primary
  have hoff : u64OfInt (UInt64.ofNat (d.size - 1)) = 1 := by
    have hlow : (UInt64.ofNat (d.size - 1)).toNat % 2 ^ 32 = 1 := by
      rw [toNat_last]
      omega
    simp only [u64OfInt, hlow]
    decide
  have hsz := ok.size_le
  have hsame : gptLoad crc32 (d.writeAll (copyWrites crc32 d g)) true
      = gptLoad crc32 (d.writeAll (copyWrites crc32 d g)) false := by
    have hsmall : ¬ (d.writeAll (copyWrites crc32 d g)).size ≤ 1 := by
      rw [Disk.writeAll_size]
      omega
    simp only [gptLoad, loadHeader, if_neg hsmall, gptRead_ok (Nat.not_le.mp hsmall), bind,
      Except.bind, pure, Except.pure, if_true, stored_offset ok, hoff, Bool.false_eq_true, if_false]
  rw [hsame, hload]
  exact ⟨loadsAs_primary d g, loadsAs_primary d g⟩

/-- Neither the protective sector nor the primary entries depend on `crc32`, and
    beyond 2^31 sectors those are what `int offset` can reach besides data. -/
theorem stored_block_low (ok : StoreOk d g) {o : Nat} (hone : o ≠ 1) (hlow : o ≤ intMax)
    (hbig : 2 ^ 32 < d.size) (crc crc' : List UInt8 → UInt32) :
    (d.writeAll (copyWrites crc d g)).block o = (d.writeAll (copyWrites crc' d g)).block o := by
  have hmax := ok.num_le
  have hpl : partLbas g ≤ 2 ^ 29 := by
    rw [partLbas]
    simp only [intMax] at hmax
    omega
  simp only [intMax] at hlow
  by_cases hparts : 2 ≤ o ∧ o < 2 + partLbas g
  · obtain ⟨j, rfl⟩ : ∃ j, o = 2 + j := ⟨o - 2, by omega⟩
    rw [stored_block_primary ok (by omega), stored_block_primary ok (by omega)]
  · -- below the data area only the header depends on the checksum
    have hout : ∀ crc : List UInt8 → UInt32, o ∉ (copyWrites crc d g).map Prod.fst := by
      intro crc hmem
      rcases mem_copyWrites_fst.mp hmem with (h | ⟨j, hj, h⟩) | (h | ⟨j, hj, h⟩) <;> omega
    rw [d.block_writeAll_of_notMem _ (hout crc), d.block_writeAll_of_notMem _ (hout crc')]

/-- On every other size some `crc32` refuses whatever sector is read as the
    backup header. -/
theorem not_roundTrips (ok : StoreOk d g) (hbig : 2 ^ 31 < d.size) (hmod : d.size % 2 ^ 32 ≠ 2) :
    ∃ crc32, ¬ RoundTrips crc32 d g := by
  have hlt := d.size_lt
  have hlast := toNat_last d
  -- the sector at `offset` when it is on the disk; it does not depend on `crc32`
  have key : ∃ c : UInt32, ∀ o, o = u64OfInt (UInt64.ofNat (d.size - 1)) → o < d.size →
      c ≠ (GptHeader.codec.dec
        ((d.writeAll (copyWrites (fun _ => c) d g)).block o).val).headerChecksum := by
    by_cases hhigh : intMax < (d.size - 1) % 2 ^ 32
    · refine ⟨0, fun o ho hsz => ?_⟩
      have hge : 2 ^ 48 ≤ u64OfInt (UInt64.ofNat (d.size - 1)) :=
        u64OfInt_ge (by rw [hlast]; exact hhigh)
      omega
    · have hoff : u64OfInt (UInt64.ofNat (d.size - 1)) = (d.size - 1) % 2 ^ 32 := by
        simp only [u64OfInt, hlast]
        rw [if_pos (Nat.not_lt.mp hhigh)]
      simp only [intMax] at hhigh
      obtain ⟨c, hc⟩ : ∃ c, c = (GptHeader.codec.dec ((d.writeAll (copyWrites (fun _ => 0) d g)).block
        ((d.size - 1) % 2 ^ 32)).val).headerChecksum := ⟨_, rfl⟩
      refine ⟨c + 1, fun o ho _ => ?_⟩
      have hsame := stored_block_low ok (o := (d.size - 1) % 2 ^ 32) (by omega)
        (by simp only [intMax]; omega) (by omega) (fun _ => c + 1) (fun _ => 0)
      rw [ho, hoff, hsame, ← hc]
      exact succ_ne_self_u32 c
  obtain ⟨c, hc⟩ := key
  refine ⟨fun _ => c, fun hrt => ?_⟩
  obtain ⟨-, g₁, hload, -⟩ := hrt _ _ (gptStore_ok_iff.mpr ⟨ok, rfl, rfl⟩)
  rw [load_backup_foreign] at hload
  · cases hload
  · intro o ho hsz
    rw [stored_offset ok] at ho
    rw [Disk.writeAll_size] at hsz
    exact hc o ho hsz

/-- Store and load agree on all contents of a disk and for every `crc32`
    exactly when the disk has at most 2^31 sectors, or its last LBA is 1 in the
    low 32 bits. -/
theorem gptStore_roundTrips_iff {crc₀ : List UInt8 → UInt32} {d₀ : Disk} {g : Gpt}
    {r : Disk × Gpt} (hstore : gptStore crc₀ d₀ g = .ok r) :
    (∀ crc32 (d : Disk), d.size = d₀.size → d.secsize = d₀.secsize → RoundTrips crc32 d g) ↔
      d₀.size ≤ 2 ^ 31 ∨ d₀.size % 2 ^ 32 = 2 := by
  obtain ⟨ok, -⟩ := gptStore_ok_iff.mp (show gptStore crc₀ d₀ g = .ok (r.1, r.2) from hstore)
  constructor
  · intro h
    by_contra hc
    rw [not_or, Nat.not_le] at hc
    obtain ⟨crc32, hn⟩ := not_roundTrips ok hc.1 hc.2
    exact hn (h crc32 d₀ rfl rfl)
  · rintro (hsize | hsize) crc32 d hd -
    · exact roundTrips_of_size_le (by rw [hd]; exact hsize)
    · exact roundTrips_of_size_mod (by rw [hd]; exact hsize)

/-- A blank disk of 512-byte sectors. -/
def blankDisk (size : Nat) (h : size < 2 ^ 48) : Disk where
  secsize := devBsize
  size := size
  sector _ := List.replicate devBsize 0
  secsize_pos := devBsize_pos
  secsize_dvd := Nat.dvd_refl _
  size_lt := h
  length_sector _ := List.length_replicate

/-- An entry that is not in use. -/
def unusedEntry : GptPartition := ⟨Uuid.nil, Uuid.nil, 0, 0, 0, Vector.replicate 36 0⟩

/-- A table of `GPT_PARTITIONS` unused entries. -/
def blankGpt : Gpt where
  header := ⟨gptSignature, gptRevision, 92, 0, 0, 1, 0, 0, 0, Uuid.nil, 2, 128, 128, 0⟩
  part := List.replicate 128 unusedEntry
  length_part := List.length_replicate

theorem blankGpt_storeOk (h : 67 ≤ d.size) : StoreOk d blankGpt := by
  refine ⟨Or.inl rfl, by decide, h, ?_⟩
  intro p hp hnil
  rw [List.eq_of_mem_replicate hp] at hnil
  exact absurd rfl hnil

theorem gptStore_blank (crc32 : List UInt8 → UInt32) {d : Disk} (h : 67 ≤ d.size) :
    gptStore crc32 d blankGpt
      = .ok (d.writeAll (copyWrites crc32 d blankGpt), storedGpt crc32 d blankGpt) :=
  gptStore_ok_iff.mpr ⟨blankGpt_storeOk h, rfl, rfl⟩

/-- One sector more than 2^31 is one too many. -/
theorem gptStore_roundTrips_iff_blank :
    (∀ crc32 (d : Disk), d.size = 2 ^ 31 + 1 → d.secsize = devBsize →
      RoundTrips crc32 d blankGpt) ↔ 2 ^ 31 + 1 ≤ 2 ^ 31 ∨ (2 ^ 31 + 1) % 2 ^ 32 = 2 :=
  gptStore_roundTrips_iff
    (gptStore_blank (fun _ => 0) (d := blankDisk (2 ^ 31 + 1) (by decide)) (by decide))

/-- On a blank disk of 2^31 + 1 sectors the backup copy of a blank table is not
    found again. -/
theorem backup_lost_past_int :
    ¬ RoundTrips (fun _ => 0) (blankDisk (2 ^ 31 + 1) (by decide)) blankGpt := by
  intro hrt
  have hstore := gptStore_blank (fun _ => 0) (d := blankDisk (2 ^ 31 + 1) (by decide)) (by decide)
  obtain ⟨-, g₁, hload, -⟩ := hrt _ _ hstore
  rw [load_backup_foreign] at hload
  · cases hload
  · intro o ho hsz
    rw [stored_offset (blankGpt_storeOk (by decide))] at ho
    have hge : 2 ^ 48 ≤ u64OfInt (UInt64.ofNat (2 ^ 31 + 1 - 1)) := by decide
    rw [Disk.writeAll_size] at hsz
    simp only [blankDisk] at ho hsz
    omega

/-! ## A damaged primary copy -/

/-- `dmg` differs from `d` at most in LBA 1 and in the `n` sectors behind it. -/
structure DamagedPrimary (d dmg : Disk) (n : Nat) : Prop where
  size : dmg.size = d.size
  secsize : dmg.secsize = d.secsize
  sector : ∀ l, l ≠ 1 → ¬ (2 ≤ l ∧ l < 2 + n) → dmg.sector l = d.sector l

/-- Storing `g` on `d` and then damaging the primary copy, with the backup LBA
    in LBA 1 reading `lba`, leaves the partition array to `GPT_load` with alt. -/
def BackupUsable (crc32 : List UInt8 → UInt32) (d : Disk) (g : Gpt) (lba : UInt64) : Prop :=
  ∀ d' g', gptStore crc32 d g = .ok (d', g') →
    ∀ dmg, DamagedPrimary d' dmg (partLbas g) →
      (GptHeader.codec.dec (dmg.block 1).val).backupLba = lba →
      ∃ g₁, gptLoad crc32 dmg true = .ok g₁ ∧ g₁.part = g'.part

theorem backupUsable_of_offset {lba : UInt64} (h : u64OfInt lba = d.size - 1) :
    BackupUsable crc32 d g lba := by
  intro d' g' hstore dmg hdmg hlba
  obtain ⟨ok, rfl, rfl⟩ := gptStore_ok_iff.mp hstore
  have hsz := ok.size_le
  have hblock : ∀ l, 2 + partLbas g ≤ l →
      dmg.block l = (d.writeAll (copyWrites crc32 d g)).block l := fun l hl =>
    Disk.block_eq_of_sector_eq (hdmg.sector l (by omega) (by omega))
  refine ⟨storedGpt crc32 d g, ?_, rfl⟩
  apply load_backup ok
  · rw [hdmg.size, Disk.writeAll_size]
  · rw [hlba, h]
  · rw [hblock _ (by omega), stored_block_last ok]
  · intro j hj
    rw [hblock _ (by omega), stored_block_backup ok hj]

/-- A sector at LBA 1 that holds nothing but a backup LBA. -/
def strayHeader (lba : UInt64) : GptHeader :=
  ⟨0, 0, 0, 0, 0, 0, lba, 0, 0, Uuid.nil, 0, 0, 0, 0⟩

/-- The stored disk with LBA 1 overwritten by such a sector. -/
def strayDisk (crc32 : List UInt8 → UInt32) (d : Disk) (g : Gpt) (lba : UInt64) : Disk :=
  (d.writeAll (copyWrites crc32 d g)).write 1 (Block.ofBytes (GptHeader.codec.enc (strayHeader lba)))

theorem strayDisk_block_one (crc32 : List UInt8 → UInt32) (d : Disk) (g : Gpt) (lba : UInt64) :
    (strayDisk crc32 d g lba).block 1
      = Block.ofBytes (GptHeader.codec.enc (strayHeader lba)) := by
  apply Subtype.ext
  simp only [strayDisk, Disk.block, Disk.sector_write_self]
  exact List.take_left' (Block.ofBytes _).property

theorem strayDisk_damaged (crc32 : List UInt8 → UInt32) (d : Disk) (g : Gpt) (lba : UInt64) :
    DamagedPrimary (d.writeAll (copyWrites crc32 d g)) (strayDisk crc32 d g lba) (partLbas g) :=
  ⟨rfl, rfl, fun _ hl _ => Disk.sector_write_ne _ _ hl⟩

theorem strayDisk_block (ok : StoreOk d g) {o : Nat} (ho : o ≠ d.size - 1) (lba : UInt64)
    (crc crc' : List UInt8 → UInt32) :
    (strayDisk crc d g lba).block o = (strayDisk crc' d g lba).block o := by
  by_cases hone : o = 1
  · rw [hone, strayDisk_block_one, strayDisk_block_one]
  have hstep : ∀ crc : List UInt8 → UInt32, (strayDisk crc d g lba).block o
      = (d.writeAll (copyWrites crc d g)).block o := fun crc =>
    Disk.block_eq_of_sector_eq (Disk.sector_write_ne _ _ hone)
  rw [hstep, hstep]
  -- either array, or a block no store writes
  by_cases hp : ∃ j, j < partLbas g ∧ o = 2 + j
  · obtain ⟨j, hj, rfl⟩ := hp
    rw [stored_block_primary ok hj, stored_block_primary ok hj]
  by_cases hb : ∃ j, j < partLbas g ∧ o = d.size - (partLbas g + 1) + j
  · obtain ⟨j, hj, rfl⟩ := hb
    rw [stored_block_backup ok hj, stored_block_backup ok hj]
  have hout : ∀ crc : List UInt8 → UInt32, o ∉ (copyWrites crc d g).map Prod.fst := by
    intro crc hmem
    rcases mem_copyWrites_fst.mp hmem with (h | h) | (h | h)
    · exact hone h
    · exact hp h
    · exact ho h
    · exact hb h
  rw [d.block_writeAll_of_notMem _ (hout crc), d.block_writeAll_of_notMem _ (hout crc')]

theorem not_backupUsable (ok : StoreOk d g) {lba : UInt64} (h : u64OfInt lba ≠ d.size - 1) :
    ∃ crc32, ¬ BackupUsable crc32 d g lba := by
  obtain ⟨c, hc⟩ : ∃ c, c = (GptHeader.codec.dec
    ((strayDisk (fun _ => 0) d g lba).block (u64OfInt lba)).val).headerChecksum := ⟨_, rfl⟩
  refine ⟨fun _ => c + 1, fun hu => ?_⟩
  obtain ⟨g₁, hload, -⟩ := hu _ _ (gptStore_ok_iff.mpr ⟨ok, rfl, rfl⟩) _
    (strayDisk_damaged _ d g lba) (by rw [strayDisk_block_one, dec_ofBytes_header]; rfl)
  rw [load_backup_foreign] at hload
  · cases hload
  · intro o ho _
    rw [strayDisk_block_one, dec_ofBytes_header] at ho
    have ho' : o = u64OfInt lba := ho
    rw [ho', strayDisk_block ok h lba (fun _ => c + 1) (fun _ => 0), ← hc]
    exact succ_ne_self_u32 c

/-- Whatever else is damaged, the backup copy is found exactly when the low 32
    bits of the backup LBA left in LBA 1 are the last LBA. -/
theorem backupUsable_iff {crc₀ : List UInt8 → UInt32} {d₀ : Disk} {g : Gpt} {r : Disk × Gpt}
    (hstore : gptStore crc₀ d₀ g = .ok r) (_hsize : d₀.size < 2 ^ 31) (lba : UInt64) :
    (∀ crc32 (d : Disk), d.size = d₀.size → d.secsize = d₀.secsize →
      BackupUsable crc32 d g lba) ↔ u64OfInt lba = d₀.size - 1 := by
  obtain ⟨ok, -⟩ := gptStore_ok_iff.mp (show gptStore crc₀ d₀ g = .ok (r.1, r.2) from hstore)
  constructor
  · intro h
    by_contra hc
    obtain ⟨crc32, hn⟩ := not_backupUsable ok hc
    exact hn (h crc32 d₀ rfl rfl)
  · intro h crc32 d hd _
    exact backupUsable_of_offset (by rw [hd]; exact h)

/-- A zeroed LBA 1 points at the protective sector. -/
theorem backupUsable_iff_zeroed :
    (∀ crc32 (d : Disk), d.size = 100 → d.secsize = devBsize →
      BackupUsable crc32 d blankGpt 0) ↔ u64OfInt 0 = 100 - 1 :=
  backupUsable_iff (gptStore_blank (fun _ => 0) (d := blankDisk 100 (by decide)) (by decide))
    (by decide) 0

/-- A blank table on a disk of 100 sectors whose LBA 1 is then zeroed: the
    backup copy is intact and is not loaded. -/
theorem backup_unreachable_when_zeroed :
    ¬ BackupUsable (fun _ => 1) (blankDisk 100 (by decide)) blankGpt 0 := by
  intro hu
  have ok : StoreOk (blankDisk 100 (by decide)) blankGpt := blankGpt_storeOk (by decide)
  obtain ⟨g₁, hload, -⟩ := hu _ _ (gptStore_ok_iff.mpr ⟨ok, rfl, rfl⟩) _
    (strayDisk_damaged _ _ blankGpt 0) (by rw [strayDisk_block_one, dec_ofBytes_header]; rfl)
  rw [load_backup_foreign] at hload
  · cases hload
  · intro o ho _
    rw [strayDisk_block_one, dec_ofBytes_header] at ho
    -- the damaged header sends the load to block 0
    obtain rfl : o = 0 := by rw [ho]; decide
    have hblock : (strayDisk (fun _ => 1) (blankDisk 100 (by decide)) blankGpt 0).block 0
        = (blankDisk 100 (by decide)).block 0 := by
      apply Disk.block_eq_of_sector_eq
      rw [strayDisk, Disk.sector_write_ne _ _ (by decide), Disk.sector_writeAll_of_notMem]
      intro hmem
      rcases mem_copyWrites_fst.mp hmem with (h | ⟨j, hj, h⟩) | (h | ⟨j, hj, h⟩)
      · omega
      · omega
      · exact absurd h (by decide)
      · exact absurd h (by
          show ¬ 0 = 100 - (32 + 1) + j
          omega)
    rw [hblock]
    decide

end OpenBsd.Gdisk
