/-
  OpenBsd.Gdisk.Layout

  What `GPT_store` leaves on the disk (`storeWrites_ok_iff`, `copyWrites_block`), and what
  `GPT_load` makes of any disk (`loadParts_eq`, `loadTable_eq`).
-/

import OpenBsd.Gdisk.Gpt

namespace OpenBsd.Gdisk

open OpenBsd.Lib List

variable {ps part : List GptPartition} {h : GptHeader} {w : Nat × Block}

/-! ## Entries in sectors -/

/-- The sector that holds the given entries, at most four. -/
def packBlock (ps : List GptPartition) : Block := Block.ofBytes (partBytes ps)

theorem partBytes_append (ps qs : List GptPartition) :
    partBytes (ps ++ qs) = partBytes ps ++ partBytes qs := flatMap_append ..

theorem memcpy_packBlock (p : GptPartition) (h : ps.length < 4) :
    (packBlock ps).memcpy (ps.length * sizeofGptPartition) (GptPartition.codec.enc p)
      = packBlock (ps ++ [p]) := by
  have hlen := length_partBytes ps
  have hp := GptPartition.codec.length_enc p
  simp only [GptPartition.codec_size, sizeofGptPartition] at hlen hp
  have hfit : (partBytes ps).length + (GptPartition.codec.enc p).length ≤ devBsize := by
    rw [hlen, hp, devBsize]
    omega
  have hmem := Block.memcpy_ofBytes hfit
  rw [packBlock, packBlock, partBytes_append, sizeofGptPartition, ← hlen, hmem]
  rw [show partBytes [p] = GptPartition.codec.enc p from append_nil _]

theorem dec_packBlock {k : Nat} (hk : k < ps.length) (hps : ps.length ≤ 4) :
    GptPartition.codec.dec ((packBlock ps).val.drop (k * sizeofGptPartition)) = ps[k] := by
  have hfit : (partBytes ps).length ≤ devBsize := by
    rw [length_partBytes, sizeofGptPartition, devBsize]
    omega
  rw [packBlock, Block.ofBytes_val hfit]
  exact GptPartition.codec.dec_drop_flatMap hk _

/-- The entries kept in sector `j` of the array. -/
def quad (ps : List GptPartition) (j : Nat) : List GptPartition := (ps.drop (4 * j)).take 4

theorem quad_getElem {i : Nat} (hi : i < ps.length) :
    ∃ h : i % 4 < (quad ps (i / 4)).length, (quad ps (i / 4))[i % 4] = ps[i] := by
  have hlen : (quad ps (i / 4)).length = min 4 (ps.length - 4 * (i / 4)) := by
    rw [quad, length_take, length_drop]
  refine ⟨by rw [hlen]; omega, ?_⟩
  simp only [quad, getElem_take, getElem_drop]
  congr 1
  omega

/-- The loop of `GPT_store`: from index `i` on, with the entries `done` already
    in the buffer, it writes the remaining sectors in order. -/
theorem storeParts_eq (lba : Nat) (ps done : List GptPartition) (i : Nat)
    (hi : i % 4 = done.length) :
    storeParts lba i (packBlock done) ps
      = (List.range ((done.length + ps.length + 3) / 4)).map fun j =>
          (lba + i / 4 + j, packBlock (quad (done ++ ps) j)) := by
  -- induction on what is left; `done` is what the sector buffer holds so far
  have hlt : done.length < 4 := by omega
  induction ps generalizing done i with
  | nil =>
    rw [storeParts]
    by_cases hz : i % 4 = 0
    · -- nothing in the buffer, nothing written at the end
      have hd : done = [] := length_eq_zero_iff.mp (by omega)
      subst hd
      simp [hz]
    · have hq : (done.length + ([] : List GptPartition).length + 3) / 4 = 1 := by
        rw [length_nil]
        omega
      have hdone : quad done 0 = done := by
        rw [quad, Nat.mul_zero, List.drop_zero, take_of_length_le (by omega)]
      rw [if_pos hz, hq]
      simp [hdone]
  | cons p ps ih =>
    simp only [storeParts]
    rw [hi, memcpy_packBlock p hlt]
    by_cases h3 : done.length = 3
    · -- the sector is full: it is written and the buffer starts afresh
      have hnext := ih [] (i + 1) (by rw [length_nil]; omega) (by decide)
      have hempty : packBlock [] = Block.zero := Block.ofBytes_nil
      rw [if_pos h3, ← hempty, hnext]
      -- one block now, the rest from an empty buffer
      have hcount : (done.length + (p :: ps).length + 3) / 4
          = (([] : List GptPartition).length + ps.length + 3) / 4 + 1 := by
        simp only [length_cons, length_nil]
        omega
      rw [hcount, range_succ_eq_map, map_cons, map_map]
      congr 1
      · have hq0 : quad (done ++ p :: ps) 0 = done ++ [p] := by
          rw [quad, Nat.mul_zero, List.drop_zero, take_append, h3, take_of_length_le (by omega)]
          simp
        rw [hq0, Nat.add_zero]
      · apply map_congr_left
        intro j _
        have hdrop : (done ++ p :: ps).drop (4 * (j + 1)) = ps.drop (4 * j) := by
          rw [drop_append, drop_of_length_le (by omega), nil_append, h3,
            show 4 * (j + 1) - 3 = 4 * j + 1 by omega, drop_succ_cons]
        simp only [Function.comp_apply, quad, nil_append, hdrop, Nat.succ_eq_add_one]
        congr 1
        omega
    · have hnext := ih (done ++ [p]) (i + 1) (by rw [length_append, length_singleton]; omega)
        (by rw [length_append, length_singleton]; omega)
      rw [if_neg h3, hnext]
      -- the same block still
      have hdiv : (i + 1) / 4 = i / 4 := by omega
      simp only [length_append, length_cons, length_nil, append_assoc,
        cons_append, nil_append, hdiv]
      congr 2
      omega

def entryOnDisk (d : Disk) (lba i : Nat) : GptPartition :=
  GptPartition.codec.dec ((d.block (lba + i / 4)).val.drop (i % 4 * sizeofGptPartition))

/-- The array of `n` entries at `lba`. -/
def entriesOnDisk (d : Disk) (lba n : Nat) : List GptPartition :=
  (List.range n).map (entryOnDisk d lba)

@[simp] theorem length_entriesOnDisk (d : Disk) (lba n : Nat) :
    (entriesOnDisk d lba n).length = n := by
  rw [entriesOnDisk, length_map, length_range]

/-- The loop of `GPT_load`, from index `i` on.  `buf` is the current sector
    unless the loop is about to read one. -/
theorem loadParts_from (d : Disk) (lba n i : Nat) (buf : Block)
    (hbuf : i % 4 ≠ 0 → buf = d.block (lba + i / 4))
    (hlba : ∀ k, i ≤ k → k < i + n → lba + k / 4 < d.size)
    (hmax : i + n ≤ intMax) :
    ∃ h, loadParts d lba n i buf
      = .ok ⟨(List.range n).map fun k => entryOnDisk d lba (i + k), h⟩ := by
  induction n generalizing i buf with
  | zero => exact ⟨rfl, rfl⟩
  | succ n ih =>
    -- a sector is read when its first entry is wanted, and kept for the others
    have hread : loadSector d lba i buf = .ok (d.block (lba + i / 4)) := by
      rw [loadSector]
      by_cases hz : i % 4 = 0
      · rw [if_pos hz, gptRead_ok (hlba i (Nat.le_refl _) (by omega))]
      · rw [if_neg hz, hbuf hz]
    obtain ⟨hlen, hrest⟩ := ih (i + 1) (d.block (lba + i / 4))
      (fun hz => by rw [show (i + 1) / 4 = i / 4 by omega])
      (fun k hk hk' => hlba k (by omega) (by omega)) (by omega)
    have hne : i ≠ intMax := by omega
    refine ⟨by simp, ?_⟩
    simp only [loadParts, hread, bind, Except.bind, if_neg hne, pure, Except.pure, hrest]
    congr 1
    apply Subtype.ext
    show _ :: _ = (List.range (n + 1)).map _
    rw [range_succ_eq_map, map_cons, map_map]
    congr 1
    apply map_congr_left
    intro k _
    simp only [Function.comp_apply, Nat.succ_eq_add_one]
    congr 1
    omega

theorem loadParts_eq (d : Disk) {lba n : Nat} (buf : Block)
    (hlba : ∀ j, j < (n + 3) / 4 → lba + j < d.size) (hmax : n ≤ intMax) :
    loadParts d lba n 0 buf = .ok ⟨entriesOnDisk d lba n, length_entriesOnDisk ..⟩ := by
  obtain ⟨_, h⟩ := loadParts_from d lba n 0 buf (fun h => absurd rfl h)
    (fun k _ hk => hlba (k / 4) (by omega)) (by omega)
  rw [h]
  simp only [Nat.zero_add]
  rfl

/-! ## The checks of `GPT_store` -/

/-- The LBAs the entries of one copy take. -/
def partLbas (g : Gpt) : Nat := (g.header.partitionsNum.toNat + 3) / 4

/-- What `GPT_store` demands of a table before it writes anything, with the
    arithmetic carried out in the integers. -/
structure StoreOk (d : Disk) (g : Gpt) : Prop where
  lba1 : g.header.currentLba = 1 ∨ g.header.backupLba = 1
  num_le : g.header.partitionsNum.toNat ≤ intMax
  size_le : 2 * (partLbas g + 1) + 1 ≤ d.size
  bounds : ∀ p ∈ g.part, ¬ uuidIsNil p.type →
    partLbas g + 2 ≤ p.startLba.toNat ∧ p.startLba ≤ p.endLba ∧
      p.endLba.toNat + (partLbas g + 2) ≤ d.size

theorem needLbas_eq (hn : h.partitionsNum.toNat ≤ intMax) :
    needLbas h = (h.partitionsNum.toNat + 3) / 4 + 1 := by
  simp only [intMax] at hn
  have h3 : (h.partitionsNum + 3).toNat = h.partitionsNum.toNat + 3 := by
    rw [UInt32.toNat_add]
    exact Nat.mod_eq_of_lt (by simp; omega)
  have hd : ((h.partitionsNum + 3) / 4).toNat = (h.partitionsNum.toNat + 3) / 4 := by
    rw [UInt32.toNat_div, h3]
    rfl
  rw [needLbas, UInt32.toNat_add, hd]
  simp only [UInt32.reduceToNat]
  omega

theorem storeBounds_ok_iff {i : Nat} (hi : i ≤ intMax) :
    storeBounds h i ps = .ok () ↔
      i + ps.length ≤ intMax ∧ ∀ p ∈ ps, ¬ uuidIsNil p.type →
        h.startLba ≤ p.startLba ∧ p.startLba ≤ p.endLba ∧ p.endLba ≤ h.endLba := by
  induction ps generalizing i with
  | nil => simpa [storeBounds] using hi
  | cons p ps ih =>
    rw [storeBounds]
    by_cases hbad : ¬ uuidIsNil p.type ∧
        (p.startLba < h.startLba ∨ p.startLba > p.endLba ∨ p.endLba > h.endLba)
    · rw [if_pos hbad]
      obtain ⟨hnil, hb⟩ := hbad
      constructor
      · intro hc
        cases hc
      · rintro ⟨-, hall⟩
        obtain ⟨h1, h2, h3⟩ := hall p mem_cons_self hnil
        rcases hb with hb | hb | hb
        · exact absurd h1 (UInt64.not_le.mpr hb)
        · exact absurd h2 (UInt64.not_le.mpr hb)
        · exact absurd h3 (UInt64.not_le.mpr hb)
    · rw [if_neg hbad]
      -- the index is an int: past its end the loop is undefined
      by_cases him : i = intMax
      · rw [if_pos him]
        simp only [length_cons, reduceCtorEq, false_iff, not_and]
        omega
      · rw [if_neg him, ih (by omega)]
        simp only [length_cons, forall_mem_cons]
        have hp : ¬ uuidIsNil p.type →
            h.startLba ≤ p.startLba ∧ p.startLba ≤ p.endLba ∧ p.endLba ≤ h.endLba := by
          intro hnil
          simp only [not_and, not_or, gt_iff_lt, UInt64.not_lt] at hbad
          exact hbad hnil
        constructor
        · rintro ⟨hlen, hall⟩
          exact ⟨by omega, hp, hall⟩
        · rintro ⟨hlen, -, hall⟩
          exact ⟨by omega, hall⟩

/-! ## The two copies -/

section

variable (crc32 : List UInt8 → UInt32)

/-- The header of a stored copy, whose own LBA is `cur`, the other copy's
    `bak` and whose entries start at `plba`. -/
def copyHeader (d : Disk) (g : Gpt) (cur bak plba : UInt64) : GptHeader :=
  let h : GptHeader :=
    { signature := gptSignature
      revision := gptRevision
      headerSize := UInt32.ofNat sizeofGptHeader
      headerChecksum := 0
      reserved := 0
      currentLba := cur
      backupLba := bak
      startLba := UInt64.ofNat (partLbas g + 2)
      endLba := UInt64.ofNat (d.size - (partLbas g + 2))
      guid := g.header.guid
      partitionsLba := plba
      partitionsNum := g.header.partitionsNum
      partitionsSize := UInt32.ofNat sizeofGptPartition
      partitionsChecksum := crc32 ((partBytes g.part).take
        (g.header.partitionsNum * UInt32.ofNat sizeofGptPartition).toNat) }
  { h with headerChecksum := headerCrc crc32 h }

/-- The header written to LBA 1. -/
def primaryHeader (d : Disk) (g : Gpt) : GptHeader :=
  copyHeader crc32 d g 1 (UInt64.ofNat (d.size - 1)) 2

/-- The header written to the last LBA. -/
def backupHeader (d : Disk) (g : Gpt) : GptHeader :=
  copyHeader crc32 d g (UInt64.ofNat (d.size - 1)) 1 (UInt64.ofNat (d.size - (partLbas g + 1)))

/-- The table `GPT_store` leaves in memory. -/
def storedGpt (d : Disk) (g : Gpt) : Gpt := ⟨backupHeader crc32 d g, g.part, g.length_part⟩

/-- All the writes of a store that passes its checks. -/
def copyWrites (d : Disk) (g : Gpt) : List (Nat × Block) :=
  storeCopy (primaryHeader crc32 d g) g.part ++ storeCopy (backupHeader crc32 d g) g.part

theorem ofNat_sub_lba {a b : Nat} (h : b ≤ a) :
    UInt64.ofNat a - UInt64.ofNat b = UInt64.ofNat (a - b) := (UInt64.ofNat_sub h).symm

/-- The bounds loop of `GPT_store` passes exactly when every used entry lies
    between the two copies. -/
theorem storeBounds_store_iff {d : Disk} {g : Gpt} (hs : h.startLba = UInt64.ofNat (partLbas g + 2))
    (he : h.endLba = UInt64.ofNat (d.size - (partLbas g + 2)))
    (hsize : 2 * (partLbas g + 1) + 1 ≤ d.size) :
    storeBounds h 0 g.part = .ok () ↔
      g.header.partitionsNum.toNat ≤ intMax ∧ ∀ p ∈ g.part, ¬ uuidIsNil p.type →
        partLbas g + 2 ≤ p.startLba.toNat ∧ p.startLba ≤ p.endLba ∧
          p.endLba.toNat + (partLbas g + 2) ≤ d.size := by
  have hlt := d.size_lt
  -- the two bounds of the header as numbers
  have hstart : h.startLba.toNat = partLbas g + 2 := by
    rw [hs, UInt64.toNat_ofNat']
    omega
  have hend : h.endLba.toNat = d.size - (partLbas g + 2) := by
    rw [he, UInt64.toNat_ofNat']
    omega
  rw [storeBounds_ok_iff (Nat.zero_le _), Nat.zero_add, g.length_part]
  refine and_congr_right fun _ => forall_congr' fun p => forall_congr' fun _ =>
    forall_congr' fun _ => ?_
  rw [UInt64.le_iff_toNat_le, UInt64.le_iff_toNat_le (b := h.endLba), hstart, hend]
  refine and_congr_right fun _ => and_congr_right fun _ => ?_
  omega

theorem storeRange_startLba (d : Disk) {g : Gpt} (hn : g.header.partitionsNum.toNat ≤ intMax) :
    (storeRange d g.header).startLba = UInt64.ofNat (partLbas g + 2) := by
  simp only [storeRange, needLbas_eq hn]
  rfl

theorem storeRange_endLba {d : Disk} {g : Gpt} (hn : g.header.partitionsNum.toNat ≤ intMax)
    (hsize : 2 * (partLbas g + 1) + 1 ≤ d.size) :
    (storeRange d g.header).endLba = UInt64.ofNat (d.size - (partLbas g + 2)) := by
  simp only [storeRange, needLbas_eq hn]
  exact ofNat_sub_lba (by rw [partLbas] at hsize; omega)

theorem storeWrites_of_storeOk {d : Disk} {g : Gpt} (ok : StoreOk d g) :
    storeWrites crc32 d g = .ok (copyWrites crc32 d g, storedGpt crc32 d g) := by
  have hlt := d.size_lt
  have hsz := ok.size_le
  have hmax := ok.num_le
  have hneed : needLbas g.header = partLbas g + 1 := needLbas_eq hmax
  have hpl : partLbas g ≤ 2 ^ 29 := by
    rw [partLbas]
    simp only [intMax] at hmax
    omega
  -- the guards of the function, one after the other
  have hl1 : ¬ (g.header.currentLba ≠ 1 ∧ g.header.backupLba ≠ 1) := by
    rintro ⟨h1, h2⟩
    exact ok.lba1.elim h1 h2
  have hint : ¬ intMax < partLbas g + 1 + (partLbas g + 1) + 1 := by
    simp only [intMax]
    omega
  have hfit : ¬ d.size < partLbas g + 1 + (partLbas g + 1) + 1 := by omega
  have hstart := storeRange_startLba d hmax
  have hend := storeRange_endLba hmax hsz
  have hb : storeBounds (storeRange d g.header) 0 g.part = .ok () :=
    (storeBounds_store_iff hstart hend hsz).mpr ⟨hmax, ok.bounds⟩
  -- the blocks of the two copies, computed modulo 2^64
  have hlast : UInt64.ofNat d.size - UInt64.ofNat 1 = UInt64.ofNat (d.size - 1) :=
    ofNat_sub_lba (by omega)
  have hback : UInt64.ofNat (d.size - (partLbas g + 2)) + UInt64.ofNat 1
      = UInt64.ofNat (d.size - (partLbas g + 1)) := by
    rw [show d.size - (partLbas g + 1) = d.size - (partLbas g + 2) + 1 by omega, UInt64.ofNat_add]
  rw [show UInt64.ofNat 1 = 1 from rfl] at hlast hback
  simp only [storeWrites, hneed, hlast, if_neg hl1, if_neg hint, if_neg hfit, hb, bind,
    Except.bind, pure, Except.pure, hstart, hend, hback]
  simp only [copyWrites, storedGpt, primaryHeader, backupHeader, copyHeader, partCrc, storeRange]

theorem storeOk_of_storeWrites {d : Disk} {g : Gpt} {r : List (Nat × Block) × Gpt}
    (h : storeWrites crc32 d g = .ok r) : StoreOk d g := by
  simp only [storeWrites] at h
  -- each guard that stops the function is taken in turn
  by_cases hl1 : g.header.currentLba ≠ 1 ∧ g.header.backupLba ≠ 1
  · rw [if_pos hl1] at h
    cases h
  rw [if_neg hl1] at h
  by_cases hint : intMax < needLbas g.header + needLbas g.header + 1
  · rw [if_pos hint] at h
    cases h
  rw [if_neg hint] at h
  by_cases hfit : d.size < needLbas g.header + needLbas g.header + 1
  · rw [if_pos hfit] at h
    cases h
  rw [if_neg hfit] at h
  cases hb : storeBounds (storeRange d g.header) 0 g.part with
  | error e =>
    rw [hb] at h
    cases h
  | ok u =>
    -- the entry loop came through, so its index never left int
    have hnum := ((storeBounds_ok_iff (Nat.zero_le _)).mp hb).1
    rw [Nat.zero_add, g.length_part] at hnum
    have hneed : needLbas g.header = partLbas g + 1 := needLbas_eq hnum
    rw [hneed] at hfit
    have hsz : 2 * (partLbas g + 1) + 1 ≤ d.size := by omega
    have hlba : g.header.currentLba = 1 ∨ g.header.backupLba = 1 := by
      by_contra hc
      exact hl1 (not_or.mp hc)
    refine ⟨hlba, hnum, hsz, ?_⟩
    exact ((storeBounds_store_iff (storeRange_startLba d hnum) (storeRange_endLba hnum hsz)
      hsz).mp hb).2

/-! ## Where the writes go -/

theorem storeCopy_eq (h : GptHeader) (part : List GptPartition) :
    storeCopy h part = (h.currentLba.toNat, Block.ofBytes (GptHeader.codec.enc h)) ::
      (List.range ((part.length + 3) / 4)).map fun j =>
        (h.partitionsLba.toNat + j, packBlock (quad part j)) := by
  have hempty : packBlock [] = Block.zero := Block.ofBytes_nil
  rw [storeCopy, ← hempty, storeParts_eq _ _ [] 0 rfl]
  simp

theorem mem_storeCopy :
    w ∈ storeCopy h part ↔
      w = (h.currentLba.toNat, Block.ofBytes (GptHeader.codec.enc h)) ∨
      ∃ j, j < (part.length + 3) / 4 ∧
        w = (h.partitionsLba.toNat + j, packBlock (quad part j)) := by
  rw [storeCopy_eq, mem_cons, mem_map]
  simp only [mem_range, eq_comm]

theorem nodup_storeCopy
    (hne : ∀ j, j < (part.length + 3) / 4 → h.partitionsLba.toNat + j ≠ h.currentLba.toNat) :
    ((storeCopy h part).map Prod.fst).Nodup := by
  rw [storeCopy_eq, map_cons, map_map, nodup_cons]
  constructor
  · intro hmem
    obtain ⟨j, hj, heq⟩ := mem_map.mp hmem
    exact hne j (mem_range.mp hj) heq
  · apply List.Nodup.map _ nodup_range
    intro a b hab
    simpa using hab

variable {crc32} {d : Disk} {g : Gpt}

theorem partLbas_eq (g : Gpt) : (g.part.length + 3) / 4 = partLbas g := by
  rw [g.length_part, partLbas]

theorem primary_currentLba (d : Disk) (g : Gpt) :
    (primaryHeader crc32 d g).currentLba.toNat = 1 := rfl

theorem primary_partitionsLba (d : Disk) (g : Gpt) :
    (primaryHeader crc32 d g).partitionsLba.toNat = 2 := rfl

theorem toNat_ofNat_lba {n : Nat} (h : n < 2 ^ 48) : (UInt64.ofNat n).toNat = n := by
  rw [UInt64.toNat_ofNat']
  omega

theorem backup_currentLba (d : Disk) (g : Gpt) :
    (backupHeader crc32 d g).currentLba.toNat = d.size - 1 :=
  toNat_ofNat_lba (by have := d.size_lt; omega)

theorem backup_partitionsLba (d : Disk) (g : Gpt) :
    (backupHeader crc32 d g).partitionsLba.toNat = d.size - (partLbas g + 1) :=
  toNat_ofNat_lba (by have := d.size_lt; omega)

/-- LBA 1, the primary entries, the last LBA and the backup entries: what a
    store writes. -/
theorem mem_copyWrites :
    w ∈ copyWrites crc32 d g ↔
      (w = (1, Block.ofBytes (GptHeader.codec.enc (primaryHeader crc32 d g))) ∨
        ∃ j, j < partLbas g ∧ w = (2 + j, packBlock (quad g.part j))) ∨
      (w = (d.size - 1, Block.ofBytes (GptHeader.codec.enc (backupHeader crc32 d g))) ∨
        ∃ j, j < partLbas g ∧
          w = (d.size - (partLbas g + 1) + j, packBlock (quad g.part j))) := by
  rw [copyWrites, mem_append, mem_storeCopy, mem_storeCopy, partLbas_eq,
    primary_currentLba, primary_partitionsLba, backup_currentLba, backup_partitionsLba]

theorem mem_copyWrites_fst {lba : Nat} :
    lba ∈ (copyWrites crc32 d g).map Prod.fst ↔
      (lba = 1 ∨ ∃ j, j < partLbas g ∧ lba = 2 + j) ∨
      (lba = d.size - 1 ∨ ∃ j, j < partLbas g ∧ lba = d.size - (partLbas g + 1) + j) := by
  rw [mem_map]
  constructor
  · rintro ⟨w, hw, rfl⟩
    rcases mem_copyWrites.mp hw with (rfl | ⟨j, hj, rfl⟩) | (rfl | ⟨j, hj, rfl⟩)
    · exact Or.inl (Or.inl rfl)
    · exact Or.inl (Or.inr ⟨j, hj, rfl⟩)
    · exact Or.inr (Or.inl rfl)
    · exact Or.inr (Or.inr ⟨j, hj, rfl⟩)
  · rintro ((rfl | ⟨j, hj, rfl⟩) | (rfl | ⟨j, hj, rfl⟩))
    · exact ⟨_, mem_copyWrites.mpr (Or.inl (Or.inl rfl)), rfl⟩
    · exact ⟨_, mem_copyWrites.mpr (Or.inl (Or.inr ⟨j, hj, rfl⟩)), rfl⟩
    · exact ⟨_, mem_copyWrites.mpr (Or.inr (Or.inl rfl)), rfl⟩
    · exact ⟨_, mem_copyWrites.mpr (Or.inr (Or.inr ⟨j, hj, rfl⟩)), rfl⟩

theorem nodup_copyWrites (hsize : 2 * (partLbas g + 1) + 1 ≤ d.size) :
    ((copyWrites crc32 d g).map Prod.fst).Nodup := by
  rw [copyWrites, map_append, nodup_append]
  refine ⟨nodup_storeCopy ?_, nodup_storeCopy ?_, ?_⟩
  · intro j _
    rw [primary_partitionsLba, primary_currentLba]
    omega
  · intro j hj
    rw [partLbas_eq] at hj
    rw [backup_partitionsLba, backup_currentLba]
    omega
  · -- the primary copy lies below the data area, the backup above
    intro a ha b hb
    obtain ⟨w, hw, rfl⟩ := mem_map.mp ha
    obtain ⟨v, hv, rfl⟩ := mem_map.mp hb
    rw [mem_storeCopy, primary_currentLba, primary_partitionsLba, partLbas_eq] at hw
    rw [mem_storeCopy, backup_currentLba, backup_partitionsLba, partLbas_eq] at hv
    rcases hw with rfl | ⟨j, hj, rfl⟩ <;> rcases hv with rfl | ⟨k, hk, rfl⟩ <;> simp only <;> omega

theorem copyWrites_lt_size (hsize : 2 * (partLbas g + 1) + 1 ≤ d.size)
    (hw : w ∈ copyWrites crc32 d g) : w.1 < d.size := by
  rcases mem_copyWrites.mp hw with (rfl | ⟨j, hj, rfl⟩) | (rfl | ⟨j, hj, rfl⟩) <;>
    simp only <;> omega

theorem foldlM_gptWrite (ws : List (Nat × Block)) (d : Disk) (h : ∀ w ∈ ws, w.1 < d.size) :
    ws.foldlM gptWrite d = .ok (d.writeAll ws) := by
  induction ws generalizing d with
  | nil => rfl
  | cons w ws ih =>
    have hw : gptWrite d w = .ok (d.write w.1 w.2) := by
      rw [gptWrite, if_pos (h w mem_cons_self)]
    rw [foldlM_cons, hw]
    exact ih _ fun v hv => h v (mem_cons_of_mem _ hv)

/-- `GPT_store` returns 0 exactly on the tables that pass its checks, and then
    the disk holds both copies. -/
theorem gptStore_ok_iff {d' : Disk} {g' : Gpt} :
    gptStore crc32 d g = .ok (d', g') ↔
      StoreOk d g ∧ d' = d.writeAll (copyWrites crc32 d g) ∧ g' = storedGpt crc32 d g := by
  constructor
  · intro h
    cases hw : storeWrites crc32 d g with
    | error e =>
      rw [gptStore, hw] at h
      cases h
    | ok r =>
      have ok := storeOk_of_storeWrites crc32 hw
      -- every write is on the disk, so none of them fails
      have hall := foldlM_gptWrite (copyWrites crc32 d g) d fun w => copyWrites_lt_size ok.size_le
      simp only [gptStore, storeWrites_of_storeOk crc32 ok, bind, Except.bind, hall, pure,
        Except.pure, Except.ok.injEq, Prod.mk.injEq] at h
      exact ⟨ok, h.1.symm, h.2.symm⟩
  · rintro ⟨ok, rfl, rfl⟩
    have hall := foldlM_gptWrite (copyWrites crc32 d g) d fun w => copyWrites_lt_size ok.size_le
    simp only [gptStore, storeWrites_of_storeOk crc32 ok, bind, Except.bind, hall, pure,
      Except.pure]

/-! ## Loading a stored copy -/

theorem entriesOnDisk_of_blocks {lba : Nat}
    (h : ∀ j, j < (part.length + 3) / 4 → d.block (lba + j) = packBlock (quad part j)) :
    entriesOnDisk d lba part.length = part := by
  apply ext_getElem
  · rw [length_entriesOnDisk]
  · intro i hi hi'
    obtain ⟨hq, hget⟩ := quad_getElem hi'
    have hle : (quad part (i / 4)).length ≤ 4 := by
      rw [quad, length_take]
      omega
    simp only [entriesOnDisk, getElem_map, getElem_range, entryOnDisk]
    rw [h (i / 4) (by omega), dec_packBlock hq hle, hget]

/-- The checks `GPT_load` makes on a header by itself. -/
structure HeaderOk (crc32 : List UInt8 → UInt32) (h : GptHeader) : Prop where
  signature : h.signature = gptSignature
  headerSize : h.headerSize.toNat ≤ sizeofGptHeader
  headerChecksum : headerCrc crc32 { h with headerChecksum := 0 } = h.headerChecksum
  partitionsSize : h.partitionsSize.toNat = sizeofGptPartition

/-- Behind a good header `GPT_load` returns the array on the disk if its
    checksum is the header's. -/
theorem loadTable_eq (buf : Block) (ok : HeaderOk crc32 h)
    (hlba : ∀ j, j < (h.partitionsNum.toNat + 3) / 4 → h.partitionsLba.toNat + j < d.size)
    (hmax : h.partitionsNum.toNat ≤ intMax) :
    loadTable crc32 d h buf =
      if partCrc crc32 h (entriesOnDisk d h.partitionsLba.toNat h.partitionsNum.toNat)
          = h.partitionsChecksum then
        .ok ⟨h, entriesOnDisk d h.partitionsLba.toNat h.partitionsNum.toNat,
          length_entriesOnDisk ..⟩
      else .error .error := by
  -- the tests on the header pass, the checksum of the array is left
  have h1 : ¬ h.signature ≠ gptSignature := not_not.mpr ok.signature
  have h2 : ¬ sizeofGptHeader < h.headerSize.toNat := Nat.not_lt.mpr ok.headerSize
  have h3 := not_not.mpr ok.headerChecksum
  have h4 : ¬ h.partitionsSize.toNat ≠ sizeofGptPartition := not_not.mpr ok.partitionsSize
  simp only [loadTable, if_neg h1, if_neg h2, if_neg h3, if_neg h4, loadParts_eq d buf hlba hmax,
    bind, Except.bind, pure, Except.pure, ite_not]
  rfl

theorem loadTable_error (buf : Block)
    (hbad : h.signature ≠ gptSignature ∨ headerCrc crc32 { h with headerChecksum := 0 } ≠ h.headerChecksum) :
    loadTable crc32 d h buf = .error .error := by
  simp only [loadTable]
  by_cases h1 : h.signature ≠ gptSignature
  · rw [if_pos h1]
    rfl
  rw [if_neg h1]
  by_cases h2 : sizeofGptHeader < h.headerSize.toNat
  · rw [if_pos h2]
    rfl
  rw [if_neg h2, if_pos (hbad.resolve_left h1)]
  rfl

theorem copyHeader_ok (crc32 : List UInt8 → UInt32) (d : Disk) (g : Gpt) (cur bak plba : UInt64) :
    HeaderOk crc32 (copyHeader crc32 d g cur bak plba) := by
  refine ⟨rfl, ?_, rfl, rfl⟩
  exact Nat.le_refl _

theorem loadTable_copyHeader {d' : Disk} (buf : Block) {cur bak plba : UInt64}
    (hmax : g.header.partitionsNum.toNat ≤ intMax)
    (hlba : ∀ j, j < partLbas g → plba.toNat + j < d'.size)
    (hparts : entriesOnDisk d' plba.toNat g.header.partitionsNum.toNat = g.part) :
    loadTable crc32 d' (copyHeader crc32 d g cur bak plba) buf
      = .ok ⟨copyHeader crc32 d g cur bak plba, g.part, g.length_part⟩ := by
  rw [loadTable_eq buf (copyHeader_ok crc32 d g cur bak plba) hlba hmax]
  refine (if_pos ?_).trans ?_
  · show partCrc crc32 _ (entriesOnDisk d' plba.toNat g.header.partitionsNum.toNat) = _
    rw [hparts]
    rfl
  · congr 2

end

end OpenBsd.Gdisk
