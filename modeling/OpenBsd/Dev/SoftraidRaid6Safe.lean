/-
  OpenBsd.Dev.SoftraidRaid6Safe

  The volume of `OpenBsd.Dev.SoftraidRaid6` is one disk, whatever two of its chunks hold.

  As with RAID 5 every sector of every chunk has a virtual content, which is that of the disk, the
  sum of the row (P), or its sum with powers of the generator (Q).
-/

import OpenBsd.Dev.SoftraidRaid6

namespace OpenBsd.Dev

open OpenBsd.Lib

namespace SrRaid6

variable (sd : SrRaid6)

theorem noChunk_pos : 0 < sd.noChunk := by
  have hge := sd.chunkNo_ge
  unfold noChunk
  omega

theorem chunkNo_eq : sd.chunkNo = sd.noChunk + 2 := by
  have hge := sd.chunkNo_ge
  unfold noChunk
  omega

def layout : Layout := stripLayout sd.stripBits sd.noChunk sd.noChunk_pos

@[simp] theorem layout_strip : sd.layout.strip = sd.stripBlocks := rfl

/-! ## Rows -/

def rowQ (row : Nat) : Nat := (sd.noChunk + 1) - row % (sd.noChunk + 2)

def rowP (row : Nat) : Nat := if sd.rowQ row = 0 then sd.noChunk + 1 else sd.rowQ row - 1

theorem qchunk_eq (stripNo : Nat) : sd.qchunk stripNo = sd.rowQ (stripNo / sd.noChunk) := rfl

theorem pchunk_eq (stripNo : Nat) : sd.pchunk stripNo = sd.rowP (stripNo / sd.noChunk) := rfl

theorem chunk_eq (stripNo : Nat) : sd.chunk stripNo = skip (sd.rowQ (stripNo / sd.noChunk))
    (skip (sd.rowP (stripNo / sd.noChunk)) (stripNo % sd.noChunk)) := rfl

theorem rowQ_lt (row : Nat) : sd.rowQ row < sd.chunkNo := by
  rw [chunkNo_eq]
  unfold rowQ
  omega

theorem rowP_lt (row : Nat) : sd.rowP row < sd.chunkNo := by
  have hq := sd.rowQ_lt row
  rw [chunkNo_eq] at hq ⊢
  unfold rowP
  split <;> omega

theorem rowP_ne_rowQ (row : Nat) : sd.rowP row ≠ sd.rowQ row := by
  unfold rowP
  split <;> omega

section

variable {sd}

theorem col_spec {row col : Nat} (hcol : col < sd.noChunk) :
    skip (sd.rowQ row) (skip (sd.rowP row) col) < sd.chunkNo ∧
      skip (sd.rowQ row) (skip (sd.rowP row) col) ≠ sd.rowP row ∧
      skip (sd.rowQ row) (skip (sd.rowP row) col) ≠ sd.rowQ row := by
  rw [chunkNo_eq]
  refine ⟨skip_lt (skip_lt hcol), ?_, skip_ne _ _⟩
  unfold rowP skip
  split <;> split <;> split <;> omega

theorem unskip_col (row col : Nat) :
    unskip (sd.rowP row) (unskip (sd.rowQ row) (skip (sd.rowQ row) (skip (sd.rowP row) col))) = col := by
  rw [unskip_skip, unskip_skip]

theorem unskip_spec {row c : Nat} (hc : c < sd.chunkNo) (hp : c ≠ sd.rowP row)
    (hq : c ≠ sd.rowQ row) :
    unskip (sd.rowP row) (unskip (sd.rowQ row) c) < sd.noChunk ∧
      skip (sd.rowQ row) (skip (sd.rowP row) (unskip (sd.rowP row) (unskip (sd.rowQ row) c))) = c := by
  have hqlt := sd.rowQ_lt row
  rw [chunkNo_eq] at hc hqlt
  have hp' : unskip (sd.rowQ row) c ≠ sd.rowP row ∧
      unskip (sd.rowP row) (unskip (sd.rowQ row) c) < sd.noChunk := by
    unfold rowP at hp ⊢
    generalize sd.rowQ row = q at *
    -- the two chunks of parity are next to each other, or the first and the last one
    by_cases hzero : q = 0
    · rw [if_pos hzero] at hp ⊢
      unfold unskip
      repeat' split
      all_goals omega
    · rw [if_neg hzero] at hp ⊢
      unfold unskip
      repeat' split
      all_goals omega
  exact ⟨hp'.2, by rw [skip_unskip hp'.1, skip_unskip hq]⟩

end

theorem chunk_lt (stripNo : Nat) : sd.chunk stripNo < sd.chunkNo :=
  (col_spec (Nat.mod_lt _ sd.noChunk_pos)).1

theorem chunk_ne_pchunk (stripNo : Nat) : sd.chunk stripNo ≠ sd.pchunk stripNo :=
  (col_spec (Nat.mod_lt _ sd.noChunk_pos)).2.1

theorem chunk_ne_qchunk (stripNo : Nat) : sd.chunk stripNo ≠ sd.qchunk stripNo :=
  (col_spec (Nat.mod_lt _ sd.noChunk_pos)).2.2

/-! ## Virtual contents -/

def dataChunks (row : Nat) : Finset Nat := rest sd.chunkNo (sd.rowP row) (sd.rowQ row)

theorem mem_dataChunks {row c : Nat} :
    c ∈ sd.dataChunks row ↔ c < sd.chunkNo ∧ c ≠ sd.rowP row ∧ c ≠ sd.rowQ row := by
  simp only [dataChunks, rest, Finset.mem_filter, Finset.mem_range]

/-- The sector of the disk that belongs on a chunk of data. -/
def virtData (disk : Disk) : Chunks := fun c lba =>
  disk (sd.layout.block lba
    (unskip (sd.rowP (lba / sd.stripBlocks)) (unskip (sd.rowQ (lba / sd.stripBlocks)) c)))

/-- What the chunks hold when no chunk has failed. -/
def virt (disk : Disk) : Chunks := fun c lba =>
  let row := lba / sd.stripBlocks
  if c = sd.rowQ row then ∑ z ∈ sd.dataChunks row, Gf256.gen ^ z • sd.virtData disk z lba
  else if c = sd.rowP row then ∑ z ∈ sd.dataChunks row, sd.virtData disk z lba
  else sd.virtData disk c lba

/-- In each row P is the sum of the data, and Q the sum with powers of the generator. -/
def Rows (m : Chunks) : Prop := ∀ lba,
  m (sd.rowP (lba / sd.stripBlocks)) lba = ∑ z ∈ sd.dataChunks (lba / sd.stripBlocks), m z lba ∧
  m (sd.rowQ (lba / sd.stripBlocks)) lba =
    ∑ z ∈ sd.dataChunks (lba / sd.stripBlocks), Gf256.gen ^ z • m z lba

theorem virt_data {disk : Disk} {c lba : Nat} (hc : c ∈ sd.dataChunks (lba / sd.stripBlocks)) :
    sd.virt disk c lba = sd.virtData disk c lba := by
  obtain ⟨-, hp, hq⟩ := sd.mem_dataChunks.mp hc
  unfold virt
  dsimp only
  rw [if_neg hq, if_neg hp]

theorem virt_rows (disk : Disk) : sd.Rows (sd.virt disk) := by
  intro lba
  constructor
  · have hp : sd.virt disk (sd.rowP (lba / sd.stripBlocks)) lba =
        ∑ z ∈ sd.dataChunks (lba / sd.stripBlocks), sd.virtData disk z lba := by
      unfold virt
      dsimp only
      rw [if_neg (sd.rowP_ne_rowQ _), if_pos rfl]
    rw [hp]
    exact Finset.sum_congr rfl fun z hz => (sd.virt_data hz).symm
  · have hq : sd.virt disk (sd.rowQ (lba / sd.stripBlocks)) lba =
        ∑ z ∈ sd.dataChunks (lba / sd.stripBlocks), Gf256.gen ^ z • sd.virtData disk z lba :=
      if_pos rfl
    rw [hq]
    exact Finset.sum_congr rfl fun z hz => by rw [sd.virt_data hz]

theorem Rows.virt_eq {m : Chunks} (h : sd.Rows m) {c : Nat} (hc : c < sd.chunkNo) (lba : Nat) :
    m c lba = sd.virt (sd.disk m) c lba := by
  have hdata : ∀ z ∈ sd.dataChunks (lba / sd.stripBlocks), m z lba = sd.virtData (sd.disk m) z lba := by
    intro z hz
    obtain ⟨hlt, hp, hq⟩ := sd.mem_dataChunks.mp hz
    obtain ⟨hcol, hback⟩ := unskip_spec hlt hp hq
    unfold virtData
    generalize unskip (sd.rowP (lba / sd.stripBlocks))
      (unskip (sd.rowQ (lba / sd.stripBlocks)) z) = col at *
    have hrow : sd.layout.block lba col / sd.stripBlocks / sd.noChunk = lba / sd.stripBlocks :=
      Layout.row_block (l := sd.layout) hcol
    have hcol' : sd.layout.block lba col / sd.stripBlocks % sd.noChunk = col :=
      Layout.col_block (l := sd.layout) hcol
    have hlba := @Layout.lba_block sd.layout lba col hcol
    show m z lba = m (sd.chunk (sd.layout.block lba col / sd.stripBlocks))
      (sd.layout.lba (sd.layout.block lba col))
    rw [chunk_eq, hrow, hcol', hlba, hback]
  unfold virt
  dsimp only
  split
  next hq =>
    rw [hq, (h lba).2]
    exact Finset.sum_congr rfl fun z hz => by rw [hdata z hz]
  next hq =>
    split
    next hp =>
      rw [hp, (h lba).1]
      exact Finset.sum_congr rfl hdata
    next hp => exact hdata c (sd.mem_dataChunks.mpr ⟨hc, hp, hq⟩)

theorem virt_chunk (disk : Disk) (b : Nat) :
    sd.virt disk (sd.chunk (b / sd.stripBlocks)) (sd.layout.lba b) = disk b := by
  have hrow : sd.layout.lba b / sd.stripBlocks = b / sd.stripBlocks / sd.noChunk :=
    sd.layout.lba_div b
  have hmem : sd.chunk (b / sd.stripBlocks) ∈ sd.dataChunks (sd.layout.lba b / sd.stripBlocks) := by
    rw [hrow]
    exact sd.mem_dataChunks.mpr ⟨sd.chunk_lt _, sd.chunk_ne_pchunk _, sd.chunk_ne_qchunk _⟩
  rw [sd.virt_data hmem]
  unfold virtData
  rw [hrow, chunk_eq, unskip_col]
  exact congrArg disk (sd.layout.block_lba b)

end SrRaid6

/-! ## A write to the disk -/

namespace SrRaid6

variable {sd : SrRaid6} {disk : Disk} {blkno : Nat} {data : List Block}

theorem virt_congr {disk' : Disk} {c lba : Nat} (hc : c < sd.chunkNo)
    (h : ∀ z ∈ sd.dataChunks (lba / sd.stripBlocks),
      sd.virtData disk z lba = sd.virtData disk' z lba) :
    sd.virt disk c lba = sd.virt disk' c lba := by
  unfold virt
  dsimp only
  split
  next => exact Finset.sum_congr rfl fun z hz => by rw [h z hz]
  next hq =>
    split
    next => exact Finset.sum_congr rfl h
    next hp => exact h c (sd.mem_dataChunks.mpr ⟨hc, hp, hq⟩)

theorem virt_write_away {c lba : Nat} (hc : c < sd.chunkNo)
    (haway : ∀ b, blkno ≤ b → b < blkno + data.length → sd.layout.lba b ≠ lba) :
    sd.virt (disk.write blkno data) c lba = sd.virt disk c lba := by
  apply virt_congr hc
  intro z hz
  obtain ⟨hlt, hp, hq⟩ := sd.mem_dataChunks.mp hz
  exact Layout.write_away (unskip_spec hlt hp hq).1 haway

theorem virt_write_other {c b : Nat} (hc : c ∈ sd.dataChunks (sd.layout.lba b / sd.stripBlocks))
    (hlen : data.length ≤ sd.stripBlocks) (hlo : blkno ≤ b) (hhi : b < blkno + data.length)
    (hne : c ≠ sd.chunk (b / sd.stripBlocks)) :
    sd.virt (disk.write blkno data) c (sd.layout.lba b) = sd.virt disk c (sd.layout.lba b) := by
  have hrow : sd.layout.lba b / sd.stripBlocks = b / sd.stripBlocks / sd.noChunk :=
    sd.layout.lba_div b
  rw [sd.virt_data hc, sd.virt_data hc]
  obtain ⟨hlt, hp, hq⟩ := sd.mem_dataChunks.mp hc
  obtain ⟨hcol, hback⟩ := unskip_spec hlt hp hq
  apply Layout.write_other hcol hlen hlo hhi
  intro heq
  rw [heq, hrow] at hback
  exact hne hback.symm

end SrRaid6

end OpenBsd.Dev
