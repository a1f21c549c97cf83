/-
  OpenBsd.Gdisk.Cmd

  `Xwrite` of `sbin/gdisk/cmd.c`: `GPT_verify`, then `GPT_store`.

  `xwrite_legal` says of the sectors that are on the disk afterwards that used entries lie
  in the usable range, do not meet each other and leave the protective sector, both headers
  and both entry arrays alone.
-/

import OpenBsd.Gdisk.RoundTrip

namespace OpenBsd.Gdisk

open OpenBsd.Lib

/-- What `Xwrite` returns; after `CMD_CLEAN` the disk and the table in memory
    are the stored ones. -/
inductive CmdResult where
  | cont
  | clean (d : Disk) (g : Gpt)

def xwrite (crc32 : List UInt8 → UInt32) (askYn : Nat → Bool) (d : Disk) (g : Gpt) :
    Except Fault CmdResult :=
  if gptVerify askYn g then
    match gptStore crc32 d g with
    | .ok (d', g') => .ok (.clean d' g')
    | .error .error => .ok .cont
    | .error .undef => .error .undef
  else .ok .cont

/-! ## A legal layout -/

/-- The LBAs from `start_lba` to `end_lba`. -/
def GptPartition.Covers (p : GptPartition) (lba : Nat) : Prop :=
  p.startLba.toNat ≤ lba ∧ lba ≤ p.endLba.toNat

/-- The header in sector `lba`. -/
def headerAt (d : Disk) (lba : Nat) : GptHeader := GptHeader.codec.dec (d.block lba).val

/-- The entries a header on the disk leads to. -/
def entriesOf (d : Disk) (h : GptHeader) : List GptPartition :=
  entriesOnDisk d h.partitionsLba.toNat h.partitionsNum.toNat

/-- The LBAs of the protective sector, of both headers and of both entry
    arrays, according to the headers on the disk. -/
def GptUses (d : Disk) (lba : Nat) : Prop :=
  lba = 0 ∨ ∃ l ∈ [1, d.size - 1], lba = l ∨
    ((headerAt d l).partitionsLba.toNat ≤ lba ∧
      lba < (headerAt d l).partitionsLba.toNat + ((headerAt d l).partitionsNum.toNat + 3) / 4)

/-- The copy of the table under header `h` describes a legal layout. -/
structure LegalCopy (d : Disk) (h : GptHeader) : Prop where
  in_range : ∀ p ∈ entriesOf d h, ¬ uuidIsNil p.type →
    h.startLba ≤ p.startLba ∧ p.startLba ≤ p.endLba ∧ p.endLba ≤ h.endLba
  disjoint : (entriesOf d h).Pairwise fun p q => ¬ uuidIsNil p.type → ¬ uuidIsNil q.type →
    ∀ lba, ¬ (p.Covers lba ∧ q.Covers lba)
  reserved : ∀ p ∈ entriesOf d h, ¬ uuidIsNil p.type →
    ∀ lba, p.Covers lba → ¬ GptUses d lba

/-! ## Every question answered no -/

theorem verifyOverlaps_no {p1 : GptPartition} {ps : List GptPartition} {k k' : Nat}
    (h : verifyOverlaps (fun _ => false) p1 k ps = some k') :
    ∀ p2 ∈ ps, ¬ uuidIsNil p2.type → ¬ prtOverlap p1 p2 := by
  induction ps generalizing k with
  | nil =>
    intro p2 hp2
    exact absurd hp2 List.not_mem_nil
  | cons p ps ih =>
    rw [verifyOverlaps] at h
    -- with every question answered no, an overlap ends the verification
    by_cases hov : (!uuidIsNil p.type && prtOverlap p1 p) = true
    · rw [if_pos hov] at h
      cases h
    · rw [if_neg hov] at h
      intro p2 hp2 hnil
      rcases List.mem_cons.mp hp2 with rfl | hp2
      · intro hc
        apply hov
        rw [Bool.and_eq_true]
        exact ⟨by simpa using hnil, hc⟩
      · exact ih h p2 hp2 hnil

/-- `GPT_verify` with every question answered no leaves pairwise disjoint
    entries. -/
theorem verifyParts_no {ps : List GptPartition} {n k : Nat}
    (h : verifyParts (fun _ => false) n k ps = true) :
    ps.Pairwise fun p q => ¬ uuidIsNil p.type → ¬ uuidIsNil q.type → ¬ prtOverlap p q := by
  induction ps generalizing n k with
  | nil => exact List.Pairwise.nil
  | cons p ps ih =>
    rw [verifyParts] at h
    by_cases hnil : uuidIsNil p.type = true
    · rw [if_pos hnil] at h
      exact List.pairwise_cons.mpr ⟨fun q _ hp => absurd hnil hp, ih h⟩
    · rw [if_neg hnil] at h
      simp only at h
      -- the inner loop compares p with every entry behind it
      cases hov : verifyOverlaps (fun _ => false) p k ps with
      | none =>
        rw [hov] at h
        cases h
      | some k' =>
        rw [hov] at h
        exact List.pairwise_cons.mpr ⟨fun q hq _ hqn => verifyOverlaps_no hov q hq hqn, ih h⟩

theorem prtOverlap_of_covers {p q : GptPartition} {lba : Nat} (hp : p.Covers lba)
    (hq : q.Covers lba) : prtOverlap p q := by
  obtain ⟨hp1, hp2⟩ := hp
  obtain ⟨hq1, hq2⟩ := hq
  simp only [prtOverlap, Bool.and_eq_true, decide_eq_true_eq, ge_iff_le, UInt64.le_iff_toNat_le]
  omega

/-! ## The stored disk -/

variable {crc32 : List UInt8 → UInt32} {d : Disk} {g : Gpt}

theorem headerAt_primary (ok : StoreOk d g) :
    headerAt (d.writeAll (copyWrites crc32 d g)) 1 = primaryHeader crc32 d g := by
  rw [headerAt, stored_block_one ok, dec_ofBytes_header]

theorem headerAt_backup (ok : StoreOk d g) :
    headerAt (d.writeAll (copyWrites crc32 d g)) (d.size - 1) = backupHeader crc32 d g := by
  rw [headerAt, stored_block_last ok, dec_ofBytes_header]

theorem entriesOf_primary (ok : StoreOk d g) :
    entriesOf (d.writeAll (copyWrites crc32 d g)) (primaryHeader crc32 d g) = g.part := by
  show entriesOnDisk _ 2 g.header.partitionsNum.toNat = _
  rw [← g.length_part]
  apply entriesOnDisk_of_blocks
  rw [partLbas_eq]
  exact fun j hj => stored_block_primary ok hj

theorem entriesOf_backup (ok : StoreOk d g) :
    entriesOf (d.writeAll (copyWrites crc32 d g)) (backupHeader crc32 d g) = g.part := by
  show entriesOnDisk _ (backupHeader crc32 d g).partitionsLba.toNat g.header.partitionsNum.toNat = _
  rw [backup_partitionsLba, ← g.length_part]
  apply entriesOnDisk_of_blocks
  rw [partLbas_eq]
  exact fun j hj => stored_block_backup ok hj

theorem gptUses_stored (ok : StoreOk d g) {lba : Nat}
    (h : GptUses (d.writeAll (copyWrites crc32 d g)) lba) :
    lba < partLbas g + 2 ∨ d.size - (partLbas g + 1) ≤ lba := by
  have hsz := ok.size_le
  rcases h with rfl | ⟨l, hl, h⟩
  · omega
  rw [Disk.writeAll_size] at hl
  rcases List.mem_cons.mp hl with rfl | hl
  · rw [headerAt_primary ok, primary_partitionsLba] at h
    have hn : ((primaryHeader crc32 d g).partitionsNum.toNat + 3) / 4 = partLbas g := rfl
    omega
  · rw [List.mem_singleton] at hl
    subst hl
    rw [headerAt_backup ok, backup_partitionsLba] at h
    omega

theorem legalCopy_stored {h : GptHeader} (ok : StoreOk d g)
    (hstart : h.startLba = UInt64.ofNat (partLbas g + 2))
    (hend : h.endLba = UInt64.ofNat (d.size - (partLbas g + 2)))
    (hes : entriesOf (d.writeAll (copyWrites crc32 d g)) h = g.part)
    (hpair : g.part.Pairwise fun p q =>
      ¬ uuidIsNil p.type → ¬ uuidIsNil q.type → ¬ prtOverlap p q) :
    LegalCopy (d.writeAll (copyWrites crc32 d g)) h := by
  have hlt := d.size_lt
  have hsz := ok.size_le
  constructor
  · -- every entry in use lies between start and end of the header
    intro p hp hnil
    rw [hes] at hp
    obtain ⟨h1, h2, h3⟩ := ok.bounds p hp hnil
    refine ⟨?_, h2, ?_⟩
    · rw [hstart, UInt64.le_iff_toNat_le, UInt64.toNat_ofNat']
      omega
    · rw [hend, UInt64.le_iff_toNat_le, UInt64.toNat_ofNat']
      omega
  · rw [hes]
    -- two entries that share a block overlap
    refine hpair.imp ?_
    intro p q hpq hp hq lba ⟨hcp, hcq⟩
    exact hpq hp hq (prtOverlap_of_covers hcp hcq)
  · intro p hp hnil lba hcov huse
    rw [hes] at hp
    -- headers and arrays lie outside the range of the entries
    obtain ⟨h1, -, h3⟩ := ok.bounds p hp hnil
    obtain ⟨hc1, hc2⟩ := hcov
    rcases gptUses_stored ok huse with hlow | hhigh <;> omega

theorem xwrite_clean_iff {askYn : Nat → Bool} {d' : Disk} {g' : Gpt} :
    xwrite crc32 askYn d g = .ok (.clean d' g') ↔
      gptVerify askYn g = true ∧ gptStore crc32 d g = .ok (d', g') := by
  constructor
  · intro h
    rw [xwrite] at h
    by_cases hv : gptVerify askYn g = true
    · rw [if_pos hv] at h
      refine ⟨hv, ?_⟩
      -- verified: the store decides
      cases hs : gptStore crc32 d g with
      | error e =>
        rw [hs] at h
        cases e <;> cases h
      | ok r =>
        rw [hs] at h
        cases h
        rfl
    · rw [if_neg hv] at h
      cases h
  · rintro ⟨hv, hs⟩
    rw [xwrite, if_pos hv, hs]

/-- When `Xwrite` returns `CMD_CLEAN` with every question answered no, both
    copies on the disk describe a legal layout. -/
theorem xwrite_legal {d' : Disk} {g' : Gpt}
    (h : xwrite crc32 (fun _ => false) d g = .ok (.clean d' g')) :
    ∀ l ∈ [1, d'.size - 1], LegalCopy d' (headerAt d' l) := by
  obtain ⟨hverify, hstore⟩ := xwrite_clean_iff.mp h
  obtain ⟨ok, rfl, -⟩ := gptStore_ok_iff.mp hstore
  have hpair := verifyParts_no hverify
  intro l hl
  rw [Disk.writeAll_size] at hl
  rcases List.mem_cons.mp hl with rfl | hl
  · rw [headerAt_primary ok]
    exact legalCopy_stored ok rfl rfl (entriesOf_primary ok) hpair
  · rw [List.mem_singleton] at hl
    subst hl
    rw [headerAt_backup ok]
    exact legalCopy_stored ok rfl rfl (entriesOf_backup ok) hpair

/-- An OpenBSD partition on LBAs 64 to 127. -/
def openbsdEntry : GptPartition :=
  { type := ⟨0x824cc7a0, 0x36a8, 0x11e3, 0x89, 0x0a, #v[0x95, 0x25, 0x19, 0xad, 0x3f, 0x61]⟩
    guid := Uuid.nil
    startLba := 64
    endLba := 127
    attributes := 0
    name := Vector.replicate 36 0 }

/-- An OpenBSD partition and one that starts where it ends, in a table of five. -/
def openbsdGpt : Gpt where
  header := ⟨gptSignature, gptRevision, 92, 0, 0, 1, 0, 0, 0, Uuid.nil, 2, 5, 128, 0⟩
  part := [unusedEntry, openbsdEntry, { openbsdEntry with
      type := ⟨0xebd0a0a2, 0xb9e5, 0x4433, 0x87, 0xc0, #v[0x68, 0xb6, 0xb7, 0x26, 0x99, 0xc7]⟩
      startLba := 128
      endLba := 200 },
    unusedEntry, unusedEntry]
  length_part := rfl

theorem openbsdGpt_storeOk (h : 205 ≤ d.size) : StoreOk d openbsdGpt := by
  have hlbas : partLbas openbsdGpt = 2 := rfl
  refine ⟨Or.inl rfl, by decide, by rw [hlbas]; omega, ?_⟩
  rw [hlbas]
  have hall : ∀ p ∈ openbsdGpt.part, ¬ uuidIsNil p.type →
      2 + 2 ≤ p.startLba.toNat ∧ p.startLba ≤ p.endLba ∧ p.endLba.toNat ≤ 200 := by decide
  intro p hp hnil
  obtain ⟨h1, h2, h3⟩ := hall p hp hnil
  exact ⟨h1, h2, by omega⟩

theorem openbsdGpt_verify : gptVerify (fun _ => false) openbsdGpt = true := by decide

/-- Writing that table to a blank disk of 300 sectors. -/
theorem xwrite_legal_openbsd :
    ∃ d', xwrite (fun _ => 0) (fun _ => false) (blankDisk 300 (by decide)) openbsdGpt
        = .ok (.clean d' (storedGpt (fun _ => 0) (blankDisk 300 (by decide)) openbsdGpt)) ∧
      ∀ l ∈ [1, d'.size - 1], LegalCopy d' (headerAt d' l) := by
  have ok : StoreOk (blankDisk 300 (by decide)) openbsdGpt := openbsdGpt_storeOk (by decide)
  have hstore : gptStore (fun _ => 0) (blankDisk 300 (by decide)) openbsdGpt = .ok (_, _) :=
    gptStore_ok_iff.mpr ⟨ok, rfl, rfl⟩
  have hwrite := xwrite_clean_iff.mpr ⟨openbsdGpt_verify, hstore⟩
  exact ⟨_, hwrite, xwrite_legal hwrite⟩

end OpenBsd.Gdisk
