/-
  OpenBsd.Kern.SubrDisk

  `readdoslabel` and `readgptlabel` of `sys/kern/subr_disk.c`, up to the point
  where the OpenBSD partition is placed.

  The label passed in describes the disk.  Block numbers count `DEV_BSIZE` units and are
  numbers here.  `partoffp` says whether the caller passed a pointer: if so, nothing is
  spoofed.  A run stops with an errno, or with a trap: a division by zero, an access past
  the end of an object, or a `panic`.
-/

import OpenBsd.Disklabel

namespace OpenBsd.Kern

open OpenBsd.Lib
open OpenBsd.Disklabel

inductive Errno where
  | einval
  | enospc
  | eio
  | enxio
  | enomem
deriving DecidableEq

inductive Stop where
  | errno (e : Errno)
  | trap
deriving DecidableEq

def dlBlkspersec (d : Disk) : Nat := d.secsize / devBsize

def dlSectoblk (d : Disk) (n : Nat) : Nat := n * dlBlkspersec d

def dlBlktosec (d : Disk) (n : Nat) : Nat := n / dlBlkspersec d

def dlBlkoffset (d : Disk) (n : Nat) : Nat := n % dlBlkspersec d * devBsize

theorem dlBlkspersec_pos (d : Disk) : 0 < dlBlkspersec d :=
  Nat.div_pos d.devBsize_le (by decide)

theorem dlBlktosec_sectoblk (d : Disk) (n : Nat) : dlBlktosec d (dlSectoblk d n) = n :=
  Nat.mul_div_cancel n (dlBlkspersec_pos d)

theorem dlBlkoffset_sectoblk (d : Disk) (n : Nat) : dlBlkoffset d (dlSectoblk d n) = 0 := by
  rw [dlBlkoffset, dlSectoblk, Nat.mul_mod_left, Nat.zero_mul]

/-- `(*strat)(bp); biowait(bp)` for one sector at `b_blkno`. -/
def strategy (d : Disk) (blkno : Nat) : Except Stop (List UInt8) :=
  if dlBlktosec d blkno < d.size then .ok (d.sector (dlBlktosec d blkno))
  else .error (.errno .eio)

theorem strategy_sectoblk {d : Disk} {n : Nat} (h : n < d.size) :
    strategy d (dlSectoblk d n) = .ok (d.sector n) := by
  rw [strategy, dlBlktosec_sectoblk, if_pos h]

theorem blktosec_mul_blkspersec (d : Disk) (n : Nat) :
    dlBlktosec d (dlSectoblk d n) * dlBlkspersec d = dlSectoblk d n := by
  rw [dlBlktosec_sectoblk, dlSectoblk]

/-- Where a label function places the OpenBSD partition, in sectors, and what
    it spoofs. -/
structure Placement where
  ourpart : Option Nat
  partoff : Nat
  partend : Nat
  slots : List Partition
deriving DecidableEq

/-! ## GPT -/

section

variable (crc32 : List UInt8 → UInt32)

/-- `gpt_chk_hdr`; `pad` are the four bytes behind the fields of the struct.
    `true` is the return value 0. -/
def gptChkHdr (gh : GptHeader) (pad : List UInt8) : Except Stop Bool :=
  if sizeofGptHeader < gh.ghSize.toNat then .error .trap
  else .ok (crc32 ((GptHeader.codec.enc { gh with ghCsum := 0 } ++ pad).take gh.ghSize.toNat)
    = gh.ghCsum)

/-- `gpt_chk_parts`; `true` is the return value 0. -/
def gptChkParts (gh : GptHeader) (gp : List GptPartition) : Bool :=
  crc32 ((gp.flatMap GptPartition.codec.enc).take (gh.ghPartNum * gh.ghPartSize).toNat)
    = gh.ghPartCsum

/-- `65535 * PAGE_SIZE`, above which `malloc` panics. -/
def mallocMax : Nat := 65535 * 4096

/-- The entries of one sector, `ghpartspersec` of them. -/
def sectorParts (ghpartspersec : Nat) (sec : List UInt8) : List GptPartition :=
  (List.range ghpartspersec).map fun k => GptPartition.codec.dec (sec.drop (k * sizeofGptPartition))

/-- The loop of `readgptlabel` that reads `n` sectors of the entry array from
    sector `lba` on. -/
def readGptParts (d : Disk) (ghpartspersec : Nat) :
    (n lba : Nat) → Except Stop (List GptPartition)
  | 0, _ => .ok []
  | n + 1, lba => do
      let part_blkno := dlSectoblk d lba
      let sec ← strategy d (dlBlktosec d part_blkno * dlBlkspersec d)
      let ps ← readGptParts d ghpartspersec n (lba + 1)
      return sectorParts ghpartspersec (sec.drop (dlBlkoffset d part_blkno)) ++ ps

omit crc32 in
theorem readGptParts_eq {d : Disk} (pps : Nat) {n lba : Nat} (h : lba + n ≤ d.size) :
    readGptParts d pps n lba
      = .ok ((List.range n).flatMap fun k => sectorParts pps (d.sector (lba + k))) := by
  induction n generalizing lba with
  | zero => rfl
  | succ n ih =>
    have hread : strategy d (dlBlktosec d (dlSectoblk d lba) * dlBlkspersec d)
        = .ok (d.sector lba) := by
      rw [blktosec_mul_blkspersec, strategy_sectoblk (by omega)]
    have hrest : readGptParts d pps n (lba + 1) = .ok _ := ih (by omega)
    simp only [readGptParts, hread, hrest, bind, Except.bind, pure, Except.pure,
      dlBlkoffset_sectoblk, List.drop_zero]
    rw [List.range_succ_eq_map, List.flatMap_cons, List.flatMap_map, Nat.add_zero]
    simp only [Nat.succ_eq_add_one, Nat.add_assoc, Nat.add_comm 1, Nat.add_zero]

omit crc32 in
theorem length_sectorParts (pps : Nat) (sec : List UInt8) : (sectorParts pps sec).length = pps := by
  rw [sectorParts, List.length_map, List.length_range]

/-- The array `gp`, allocated zeroed, after that loop. -/
def gptArray (d : Disk) (gh : GptHeader) : Except Stop (List GptPartition) := do
  let ghpartspersec := d.secsize / gh.ghPartSize.toNat
  let ghpartnum := gh.ghPartNum.toNat
  if mallocMax < ghpartnum * sizeofGptPartition then throw .trap
  let gp ← readGptParts d ghpartspersec (ghpartnum / ghpartspersec) gh.ghPartLba.toNat
  return gp ++ List.replicate (ghpartnum - gp.length) GptPartition.zero

/-- One round of the header loop of `readgptlabel`, on the header in sector
    `lba`.  `none` is `continue`: try the alternate header. -/
def gptTryHeader (d : Disk) (lba : Nat) (altheader : Bool) :
    Except Stop (Option (GptHeader × List GptPartition)) := do
  let part_blkno := dlSectoblk d lba
  let sec ← strategy d (dlBlktosec d part_blkno * dlBlkspersec d)
  let buf := sec.drop (dlBlkoffset d part_blkno)
  let gh := GptHeader.codec.dec buf
  -- `ghpartspersec = lp->d_secsize / ghpartsize`
  if gh.ghPartSize = 0 then throw .trap
  if gh.ghSig ≠ gptsignature then throw (.errno .einval)
  if gh.ghRev ≠ gptrevision then throw (.errno .einval)
  let good ← gptChkHdr crc32 gh ((buf.drop GptHeader.codec.size).take 4)
  if good = false then
    if altheader then throw (.errno .einval)
    if d.size ≤ gh.ghLbaAlt.toNat then throw (.errno .einval)
    return none
  if gh.ghSize.toNat < gptminhdrsize ∨ d.secsize < gh.ghSize.toNat then throw (.errno .einval)
  if d.size ≤ gh.ghLbaStart.toNat ∨ d.size ≤ gh.ghLbaEnd.toNat ∨ d.size ≤ gh.ghPartLba.toNat then
    throw (.errno .einval)
  if gh.ghPartSize.toNat % gptminpartsize ≠ 0 ∨ d.secsize < gh.ghPartSize.toNat ∨
      d.secsize / gh.ghPartSize.toNat = 0 then throw (.errno .einval)
  if gh.ghPartSize.toNat ≠ gptminpartsize then throw (.errno .einval)
  let gp ← gptArray d gh
  if gptChkParts crc32 gh gp = false then
    if altheader then throw (.errno .einval)
    return none
  return some (gh, gp)

/-- What `readgptlabel` asks of a header by itself; entries of 128 bytes are the
    only ones it takes. -/
structure KernHeaderOk (d : Disk) (gh : GptHeader) : Prop where
  sig : gh.ghSig = gptsignature
  rev : gh.ghRev = gptrevision
  size : gh.ghSize.toNat = gptminhdrsize
  csum : crc32 (GptHeader.codec.enc { gh with ghCsum := 0 }) = gh.ghCsum
  lbaStart : gh.ghLbaStart.toNat < d.size
  lbaEnd : gh.ghLbaEnd.toNat < d.size
  partLba : gh.ghPartLba.toNat < d.size
  partSize : gh.ghPartSize.toNat = gptminpartsize

/-- Behind a good header everything hangs on the entry array. -/
theorem gptTryHeader_eq {d : Disk} {n : Nat} {gh : GptHeader} (altheader : Bool) (hn : n < d.size)
    (hdec : GptHeader.codec.dec (d.sector n) = gh) (ok : KernHeaderOk crc32 d gh) :
    gptTryHeader crc32 d n altheader = (gptArray d gh).bind fun gp =>
      if gptChkParts crc32 gh gp = false then
        if altheader then .error (.errno .einval) else .ok none
      else .ok (some (gh, gp)) := by
  have hle := d.devBsize_le
  have hpart : gh.ghPartSize.toNat = 128 := ok.partSize
  have hsz : gh.ghSize.toNat = 92 := ok.size
  have hread : strategy d (dlBlktosec d (dlSectoblk d n) * dlBlkspersec d) = .ok (d.sector n) := by
    rw [blktosec_mul_blkspersec, strategy_sectoblk hn]
  have hzero : ¬ gh.ghPartSize = 0 := by
    intro h
    rw [h] at hpart
    exact absurd hpart (by decide)
  -- the checksum covers the header and nothing of what follows it in the sector
  have hchk : ∀ pad, gptChkHdr crc32 gh pad = .ok true := by
    intro pad
    have htake : (GptHeader.codec.enc { gh with ghCsum := 0 } ++ pad).take gh.ghSize.toNat
        = GptHeader.codec.enc { gh with ghCsum := 0 } :=
      List.take_left' (by rw [GptHeader.codec.length_enc, hsz]; rfl)
    rw [gptChkHdr, if_neg (by rw [hsz]; decide), htake, ok.csum, decide_eq_true rfl]
  have hhdr : ¬ (gh.ghSize.toNat < gptminhdrsize ∨ d.secsize < gh.ghSize.toNat) := by
    rw [hsz, gptminhdrsize]
    rw [devBsize] at hle
    omega
  -- the three addresses of the header are on the disk
  have hlbas : ¬ (d.size ≤ gh.ghLbaStart.toNat ∨ d.size ≤ gh.ghLbaEnd.toNat ∨
      d.size ≤ gh.ghPartLba.toNat) := by
    have h1 := ok.lbaStart
    have h2 := ok.lbaEnd
    have h3 := ok.partLba
    omega
  have hps : ¬ (¬ gptminpartsize % gptminpartsize = 0 ∨ d.secsize < gptminpartsize ∨
      d.secsize / gptminpartsize = 0) := by
    rw [gptminpartsize]
    rw [devBsize] at hle
    omega
  simp only [gptTryHeader, hread, bind, Except.bind, pure, Except.pure, dlBlkoffset_sectoblk,
    List.drop_zero, hdec, if_neg hzero, ok.sig, ok.rev, ne_eq, not_true_eq_false, if_false, hchk,
    Bool.true_eq_false, if_neg hhdr, if_neg hlbas, ok.partSize, if_neg hps]
  -- past the tests the array decides
  cases gptArray d gh with
  | error e => rfl
  | ok gp =>
    simp only
    by_cases hc : gptChkParts crc32 gh gp = false
    · rw [if_pos hc, if_pos hc]
      cases altheader <;> rfl
    · rw [if_neg hc, if_neg hc]

/-- The header loop of `readgptlabel`: the header in sector 1, else the one in
    the last sector. -/
def gptTable (d : Disk) : Except Stop (GptHeader × List GptPartition) := do
  match ← gptTryHeader crc32 d gptsector false with
  | some t => return t
  | none =>
    match ← gptTryHeader crc32 d (d.size - 1) true with
    | some t => return t
    -- not reached: with `altheader` there is no `continue`
    | none => throw (.errno .einval)

end

def getFstype (uuid_part : Uuid) : Fstype :=
  if uuid_part = uuidDecBe gptUuidUnused then .unused
  else if uuid_part = uuidDecBe gptUuidOpenbsd then .bsdffs
  else if uuid_part = uuidDecBe gptUuidMsdos then .msdos
  else if uuid_part = uuidDecBe gptUuidChromerootfs then .ext2fs
  else if uuid_part = uuidDecBe gptUuidLinux then .ext2fs
  else if uuid_part = uuidDecBe gptUuidAppleHfs then .hfs
  else .other

/-- The loop that looks for the OpenBSD partition and fills the spoofed slots;
    it ends at the partition it finds. -/
def gptScan (gh : GptHeader) (partoffp : Bool) :
    (i : Nat) → List GptPartition → List Partition → Option Nat × List Partition
  | _, [], slots => (none, slots)
  | i, gp :: gps, slots =>
    if gp.gpLbaStart > gp.gpLbaEnd ∨ gp.gpLbaStart < gh.ghLbaStart ∨
        gp.gpLbaEnd > gh.ghLbaEnd then
      gptScan gh partoffp (i + 1) gps slots
    else
      let uuid_part := uuidDecLe (Uuid.codec.enc gp.gpType)
      let slots :=
        if partoffp ∨ 8 ≤ slots.length then slots
        else slots ++ [⟨getFstype uuid_part, dl48 gp.gpLbaStart.toNat,
          dl48 (gp.gpLbaEnd - gp.gpLbaStart + 1).toNat⟩]
      if uuid_part = uuidDecBe gptUuidOpenbsd then (some i, slots)
      else gptScan gh partoffp (i + 1) gps slots

/-- What the scan for the OpenBSD partition stops at. -/
def gptOurs (gh : GptHeader) (gp : GptPartition) : Bool :=
  !(gp.gpLbaStart > gp.gpLbaEnd || gp.gpLbaStart < gh.ghLbaStart || gp.gpLbaEnd > gh.ghLbaEnd) &&
    gp.gpType = uuidDecBe gptUuidOpenbsd

/-- Spoofing does not influence which partition is found. -/
theorem gptScan_fst (gh : GptHeader) (partoffp : Bool) (i : Nat) (gps : List GptPartition)
    (slots : List Partition) :
    (gptScan gh partoffp i gps slots).1 = (gps.findIdx? (gptOurs gh)).map (· + i) := by
  induction gps generalizing i slots with
  | nil => rfl
  | cons gp gps ih =>
    -- the index counts from i
    have hshift : ∀ o : Option Nat, (o.map (· + 1)).map (· + i) = o.map (· + (i + 1)) := by
      intro o
      cases o with
      | none => rfl
      | some k => simp only [Option.map_some, Nat.add_comm, Nat.add_left_comm]
    rw [gptScan, List.findIdx?_cons]
    -- an entry outside the bounds is skipped whatever its type
    by_cases hbad : gp.gpLbaStart > gp.gpLbaEnd ∨ gp.gpLbaStart < gh.ghLbaStart ∨
        gp.gpLbaEnd > gh.ghLbaEnd
    · have hno : gptOurs gh gp = false := by
        simp only [gptOurs, Bool.and_eq_false_iff, Bool.not_eq_false', Bool.or_eq_true,
          decide_eq_true_eq]
        exact Or.inl (or_assoc.mpr hbad)
      rw [if_pos hbad, ih, hno, if_neg (by decide), hshift]
    · rw [if_neg hbad]
      simp only [uuidDecLe_enc]
      -- of the others the first OpenBSD one ends the search
      by_cases hty : gp.gpType = uuidDecBe gptUuidOpenbsd
      · have hyes : gptOurs gh gp = true := by
          simp only [gptOurs, hty, decide_true, Bool.and_true, Bool.not_eq_true',
            Bool.or_eq_false_iff, decide_eq_false_iff_not, and_assoc]
          exact ⟨fun h => hbad (Or.inl h), fun h => hbad (Or.inr (Or.inl h)),
            fun h => hbad (Or.inr (Or.inr h))⟩
        rw [if_pos hty, hyes, if_pos rfl, Option.map_some, Nat.zero_add]
      · have hno : gptOurs gh gp = false := by
          simp only [gptOurs, hty, decide_false, Bool.and_false]
        rw [if_neg hty, ih, hno, if_neg (by decide), hshift]

/-- `readgptlabel` up to the placement of the OpenBSD partition.  `bend` is
    `DL_GETBEND` of the label passed in. -/
def readgptlabel (crc32 : List UInt8 → UInt32) (d : Disk) (secpercyl bend : Nat)
    (partoffp : Bool) : Except Stop Placement := do
  if secpercyl = 0 then throw (.errno .einval)
  if d.secsize = 0 then throw (.errno .enospc)
  let (gh, gp) ← gptTable crc32 d
  let (ourpart, slots) := gptScan gh partoffp 0 gp []
  match ourpart with
  | some i =>
    let gp_tmp := gp.getD i GptPartition.zero
    return ⟨some i, gp_tmp.gpLbaStart.toNat, (gp_tmp.gpLbaEnd + 1).toNat, slots⟩
  | none => return ⟨none, 0, bend, slots⟩

/-! ## MBR -/

/-- An entry that links to another boot record. -/
def dpExtended (dp : DosPartition) : Bool :=
  dp.dpTyp = dosptypExtend || dp.dpTyp = dosptypExtendl

/-- The file system type of a spoofed entry. -/
def dosFstype (dp : DosPartition) : Fstype :=
  if dp.dpTyp = dosptypUnused then .unused
  else if dp.dpTyp = dosptypLinux then .ext2fs
  else if dp.dpTyp = dosptypNtfs then .ntfs
  else if dp.dpTyp = dosptypEfisys ∨ dp.dpTyp = dosptypFat12 ∨ dp.dpTyp = dosptypFat16s ∨
      dp.dpTyp = dosptypFat16b ∨ dp.dpTyp = dosptypFat16l ∨ dp.dpTyp = dosptypFat32 ∨
      dp.dpTyp = dosptypFat32l then .msdos
  else .other

/-- The variables of `readdoslabel`; `bData` is the sector read last. -/
structure DosState where
  sector : Nat
  extoff : UInt32
  wander : Bool
  ourpart : Option Nat
  partoff : Nat
  partend : Nat
  slots : List Partition
  bData : List UInt8

/-- The loop over the entries of one record that spoofs partitions and takes
    the link.  `poffset k` is the offset spoofed slot `k` had before. -/
def dosSpoof (d : Disk) (partoffp : Bool) (poffset : Nat → Nat) :
    List DosPartition → DosState → DosState
  | [], s => s
  | dp :: dps, s =>
    if dp.dpTyp = dosptypOpenbsd ∨ dp.dpTyp = dosptypEfi then dosSpoof d partoffp poffset dps s
    else if d.size < dp.dpSize.toNat ∨ d.size < dp.dpStart.toNat ∨ dp.dpSize = 0 then
      dosSpoof d partoffp poffset dps s
    else if dpExtended dp then
      -- the sum is a 32-bit one
      let s :=
        if s.extoff = 0 then { s with extoff := dp.dpStart, sector := 0, wander := true }
        else { s with sector := (dp.dpStart + s.extoff).toNat, wander := true }
      dosSpoof d partoffp poffset dps s
    else if partoffp ∨ 8 ≤ s.slots.length then dosSpoof d partoffp poffset dps s
    else
      let offset :=
        if dp.dpStart ≠ 0 then dl48 (dp.dpStart.toNat + s.sector) else poffset s.slots.length
      dosSpoof d partoffp poffset dps
        { s with slots := s.slots ++ [⟨dosFstype dp, offset, dl48 dp.dpSize.toNat⟩] }

/-- The entry the search for the OpenBSD partition stops at. -/
def dosOurpart (dps : List DosPartition) : Option Nat :=
  dps.findIdx? fun dp => dp.dpSize ≠ 0 && dp.dpTyp = dosptypOpenbsd

/-- Where control goes after one record. -/
inductive DosNext where
  /-- `return (0)`, the partition placed for the caller -/
  | placed
  /-- `goto notmbr` -/
  | notmbr
  /-- the next round of the loop -/
  | next
deriving DecidableEq

/-- The body of the loop of `readdoslabel`. -/
def dosRecord (d : Disk) (partoffp : Bool) (poffset : Nat → Nat) (s : DosState) :
    Except Stop (DosState × DosNext) := do
  let s := { s with wander := false, sector := max s.sector s.extoff.toNat }
  let sec ← strategy d (dlSectoblk d s.sector)
  let s := { s with bData := sec }
  if s.slots.length = 0 ∧ s.sector = dosbbsector ∧ (sec.getD 510 0 ≠ 0x55 ∨ sec.getD 511 0 ≠ 0xaa) then
    return (s, .notmbr)
  let dps := dmbrParts sec
  match s.ourpart, dosOurpart dps with
  | none, some i =>
    let dp := dps.getD i (DosPartition.codec.dec [])
    let dospartoff := dp.dpStart.toNat + s.sector
    let s := { s with
      ourpart := some i
      partoff := dospartoff
      partend := dospartoff + dp.dpSize.toNat }
    if partoffp then return (s, .placed)
    return (dosSpoof d partoffp poffset dps s, .next)
  | _, _ => return (dosSpoof d partoffp poffset dps s, .next)

/-- The loop of `readdoslabel`, at most `DOS_MAXEBR` records.  The flag is set
    when the function returned from inside. -/
def dosLoop (d : Disk) (partoffp : Bool) (poffset : Nat → Nat) :
    Nat → DosState → Except Stop (DosState × Bool)
  | 0, s => .ok (s, false)
  | fuel + 1, s =>
    if s.wander = false then .ok (s, false)
    else do
      match ← dosRecord d partoffp poffset s with
      | (s, .placed) => return (s, true)
      | (s, .notmbr) => return (s, false)
      | (s, .next) => dosLoop d partoffp poffset fuel s

def fatTest (b : List UInt8) : Bool :=
  let jmp := if b.getD 0 0 = 0xeb then b.getD 2 0 = 0x90 else b.getD 0 0 = 0xe9
  let fattest := (b.getD 12 0).toNat * 256 + (b.getD 11 0).toNat
  jmp && 512 ≤ fattest && fattest ≤ 4096 && fattest % 512 = 0

/-- `readdoslabel` up to the placement of the OpenBSD partition.  `bend` is
    `DL_GETBEND` of the label passed in, `rawsize` the size of its raw
    partition. -/
def readdoslabel (d : Disk) (secpercyl bend rawsize : Nat) (poffset : Nat → Nat)
    (partoffp : Bool) : Except Stop Placement := do
  if secpercyl = 0 then throw (.errno .einval)
  if d.secsize = 0 then throw (.errno .enospc)
  let (s, returned) ← dosLoop d partoffp poffset dosMaxebr
    ⟨dosbbsector, 0, true, none, 0, bend, [], []⟩
  if returned then return ⟨s.ourpart, s.partoff, s.partend, s.slots⟩
  if s.slots.length = 0 ∧ s.sector = dosbbsector ∧ s.ourpart = none ∧ fatTest s.bData then
    if partoffp then throw (.errno .enxio)
    return ⟨none, s.partoff, s.partend, [⟨.msdos, 0, rawsize⟩]⟩
  return ⟨s.ourpart, s.partoff, s.partend, s.slots⟩

end OpenBsd.Kern
