/-
  OpenBsd.Efiboot.Efidev

  `efid_io`, `findopenbsd` and `findopenbsd_gpt` of
  `sys/arch/amd64/stand/efiboot/efidev.c`.

  `Media->BlockSize` is the sector size of the disk and `Media->LastBlock` its
  last LBA.  Offsets passed to `efid_io` are `u_int` and count `DEV_BSIZE`
  blocks.  `buf` has room for exactly the blocks asked for, so a copy past its
  end, or a part of it that is never filled, makes the behaviour undefined.
-/

import OpenBsd.Disklabel

namespace OpenBsd.Efiboot

open OpenBsd.Lib
open OpenBsd.Disklabel

/-- How `efid_io` fails. -/
inductive IoStop where
  /-- an EFI error status -/
  | status
  | undef
deriving DecidableEq

def efiBlkspersec (d : Disk) : Nat := d.secsize / devBsize

/-- `EFI_SECTOBLK` on a 64-bit LBA. -/
def efiSectoblk (d : Disk) (n : Nat) : Nat := n * efiBlkspersec d % 2 ^ 64

def readBlocks (d : Disk) (lba n : Nat) : Except IoStop (List UInt8) :=
  if lba + n ≤ d.size then .ok ((List.range n).flatMap fun k => d.sector (lba + k))
  else .error .status

/-- The blocks in front of the first whole sector. -/
def efidHead (d : Disk) (lba i_lblks : Nat) : Except IoStop (List UInt8) :=
  if 0 < i_lblks then do
    -- `lba - 1` is a `u_int`
    let iblk ← readBlocks d ((lba + (2 ^ 32 - 1)) % 2 ^ 32) 1
    return (iblk.drop (efiBlkspersec d - i_lblks)).take (i_lblks * devBsize)
  else .ok []

/-- The whole sectors. -/
def efidBody (d : Disk) (lba i_nblks : Nat) : Except IoStop (List UInt8) :=
  if 0 < i_nblks then readBlocks d lba (i_nblks / efiBlkspersec d) else .ok []

/-- The blocks behind the last whole sector. -/
def efidTail (d : Disk) (lba i_tblks : Nat) : Except IoStop (List UInt8) :=
  if 0 < i_tblks then do
    let iblk ← readBlocks d lba 1
    return iblk.take (i_tblks * devBsize)
  else .ok []

/-- `efid_io` with `F_READ`: the bytes it leaves in `buf`. -/
def efidIo (d : Disk) (off nsect : Nat) : Except IoStop (List UInt8) := do
  let blks := efiBlkspersec d
  let lba := off / blks
  let i_lblks := if off % blks = 0 then 0 else blks - off % blks
  let i_tblks := (off + nsect) % 2 ^ 32 % blks
  let head ← efidHead d lba i_lblks
  -- `i_nblks = nsect - (i_lblks + i_tblks)` wraps: `buf` is too small for the copies
  if nsect < i_lblks + i_tblks then throw .undef
  let i_nblks := nsect - (i_lblks + i_tblks)
  -- the transfer length is a 32-bit product
  if i_nblks % blks ≠ 0 ∨ 2 ^ 32 ≤ i_nblks * devBsize then throw .undef
  let body ← efidBody d lba i_nblks
  let tail ← efidTail d (lba + i_nblks / blks) i_tblks
  return head ++ body ++ tail

variable {d : Disk}

theorem readBlocks_one {lba : Nat} (h : lba < d.size) :
    readBlocks d lba 1 = .ok (d.sector lba) := by
  rw [readBlocks, if_pos (by omega)]
  simp

theorem efidIo_one_eq (hsec : d.secsize = devBsize) (off : Nat) :
    efidIo d off 1 = readBlocks d off 1 := by
  have hblks : efiBlkspersec d = 1 := by
    rw [efiBlkspersec, hsec]
    decide
  have hhead : efidHead d off 0 = .ok [] := rfl
  have htail : efidTail d (off + 1) 0 = .ok [] := rfl
  have hbody : efidBody d off 1 = readBlocks d off 1 := by
    rw [efidBody, if_pos Nat.zero_lt_one, hblks]
  have hfit : ¬ (0 ≠ 0 ∨ 2 ^ 32 ≤ 1 * devBsize) := by decide
  simp only [efidIo, hblks, Nat.mod_one, Nat.div_one, if_true, Nat.add_zero, Nat.not_lt_zero,
    Nat.sub_zero, hhead, htail, hbody, bind, Except.bind, pure, Except.pure, if_neg hfit, if_false]
  cases readBlocks d off 1 with
  | error e => rfl
  | ok bs => simp only [List.nil_append, List.append_nil]

theorem efidIo_one (hsec : d.secsize = devBsize) {off : Nat} (h : off < d.size) :
    efidIo d off 1 = .ok (d.sector off) := by
  rw [efidIo_one_eq hsec, readBlocks_one h]

theorem efidIo_one_eof (hsec : d.secsize = devBsize) {off : Nat} (h : d.size ≤ off) :
    efidIo d off 1 = .error .status := by
  rw [efidIo_one_eq hsec, readBlocks, if_neg (by omega)]

theorem efidIo_zero (h : 0 < d.size) : efidIo d 0 1 = .ok ((d.sector 0).take devBsize) := by
  by_cases hsec : d.secsize = devBsize
  · rw [efidIo_one hsec h, List.take_of_length_le (by rw [d.length_sector, hsec])]
  -- sectors are larger than a block: block 0 is the trailing part of a request
  have hblks : 1 < efiBlkspersec d := by
    obtain ⟨k, hk⟩ := d.secsize_dvd
    have hpos := d.secsize_pos
    rw [efiBlkspersec, hk, Nat.mul_div_cancel_left _ (by decide)]
    rw [devBsize] at hk hsec
    omega
  have hlead : 0 % efiBlkspersec d = 0 := Nat.zero_mod _
  have htrail : (0 + 1) % 2 ^ 32 % efiBlkspersec d = 1 := Nat.mod_eq_of_lt hblks
  have hdiv : 0 / efiBlkspersec d = 0 := Nat.zero_div _
  have htail : efidTail d 0 1 = .ok ((d.sector 0).take devBsize) := by
    simp only [efidTail, if_pos Nat.zero_lt_one, readBlocks_one h, bind, Except.bind, pure,
      Except.pure, Nat.one_mul]
  have hfit : ¬ (0 ≠ 0 ∨ 2 ^ 32 ≤ 0 * devBsize) := by decide
  -- there is neither a leading part nor a whole sector
  have hhead : efidHead d 0 0 = .ok [] := rfl
  have hbody : efidBody d 0 0 = .ok [] := rfl
  simp only [efidIo, hlead, htrail, hdiv, if_true, hhead, Nat.zero_add, Nat.lt_irrefl, if_false,
    Nat.sub_self, if_neg hfit, hbody, htail, bind, Except.bind, pure, Except.pure, List.nil_append]

/-- What a search returns: its value and `*err`. -/
inductive Ret (α : Type) where
  | val (v : α) (err : Option String)
  /-- undefined behaviour, or a loop that is never left -/
  | undef
deriving DecidableEq

/-! ## GPT -/

def openbsdUuid : Uuid := uuidDecBe gptUuidOpenbsd

def gptPartspersec (gh : GptHeader) : Nat := devBsize / gh.ghPartSize.toNat

/-- The entries of one block, from entry `i` on: `some` is the value returned. -/
def gptScanBlock (gh : GptHeader) (buf : List UInt8) : (n i : Nat) → Ret (Option UInt64)
  | 0, _ => .val none none
  | n + 1, i =>
    let off := gh.ghPartSize.toNat * i
    -- `gp_type` and `gp_lba_start` must lie in `buf`
    if devBsize < off + 16 then .undef
    else if Uuid.codec.dec (buf.drop off) = openbsdUuid then
      if devBsize < off + 40 then .undef
      else .val (some (GptPartition.codec.dec (buf.drop off)).gpLbaStart) none
    else gptScanBlock gh buf n (i + 1)

/-- The `while` loop of `findopenbsd_gpt`, with `fuel` tests of its condition to
    go: `none` when they do not suffice.  `part` is an `int` that is compared as
    an unsigned number, kept here as its bits. -/
def gptScanBlocks (d : Disk) (gh : GptHeader) : (fuel part lba : Nat) → Option (Ret UInt64)
  | 0, _, _ => none
  | fuel + 1, part, lba =>
    if part < gh.ghPartNum.toNat then
      match efidIo d (efiSectoblk d lba % 2 ^ 32) 1 with
      | .error .undef => some .undef
      | .error .status => some (.val (-1) (some "I/O Error\n"))
      | .ok buf =>
        -- `GPT_PARTSPERSEC` divides
        if gh.ghPartSize = 0 then some .undef
        else
          match gptScanBlock gh buf (gptPartspersec gh) 0 with
          | .undef => some .undef
          | .val (some v) _ => some (.val v none)
          | .val none _ =>
            gptScanBlocks d gh fuel ((part + gptPartspersec gh) % 2 ^ 32) (lba + 1)
    else some (.val (-1) none)

def findopenbsdGpt (d : Disk) : Ret UInt64 :=
  match efidIo d (efiSectoblk d 1 % 2 ^ 32) 1 with
  -- the status is not looked at, and `buf` was not filled
  | .error _ => .undef
  | .ok buf =>
    let gh := GptHeader.codec.dec buf
    if gh.ghSig ≠ gptsignature then .val (-1) (some "bad GPT signature\n")
    else if devBsize < gh.ghPartSize.toNat then
      .val (-1) (some "GPT paritition size beyonds the limit\n")
    else if d.size - 1 ≤ gh.ghLbaStart.toNat ∨ gh.ghLbaStart ≤ gh.ghPartLba then
      .val (-1) (some "bad GPT header\n")
    -- the product has 32 bits
    else if (gh.ghLbaStart - gh.ghPartLba).toNat
        < (gh.ghPartNum * gh.ghPartSize).toNat / d.secsize then
      .val (-1) (some "bad GPT number of partition entries\n")
    -- the block number and `part` repeat after 2^32 turns: a loop that is not
    -- left by then never is
    else
      match gptScanBlocks d gh (2 ^ 32) 0 gh.ghPartLba.toNat with
      | none => .undef
      | some r => r

/-- What `findopenbsd_gpt` asks of a header, with entries of 128 bytes. -/
structure EfiHeaderOk (d : Disk) (gh : GptHeader) : Prop where
  sig : gh.ghSig = gptsignature
  partSize : gh.ghPartSize.toNat = sizeofGptPartition
  lbaStart : gh.ghLbaStart.toNat < d.size - 1
  partLba : gh.ghPartLba < gh.ghLbaStart
  partNum : (gh.ghPartNum * gh.ghPartSize).toNat / d.secsize ≤ (gh.ghLbaStart - gh.ghPartLba).toNat

theorem findopenbsdGpt_eq {gh : GptHeader} {sec : List UInt8}
    (hread : efidIo d (efiSectoblk d 1 % 2 ^ 32) 1 = .ok sec)
    (hdec : GptHeader.codec.dec sec = gh) (ok : EfiHeaderOk d gh) :
    findopenbsdGpt d = (gptScanBlocks d gh (2 ^ 32) 0 gh.ghPartLba.toNat).getD .undef := by
  have hps : ¬ devBsize < gh.ghPartSize.toNat := by
    rw [ok.partSize]
    decide
  -- the tests of efiboot, in their order
  have hlba : ¬ (d.size - 1 ≤ gh.ghLbaStart.toNat ∨ gh.ghLbaStart ≤ gh.ghPartLba) := by
    rintro (h | h)
    · exact absurd ok.lbaStart (Nat.not_lt.mpr h)
    · exact absurd ok.partLba (UInt64.not_lt.mpr h)
  simp only [findopenbsdGpt, hread, hdec, ok.sig, ne_eq, not_true_eq_false, if_false, if_neg hps,
    if_neg hlba, if_neg (Nat.not_lt.mpr ok.partNum)]
  cases gptScanBlocks d gh (2 ^ 32) 0 gh.ghPartLba.toNat <;> rfl

/-! ## MBR -/

/-- What the loop over the entries of one record comes to. -/
inductive MbrScan where
  /-- `return` -/
  | ret (r : Ret UInt32)
  /-- the loop ended with these values of `nextebr` and `mbr_eoff` -/
  | done (nextebr mbrEoff : UInt32)
deriving DecidableEq

/-- The return value when a protective entry was met. -/
def findopenbsdEfi (d : Disk) : Ret UInt32 :=
  match findopenbsdGpt d with
  | .undef => .undef
  | .val gptoff err =>
    if 2 ^ 32 ≤ gptoff.toNat ∨ 2 ^ 32 ≤ efiSectoblk d gptoff.toNat then
      .val (-1) (some "Paritition LBA > 2**32")
    else .val (UInt32.ofNat (efiSectoblk d gptoff.toNat)) err

/-- The loop of `findopenbsd` over the entries of one record.  `nextebr` is an
    `int`, kept here as its bits. -/
def mbrScan (d : Disk) (mbroff : UInt32) :
    List DosPartition → (nextebr mbrEoff : UInt32) → MbrScan
  | [], nextebr, mbrEoff => .done nextebr mbrEoff
  | dp :: dps, nextebr, mbrEoff =>
    if dp.dpSize = 0 then mbrScan d mbroff dps nextebr mbrEoff
    else if dp.dpTyp = dosptypOpenbsd then
      if dp.dpStart > dp.dpStart + mbroff then mbrScan d mbroff dps nextebr mbrEoff
      else .ret (.val (dp.dpStart + mbroff) none)
    else if nextebr = 0 ∧ (dp.dpTyp = dosptypExtend ∨ dp.dpTyp = dosptypExtendl) then
      let nextebr := dp.dpStart + mbrEoff
      let nextebr := if nextebr < dp.dpStart then -1 else nextebr
      let mbrEoff := if mbrEoff = 0 then dp.dpStart else mbrEoff
      mbrScan d mbroff dps nextebr mbrEoff
    else if dp.dpTyp = dosptypEfi then .ret (findopenbsdEfi d)
    else mbrScan d mbroff dps nextebr mbrEoff

/-- The loop of `findopenbsd` over boot records, with `maxebr` to go. -/
def findopenbsdFrom (d : Disk) : (maxebr : Nat) → (mbroff mbrEoff : UInt32) → Ret UInt32
  | 0, _, _ => .val (-1) (some "too many extended partitions")
  | maxebr + 1, mbroff, mbrEoff =>
    match efidIo d mbroff.toNat 1 with
    | .error .undef => .undef
    | .error .status => .val (-1) (some "Disk I/O Error")
    | .ok mbr =>
      if dmbrSign mbr ≠ dosmbrSignature then .val (-1) (some "bad MBR signature\n")
      else
        match mbrScan d mbroff (dmbrParts mbr) 0 mbrEoff with
        | .ret r => r
        | .done nextebr mbrEoff =>
          if nextebr ≠ 0 ∧ nextebr ≠ -1 then findopenbsdFrom d maxebr nextebr mbrEoff
          else .val (-1) none

theorem findopenbsdFrom_succ (d : Disk) (maxebr : Nat) (mbroff mbrEoff : UInt32) :
    findopenbsdFrom d (maxebr + 1) mbroff mbrEoff =
      match efidIo d mbroff.toNat 1 with
      | .error .undef => .undef
      | .error .status => .val (-1) (some "Disk I/O Error")
      | .ok mbr =>
        if dmbrSign mbr ≠ dosmbrSignature then .val (-1) (some "bad MBR signature\n")
        else
          match mbrScan d mbroff (dmbrParts mbr) 0 mbrEoff with
          | .ret r => r
          | .done nextebr mbrEoff =>
            if nextebr ≠ 0 ∧ nextebr ≠ -1 then findopenbsdFrom d maxebr nextebr mbrEoff
            else .val (-1) none := by
  rfl

def findopenbsd (d : Disk) : Ret UInt32 := findopenbsdFrom d dosMaxebr 0 0

end OpenBsd.Efiboot
