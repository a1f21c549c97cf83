/-
  OpenBsd.Gdisk.Gpt

  `GPT_load`, `GPT_store` and `GPT_verify` of `sbin/gdisk/gpt.c`.

  The in-memory table is a header and the array `part` of `partitions_num` entries.  Both
  checksums are taken over memory images, and `crc32` is a parameter.  A C function that
  stops early returns -1, or its behaviour is undefined (`Fault`).  `GPT_store` never reads
  the sectors it fills: it is the writes it issues (`storeWrites`), of which `gptStore`
  carries out all and an interrupted store only a prefix.
-/

import OpenBsd.Disk
import OpenBsd.Gdisk.Part

namespace OpenBsd.Gdisk

open OpenBsd.Lib

/-! ## The header -/

def gptSignature : UInt64 := 0x5452415020494645

def gptRevision : UInt32 := 0x10000

/-- `gpt_header_t` -/
structure GptHeader where
  signature : UInt64
  revision : UInt32
  headerSize : UInt32
  headerChecksum : UInt32
  reserved : UInt32
  currentLba : UInt64
  backupLba : UInt64
  startLba : UInt64
  endLba : UInt64
  guid : Uuid
  partitionsLba : UInt64
  partitionsNum : UInt32
  partitionsSize : UInt32
  partitionsChecksum : UInt32
deriving DecidableEq

/-- The packed memory image of `gpt_header_t`. -/
def GptHeader.codec : Codec GptHeader :=
  (u64.prod (u32.prod (u32.prod (u32.prod (u32.prod (u64.prod (u64.prod (u64.prod (u64.prod
    (Uuid.codec.prod (u64.prod (u32.prod (u32.prod u32))))))))))))).iso
    (fun ⟨sig, rev, size, csum, rsvd, cur, bak, start, «end», guid, plba, pnum, psize, pcsum⟩ =>
      ⟨sig, rev, size, csum, rsvd, cur, bak, start, «end», guid, plba, pnum, psize, pcsum⟩)
    (fun h => (h.signature, h.revision, h.headerSize, h.headerChecksum, h.reserved,
      h.currentLba, h.backupLba, h.startLba, h.endLba, h.guid, h.partitionsLba,
      h.partitionsNum, h.partitionsSize, h.partitionsChecksum))
    (fun _ => rfl)

/-- `sizeof(gpt_header_t)` -/
def sizeofGptHeader : Nat := 92

@[simp] theorem GptHeader.codec_size : GptHeader.codec.size = sizeofGptHeader := rfl

/-- `gpt_t`: the array holds `partitions_num` entries. -/
structure Gpt where
  header : GptHeader
  part : List GptPartition
  length_part : part.length = header.partitionsNum.toNat

/-- How a C function that does not return 0 ends. -/
inductive Fault where
  /-- It returns -1. -/
  | error
  /-- Its behaviour is undefined. -/
  | undef
deriving DecidableEq

def intMax : Nat := 2 ^ 31 - 1

/-- `(uint64_t)(int)v`: an LBA that went through an `int`. -/
def u64OfInt (v : UInt64) : Nat :=
  let low := v.toNat % 2 ^ 32
  if low ≤ intMax then low else low + (2 ^ 64 - 2 ^ 32)

section

variable (crc32 : List UInt8 → UInt32)

/-- `crc32(0, (unsigned char *)gpt->header, gpt->header->header_size)` -/
def headerCrc (h : GptHeader) : UInt32 :=
  crc32 ((GptHeader.codec.enc h).take h.headerSize.toNat)

/-- `crc32(0, (unsigned char *)gpt->part, partitions_num * partitions_size)`;
    the length is a 32-bit product. -/
def partCrc (h : GptHeader) (part : List GptPartition) : UInt32 :=
  crc32 ((partBytes part).take (h.partitionsNum * h.partitionsSize).toNat)

/-! ## Loading -/

def gptRead (d : Disk) (lba : Nat) : Except Fault Block :=
  if lba < d.size then .ok (d.block lba) else .error .error

omit crc32 in
theorem gptRead_ok {d : Disk} {lba : Nat} (h : lba < d.size) :
    gptRead d lba = .ok (d.block lba) := if_pos h

/-- The read of `GPT_load` in front of every fourth entry. -/
def loadSector (d : Disk) (partitionsLba i : Nat) (buf : Block) : Except Fault Block :=
  if i % 4 = 0 then gptRead d (partitionsLba + i / 4) else .ok buf

/-- The loop of `GPT_load` over the entries, from index `i` on; `buf` is the
    sector read last. -/
def loadParts (d : Disk) (partitionsLba : Nat) :
    (n i : Nat) → Block → Except Fault { l : List GptPartition // l.length = n }
  | 0, _, _ => .ok ⟨[], rfl⟩
  | n + 1, i, buf => do
      let buf ← loadSector d partitionsLba i buf
      let p := GptPartition.codec.dec (buf.val.drop (i % 4 * sizeofGptPartition))
      -- `i++`
      if i = intMax then throw .undef
      let ps ← loadParts d partitionsLba n (i + 1) buf
      return ⟨p :: ps.val, by rw [List.length_cons, ps.property]⟩

/-- `GPT_load` once the header is in memory. -/
def loadTable (d : Disk) (h : GptHeader) (buf : Block) : Except Fault Gpt := do
  if h.signature ≠ gptSignature then throw .error
  if sizeofGptHeader < h.headerSize.toNat then throw .error
  if headerCrc crc32 { h with headerChecksum := 0 } ≠ h.headerChecksum then throw .error
  if h.partitionsSize.toNat ≠ sizeofGptPartition then throw .error
  let part ← loadParts d h.partitionsLba.toNat h.partitionsNum.toNat 0 buf
  if partCrc crc32 h part.val ≠ h.partitionsChecksum then throw .error
  return ⟨h, part.val, part.property⟩

/-- The header sector `GPT_load` works on.  With `alt` the sector at LBA 1 only
    says where the backup header is, and that LBA is kept in an `int`. -/
def loadHeader (d : Disk) (alt : Bool) : Except Fault Block := do
  if d.size ≤ 1 then throw .error
  let buf ← gptRead d 1
  if alt then
    let offset := u64OfInt (GptHeader.codec.dec buf.val).backupLba
    if d.size ≤ offset then throw .error
    gptRead d offset
  else
    return buf

def gptLoad (d : Disk) (alt : Bool) : Except Fault Gpt := do
  let buf ← loadHeader d alt
  loadTable crc32 d (GptHeader.codec.dec buf.val) buf

/-- How `USER_modify` reads the table: the primary copy, then the backup. -/
def userLoad (d : Disk) : Except Fault Gpt :=
  match gptLoad crc32 d false with
  | .error .error => gptLoad crc32 d true
  | r => r

/-! ## Storing -/

/-- `need`, the number of LBAs one copy takes. -/
def needLbas (h : GptHeader) : Nat := (1 + (h.partitionsNum + 3) / 4).toNat

/-- The usable range `GPT_store` computes. -/
def storeRange (d : Disk) (h : GptHeader) : GptHeader :=
  { h with
    startLba := UInt64.ofNat (needLbas h + 1)
    endLba := UInt64.ofNat d.size - UInt64.ofNat (needLbas h + 1) }

/-- The bounds check of `GPT_store`, from entry `i` on. -/
def storeBounds (h : GptHeader) : Nat → List GptPartition → Except Fault Unit
  | _, [] => .ok ()
  | i, p :: ps =>
    if ¬ uuidIsNil p.type ∧
        (p.startLba < h.startLba ∨ p.startLba > p.endLba ∨ p.endLba > h.endLba) then
      .error .error
    -- `i++`
    else if i = intMax then .error .undef
    else storeBounds h (i + 1) ps

/-- The loop of `GPT_store` that writes the entries four to a sector, with the
    flush of the last, partly filled one. -/
def storeParts (partitionsLba : Nat) : Nat → Block → List GptPartition → List (Nat × Block)
  | i, buf, [] => if i % 4 ≠ 0 then [(partitionsLba + i / 4, buf)] else []
  | i, buf, p :: ps =>
    let buf := buf.memcpy (i % 4 * sizeofGptPartition) (GptPartition.codec.enc p)
    if i % 4 = 3 then
      (partitionsLba + i / 4, buf) :: storeParts partitionsLba (i + 1) Block.zero ps
    else
      storeParts partitionsLba (i + 1) buf ps

/-- The sector writes of one copy: header, then entries. -/
def storeCopy (h : GptHeader) (part : List GptPartition) : List (Nat × Block) :=
  (h.currentLba.toNat, Block.ofBytes (GptHeader.codec.enc h)) ::
    storeParts h.partitionsLba.toNat 0 Block.zero part

/-- `GPT_store` up to the transfers: the writes it issues, in order, and the
    table as it leaves it in memory. -/
def storeWrites (d : Disk) (g : Gpt) : Except Fault (List (Nat × Block) × Gpt) := do
  let h := g.header
  if h.currentLba ≠ 1 ∧ h.backupLba ≠ 1 then throw .error
  let need := needLbas h
  let h := storeRange d h
  -- `need+need+1` is an `int`
  if intMax < need + need + 1 then throw .undef
  if d.size < need + need + 1 then throw .error
  storeBounds h 0 g.part
  let h := { h with
    signature := gptSignature
    revision := gptRevision
    headerSize := UInt32.ofNat sizeofGptHeader
    headerChecksum := 0
    reserved := 0
    currentLba := 1
    backupLba := UInt64.ofNat d.size - 1
    partitionsLba := 2
    partitionsSize := UInt32.ofNat sizeofGptPartition }
  let h := { h with partitionsChecksum := partCrc crc32 h g.part }
  let h := { h with headerChecksum := headerCrc crc32 h }
  let primary := storeCopy h g.part
  let h := { h with
    currentLba := UInt64.ofNat d.size - 1
    backupLba := 1
    partitionsLba := h.endLba + 1
    headerChecksum := 0 }
  let h := { h with headerChecksum := headerCrc crc32 h }
  return (primary ++ storeCopy h g.part, ⟨h, g.part, g.length_part⟩)

def gptWrite (d : Disk) (w : Nat × Block) : Except Fault Disk :=
  if w.1 < d.size then .ok (d.write w.1 w.2) else .error .error

def gptStore (d : Disk) (g : Gpt) : Except Fault (Disk × Gpt) := do
  let (ws, g) ← storeWrites crc32 d g
  let d ← ws.foldlM gptWrite d
  return (d, g)

end

/-! ## Verifying -/

/-- The inner loop of `GPT_verify`: every overlap of `p1` with a later entry
    asks.  `askYn k` is the answer to question `k`; the result is the number of
    the next question, or `none` for the return value -1. -/
def verifyOverlaps (askYn : Nat → Bool) (p1 : GptPartition) : Nat → List GptPartition → Option Nat
  | k, [] => some k
  | k, p2 :: ps =>
    if !uuidIsNil p2.type && prtOverlap p1 p2 then
      if askYn k then verifyOverlaps askYn p1 (k + 1) ps else none
    else verifyOverlaps askYn p1 k ps

/-- The outer loop of `GPT_verify`; `n` counts the OpenBSD entries so far. -/
def verifyParts (askYn : Nat → Bool) : (n k : Nat) → List GptPartition → Bool
  | n, k, [] => if 2 ≤ n then askYn k else true
  | n, k, p1 :: ps =>
    if uuidIsNil p1.type then verifyParts askYn n k ps
    else
      let n := if prtPidForType p1.type = gptptypOpenbsd then n + 1 else n
      match verifyOverlaps askYn p1 k ps with
      | some k => verifyParts askYn n k ps
      | none => false

/-- `GPT_verify`; `true` is the return value 0. -/
def gptVerify (askYn : Nat → Bool) (g : Gpt) : Bool := verifyParts askYn 0 0 g.part

end OpenBsd.Gdisk
