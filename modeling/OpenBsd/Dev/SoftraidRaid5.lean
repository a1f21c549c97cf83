/-
  OpenBsd.Dev.SoftraidRaid5

  `dev/softraid_raid5.c`: `sr_raid5_rw`, and `sr_raid5_rebuild` a strip at a time.

  I/Os do not fail and are executed one after the other.  The reads of a work unit see the
  chunks from before its writes.
-/

import OpenBsd.Dev.SoftraidStrip
import OpenBsd.Lib.Run

namespace OpenBsd.Dev

open OpenBsd.Lib

/-- The metadata of a volume, as `sr_raid5_create` and `sr_raid5_init` let it through. -/
structure SrRaid5 where
  /-- `ssd_chunk_no` -/
  chunkNo : Nat
  /-- `sr5_strip_bits` -/
  stripBits : Nat
  /-- the sectors of the smallest chunk -/
  coercedSize : Nat
  chunkNo_ge : 3 ≤ chunkNo
  stripBits_ge : devBshift ≤ stripBits

namespace SrRaid5

variable (sd : SrRaid5)

def noChunk : Nat := sd.chunkNo - 1

/-- `ssd_strip_size >> DEV_BSHIFT` -/
def stripBlocks : Nat := 2 ^ (sd.stripBits - devBshift)

/-- `ssd_size`, of whole strips. -/
def ssdSize : Nat := sd.coercedSize / sd.stripBlocks * sd.stripBlocks * sd.noChunk

/-! ## Left asymmetric layout -/

def parity (stripNo : Nat) : Nat :=
  sd.noChunk - (stripNo / sd.noChunk) % (sd.noChunk + 1)

def chunk (stripNo : Nat) : Nat :=
  let chunk := stripNo % sd.noChunk
  if chunk ≥ sd.parity stripNo then chunk + 1 else chunk

def chunkOffs (stripNo : Nat) : Nat := (stripNo / sd.noChunk) <<< sd.stripBits

end SrRaid5

def ScmStatus.chunkOnline : ScmStatus → Bool
  | .sdOnline => true
  | .sdScrub => true
  | _ => false

def ScmStatus.chunkRebuild : ScmStatus → Bool
  | .sdRebuild => true
  | _ => false

/-- The chunks of a volume, and `strip_no` of the loop of `sr_raid5_rebuild`. -/
structure Raid5State where
  status : Nat → ScmStatus
  chunks : Chunks
  stripNo : Nat

namespace Raid5State

variable (sd : SrRaid5) (s : Raid5State)

def chunkOnline (chunk : Nat) : Bool := (s.status chunk).chunkOnline

def chunkRebuild (chunk : Nat) : Bool := (s.status chunk).chunkRebuild

/-- `sr_raid5_set_vol_state` gives `BIOC_SVOFFLINE`. -/
def svOffline : Bool :=
  decide ((List.range sd.chunkNo).countP (fun i => s.status i = .sdOnline) < sd.chunkNo - 1)

end Raid5State

/-! ## Reads and writes -/

section

variable (sd : SrRaid5) (s : Raid5State)

/-- `sr_raid5_regenerate`, when the reads are done. -/
def srRaid5Regenerate (chunk blkno len : Nat) : Option (List Block) :=
  (List.range sd.chunkNo).foldlM
    (fun data i =>
      if i = chunk then some data
      else if ! s.chunkOnline i then none
      else some (xorBuf data (readChunk s.chunks i blkno len)))
    (List.replicate len 0)

/-- `sr_raid5_write`, when the reads are done. -/
def srRaid5Write (chunk parity blkno : Nat) (data : List Block) : List WriteCcb :=
  let len := data.length
  let others := (List.range sd.chunkNo).filter fun i => i ≠ chunk ∧ i ≠ parity
  let otherRebuild := others.any fun i => s.chunkRebuild i
  let otherOffline := others.any fun i => ! s.chunkRebuild i && ! s.chunkOnline i
  let parityWrite :=
    if ! s.chunkOnline parity && ! s.chunkRebuild parity then []
    else
      let xorbuf :=
        if otherOffline || otherRebuild then
          -- existing data and existing parity
          xorBuf (xorBuf data (readChunk s.chunks chunk blkno len))
            (readChunk s.chunks parity blkno len)
        else
          -- existing data from all other chunks
          others.foldl (fun xorbuf i => xorBuf xorbuf (readChunk s.chunks i blkno len)) data
      [⟨parity, blkno, xorbuf⟩]
  parityWrite ++
    if s.chunkOnline chunk || s.chunkRebuild chunk then [⟨chunk, blkno, data⟩] else []

def srRaid5ReadStrip (strip : Strip) : Option (List Block) :=
  let chunk := sd.chunk strip.stripNo
  let len := strip.length >>> devBshift
  match s.status chunk with
  | .sdOnline | .sdScrub => some (readChunk s.chunks chunk strip.lba len)
  | .sdOffline | .sdRebuild | .sdHotspare => srRaid5Regenerate sd s chunk strip.lba len
  | _ => none

def srRaid5ReadStrips : List Strip → Option (List Block)
  | [] => some []
  | strip :: strips => do
    let data ← srRaid5ReadStrip sd s strip
    let rest ← srRaid5ReadStrips strips
    return data ++ rest

def srRaid5WriteStrips : List Strip → List Block → List WriteCcb
  | [], _ => []
  | strip :: strips, data =>
    let len := strip.length >>> devBshift
    srRaid5Write sd s (sd.chunk strip.stripNo) (sd.parity strip.stripNo) strip.lba (data.take len) ++
      srRaid5WriteStrips strips (data.drop len)

/-- `sr_raid5_rw` of a read: what is in the buffer in the end. -/
def srRaid5Read (blkno n : Nat) : Option (List Block) :=
  if srValidateIo (s.svOffline sd) sd.ssdSize blkno n then
    srRaid5ReadStrips sd s (ioStrips sd.stripBits sd.noChunk blkno n)
  else none

/-- `sr_raid5_rw` of a write: the read work unit, and behind it the write work unit. -/
def srRaid5WriteIo (blkno : Nat) (data : List Block) : Option Raid5State :=
  if srValidateIo (s.svOffline sd) sd.ssdSize blkno data.length then
    let ccbs := srRaid5WriteStrips sd s (ioStrips sd.stripBits sd.noChunk blkno data.length) data
    some { s with chunks := runWrites s.chunks ccbs }
  else none

/-! ## Rebuild -/

def rebuildChunk : Option Nat := (List.range sd.chunkNo).find? fun i => s.chunkRebuild i

/-- `chunk_strips` of `sr_raid5_rebuild`. -/
def chunkStrips : Nat := ((sd.ssdSize / sd.noChunk) <<< devBshift) >>> sd.stripBits

def srRaid5RebuildStrip : Option Raid5State := do
  let chunk ← rebuildChunk sd s
  if s.stripNo < chunkStrips sd then
    let chunkLba := sd.stripBlocks * s.stripNo
    let xorbuf ← srRaid5Regenerate sd s chunk chunkLba sd.stripBlocks
    return { s with
      chunks := runWrites s.chunks [⟨chunk, chunkLba, xorbuf⟩]
      stripNo := s.stripNo + 1 }
  else none

def srRaid5RebuildDone : Option Raid5State := do
  let chunk ← rebuildChunk sd s
  if s.stripNo < chunkStrips sd then none
  else return { s with status := Function.update s.status chunk .sdOnline }

end

/-! ## Steps -/

inductive Raid5Step where
  | read (blkno n : Nat)
  | write (blkno : Nat) (data : List Block)
  | fail (chunk : Nat)
  | replace (chunk : Nat) (contents : Nat → Block)
  | rebuildStrip
  | rebuildDone

def raid5Step (sd : SrRaid5) (s : Raid5State) : Raid5Step → Option Raid5State
  | .read blkno n => (srRaid5Read sd s blkno n).map fun _ => s
  | .write blkno data => srRaid5WriteIo sd s blkno data
  | .fail chunk =>
    if chunk < sd.chunkNo ∧ s.status chunk = .sdOnline then
      some { s with status := Function.update s.status chunk .sdOffline }
    else none
  | .replace chunk contents =>
    if chunk < sd.chunkNo ∧ s.status chunk = .sdOffline then
      some
        { status := Function.update s.status chunk .sdRebuild
          chunks := Function.update s.chunks chunk contents
          stripNo := 0 }
    else none
  | .rebuildStrip => srRaid5RebuildStrip sd s
  | .rebuildDone => srRaid5RebuildDone sd s

/-- What a step writes, and where. -/
def Raid5Step.written : Raid5Step → Option (Nat × List Block)
  | .write blkno data => some (blkno, data)
  | _ => none

/-- The disk that the chunks of data make up. -/
def SrRaid5.disk (sd : SrRaid5) (m : Chunks) : Disk := fun b =>
  let stripNo := b / sd.stripBlocks
  m (sd.chunk stripNo) (stripNo / sd.noChunk * sd.stripBlocks + b % sd.stripBlocks)

end OpenBsd.Dev
