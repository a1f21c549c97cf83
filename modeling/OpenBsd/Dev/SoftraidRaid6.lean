/-
  OpenBsd.Dev.SoftraidRaid6

  `dev/softraid_raid6.c`: `sr_raid6_rw`.  I/Os do not fail and are executed one after the other.
-/

import OpenBsd.Dev.SoftraidRaid6Gf
import OpenBsd.Lib.Run

namespace OpenBsd.Dev

open OpenBsd.Lib

/-! ## Layout -/

/-- The metadata of a volume. -/
structure SrRaid6 where
  /-- `ssd_chunk_no` -/
  chunkNo : Nat
  /-- `sr6_strip_bits` -/
  stripBits : Nat
  /-- the sectors of the smallest chunk -/
  coercedSize : Nat
  chunkNo_ge : 4 ≤ chunkNo
  chunkNo_le : chunkNo ≤ 255
  stripBits_ge : devBshift ≤ stripBits

namespace SrRaid6

variable (sd : SrRaid6)

def noChunk : Nat := sd.chunkNo - 2

/-- `ssd_strip_size >> DEV_BSHIFT` -/
def stripBlocks : Nat := 2 ^ (sd.stripBits - devBshift)

/-- `ssd_size`, of whole strips. -/
def ssdSize : Nat := sd.coercedSize / sd.stripBlocks * sd.stripBlocks * sd.noChunk

def qchunk (stripNo : Nat) : Nat :=
  (sd.noChunk + 1) - (stripNo / sd.noChunk) % (sd.noChunk + 2)

def pchunk (stripNo : Nat) : Nat :=
  if sd.qchunk stripNo = 0 then sd.noChunk + 1 else sd.qchunk stripNo - 1

def chunk (stripNo : Nat) : Nat :=
  let chunk := stripNo % sd.noChunk
  let chunk := if chunk ≥ sd.pchunk stripNo then chunk + 1 else chunk
  if chunk ≥ sd.qchunk stripNo then chunk + 1 else chunk

end SrRaid6

/-- The chunks of a volume.  `last` is what they held last: a chunk that has failed may hold
    anything, or nothing. -/
structure Raid6State where
  status : Nat → ScmStatus
  chunks : Chunks
  last : Chunks

/-- A chunk that `sr_raid6_rw` takes for failed. -/
def ScmStatus.failed : ScmStatus → Bool
  | .sdOffline => true
  | .sdRebuild => true
  | .sdHotspare => true
  | _ => false

/-- `fail` and `fchunk`. -/
structure SrFail where
  x : Bool
  y : Bool
  p : Bool
  q : Bool
  fchunk : Option Nat

section

variable (sd : SrRaid6) (s : Raid6State)

/-- `sr_raid6_set_vol_state` gives `BIOC_SVOFFLINE`. -/
def Raid6State.svOffline : Bool :=
  decide ((List.range sd.chunkNo).countP (fun i => s.status i = .sdOnline) < sd.chunkNo - 2)

/-- Get disk-fail flags. -/
def srFail (chunk pchunk qchunk : Nat) : SrFail :=
  (List.range sd.chunkNo).foldl
    (fun fail i =>
      if ! (s.status i).failed then fail
      else if i = qchunk then { fail with q := true }
      else if i = pchunk then { fail with p := true }
      else if i = chunk then { fail with x := true }
      -- dual data-disk failure
      else { fail with y := true, fchunk := some i })
    { x := false, y := false, p := false, q := false, fchunk := none }

/-! ## Reads and writes -/

/-- A read of `sr_raid6_addio` that goes into `pbuf`, when it is done. -/
def addioP (chunk blkno : Nat) (pbuf : List Block) : List Block :=
  xorBuf pbuf (readChunk s.chunks chunk blkno pbuf.length)

/-- A read of `sr_raid6_addio` that goes into `qbuf`, when it is done. -/
def addioQ (chunk blkno : Nat) (qbuf : List Block) (gn : XorWord 8) :
    Except Raid6Error (List Block) := do
  let gnMap ← gfPremul gn
  return srRaid6Xorq qbuf (readChunk s.chunks chunk blkno qbuf.length) gnMap

/-- Reads of the chunks that are not in `but` into `data`, each with its factor. -/
def addioOthers (but : List Nat) (factor : Nat → Except Raid6Error (XorWord 8)) (blkno : Nat)
    (data : List Block) : Except Raid6Error (List Block) :=
  (List.range sd.chunkNo).foldlM
    (fun data i =>
      if i ∈ but then .ok data
      else do
        let gn ← factor i
        addioQ s i blkno data gn)
    data

def srRaid6ReadStrip (strip : Strip) : Except Raid6Error (List Block) :=
  let chunk := sd.chunk strip.stripNo
  let pchunk := sd.pchunk strip.stripNo
  let qchunk := sd.qchunk strip.stripNo
  let lba := strip.lba
  let len := strip.length >>> devBshift
  let fail := srFail sd s chunk pchunk qchunk
  let zeros := List.replicate len 0
  if ! fail.x then .ok (readChunk s.chunks chunk lba len)
  else if fail.p then do
    -- Dx = (Q^Dz*gz)*inv(gx)
    let gx ← gfPow chunk
    let gxinv ← gfInv gx
    let data ← addioQ s qchunk lba zeros gxinv
    addioOthers sd s [qchunk, pchunk, chunk]
      (fun i => do
        let gz ← gfPow i
        gfMul gz gxinv) lba data
  else if fail.y then
    match fail.fchunk with
    | none => .error .badIndex
    | some fchunk => do
      let gx ← gfPow chunk
      let gy ← gfPow fchunk
      let gxinv ← gfInv (gx + gy)
      let pxinv ← gfMul gy gxinv
      let data ← addioQ s qchunk lba zeros gxinv
      let data ← addioQ s pchunk lba data pxinv
      -- Dz * (gz + gy) * inv(gx + gy)
      addioOthers sd s [qchunk, pchunk, chunk, fchunk]
        (fun i => do
          let gz ← gfPow i
          let gzinv ← gfMul gz gxinv
          return pxinv + gzinv) lba data
  else
    -- Dx = P^Dz
    .ok (((List.range sd.chunkNo).filter fun i => i ≠ chunk ∧ i ≠ qchunk).foldl
      (fun data i => addioP s i lba data) zeros)

def srRaid6WriteStrip (strip : Strip) (data : List Block) : Except Raid6Error (List WriteCcb) :=
  let chunk := sd.chunk strip.stripNo
  let pchunk := sd.pchunk strip.stripNo
  let qchunk := sd.qchunk strip.stripNo
  let lba := strip.lba
  let fail := srFail sd s chunk pchunk qchunk
  let zeros := List.replicate data.length 0
  if fail.x || fail.q || fail.p then .error .bad
  else do
    -- P = Dn; Q = gn * Dn
    let gn ← gfPow chunk
    let gnMap ← gfPremul gn
    let pbuf := xorBuf zeros data
    let qbuf := srRaid6Xorq zeros data gnMap
    -- P ^= Dn'; Q ^= (gn * Dn')
    let pbuf := addioP s chunk lba pbuf
    let qbuf ← addioQ s chunk lba qbuf gn
    -- P ^= P'; Q ^= Q'
    let pbuf := addioP s pchunk lba pbuf
    let qbuf := addioP s qchunk lba qbuf
    return [⟨chunk, lba, data⟩, ⟨pchunk, lba, pbuf⟩, ⟨qchunk, lba, qbuf⟩]

def srRaid6ReadStrips : List Strip → Except Raid6Error (List Block)
  | [] => .ok []
  | strip :: strips => do
    let data ← srRaid6ReadStrip sd s strip
    let rest ← srRaid6ReadStrips strips
    return data ++ rest

def srRaid6WriteStrips : List Strip → List Block → Except Raid6Error (List WriteCcb)
  | [], _ => .ok []
  | strip :: strips, data => do
    let len := strip.length >>> devBshift
    let ccbs ← srRaid6WriteStrip sd s strip (data.take len)
    let rest ← srRaid6WriteStrips strips (data.drop len)
    return ccbs ++ rest

/-- `sr_raid6_rw` of a read: what is in the buffer in the end. -/
def srRaid6Read (blkno n : Nat) : Except Raid6Error (List Block) :=
  if srValidateIo (s.svOffline sd) sd.ssdSize blkno n then
    srRaid6ReadStrips sd s (ioStrips sd.stripBits sd.noChunk blkno n)
  else .error .bad

/-- `sr_raid6_rw` of a write: the write work unit. -/
def srRaid6Write (blkno : Nat) (data : List Block) : Except Raid6Error (List WriteCcb) :=
  if srValidateIo (s.svOffline sd) sd.ssdSize blkno data.length then
    srRaid6WriteStrips sd s (ioStrips sd.stripBits sd.noChunk blkno data.length) data
  else .error .bad

end

/-! ## Steps -/

inductive Raid6Step where
  | read (blkno n : Nat)
  /-- a write that is accepted -/
  | write (blkno : Nat) (data : List Block)
  /-- a chunk gets some other contents -/
  | fail (chunk : Nat) (status : ScmStatus) (contents : Nat → Block)

/-- What a step writes, and where. -/
def Raid6Step.written : Raid6Step → Option (Nat × List Block)
  | .write blkno data => some (blkno, data)
  | _ => none

def raid6Step (sd : SrRaid6) (s : Raid6State) : Raid6Step → Option Raid6State
  | .read blkno n =>
    match srRaid6Read sd s blkno n with
    | .ok _ => some s
    | .error _ => none
  | .write blkno data =>
    match srRaid6Write sd s blkno data with
    | .ok ccbs => some { s with chunks := runWrites s.chunks ccbs, last := runWrites s.last ccbs }
    | .error _ => none
  | .fail chunk status contents =>
    if chunk < sd.chunkNo ∧ status.failed then
      some
        { s with
          status := Function.update s.status chunk status
          chunks := Function.update s.chunks chunk contents }
    else none

/-- The disk that the chunks of data make up. -/
def SrRaid6.disk (sd : SrRaid6) (m : Chunks) : Disk := fun b =>
  let stripNo := b / sd.stripBlocks
  m (sd.chunk stripNo) (stripNo / sd.noChunk * sd.stripBlocks + b % sd.stripBlocks)

end OpenBsd.Dev
