/-
  OpenBsd.Msdosfs.MsdosfsFat

  The allocation of clusters in `sys/msdosfs/msdosfs_fat.c`, with the map of the clusters in
  use and the count of the free ones that `sys/msdosfs/msdosfsmount.h` declares.

  The blocks of the FAT are read one at a time and each read may fail.  A modified block is
  always handed to `updatefats` before another one is read, so the bytes of the FAT change in
  place here.
-/

import OpenBsd.Lib.Bitmap
import OpenBsd.Msdosfs.Fat

namespace OpenBsd.Msdosfs

open OpenBsd.Lib (Bitmap ffs lowBits)

/-! ## The volume -/

def clustFirst : Nat := 2

def nInusebits : Nat := 32

def devBsize : Nat := 512

def maxbsize : Nat := 65536

/-- What `mountmsdosfs` leaves in `struct msdosfsmount`: a sector is a number of device blocks,
    and the FAT has room for every cluster. -/
structure Msdosfsmount where
  fat : FatType
  maxcluster : Nat
  bytesPerSec : Nat
  fatSecs : Nat
  secPos : 0 < bytesPerSec
  sector : devBsize ∣ bytesPerSec
  maxcluster_lt : maxcluster < fatSecs * devBsize % 2 ^ 32 / fat.fatmult * fat.fatdiv

theorem sector_pos : 0 < 512 := by decide
theorem dvd_sector : devBsize ∣ 512 := by decide
theorem four_lt : 4 < 1 * devBsize % 2 ^ 32 / FatType.fat12.fatmult * FatType.fat12.fatdiv := by decide

namespace Msdosfsmount

variable (pmp : Msdosfsmount)

def fatblocksize : Nat :=
  match pmp.fat with
  | .fat12 => 3 * pmp.bytesPerSec
  | _ => maxbsize

def fatblocksec : Nat := pmp.fatblocksize / devBsize

def fatofs (cn : Nat) : Nat := pmp.fat.fatofs cn

/-- `(cn | ~pm_fatmask) >= CLUST_RSRVD`. -/
def rsrvd (cn : Nat) : Bool := pmp.fat.fatmask - 9 ≤ cn

end Msdosfsmount

/-- Where a FAT entry lies: `*bnp`, counted from the start of the FAT, `*sizep` and `*bop`. -/
structure Fatblock where
  bn : Nat
  bsize : Nat
  bo : Nat

def fatblock (pmp : Msdosfsmount) (ofs : Nat) : Fatblock :=
  let bn := ofs / pmp.fatblocksize * pmp.fatblocksec
  { bn := bn
    bsize := min pmp.fatblocksec (pmp.fatSecs - bn) * devBsize
    bo := ofs % pmp.fatblocksize }

/-- The byte of the FAT behind `bp->b_data[bo]` in the block `bn`. -/
def bData (bn bo : Nat) : Nat := bn * devBsize + bo

/-! ## State -/

inductive Errno where
  | eio
  | einval
  | enospc
  deriving DecidableEq

/-- The FAT, and what changes in `struct msdosfsmount`. -/
structure FatState where
  fat : Bytes
  inusemap : Bitmap 32
  freeclustercount : BitVec 32

/-- The outcomes of the reads to come, `true` where `bread` fails.  All others succeed. -/
abbrev Reads := List Bool

/-- `bread`: whether it fails, and the reads after it. -/
def bread : Reads → Bool × Reads
  | [] => (false, [])
  | error :: io => (error, io)

def usemapAlloc (s : FatState) (cn : Nat) : FatState :=
  { s with
    inusemap := s.inusemap.set cn
    freeclustercount := s.freeclustercount - 1 }

def usemapFree (s : FatState) (cn : Nat) : FatState :=
  { s with
    freeclustercount := s.freeclustercount + 1
    inusemap := s.inusemap.clear cn }

/-! ## One entry -/

/-- `fatentry` with `FAT_GET_AND_SET`: the old contents. -/
def fatentry (pmp : Msdosfsmount) (s : FatState) (cn newcontents : Nat) (io : Reads) :
    Except Errno Nat × FatState :=
  if cn < clustFirst ∨ pmp.maxcluster < cn then (.error .einval, s)
  else
    let blk := fatblock pmp (pmp.fatofs cn)
    if (bread io).1 then (.error .eio, s)
    else
      let readcn := pmp.fat.getEntry s.fat (bData blk.bn blk.bo) cn
      -- map reserved fat entries to same values for all fats
      let oldcontents := if pmp.rsrvd readcn then readcn + (2 ^ 32 - 1 - pmp.fat.fatmask) else readcn
      (.ok oldcontents,
        { s with fat := pmp.fat.putEntry s.fat (bData blk.bn blk.bo) cn newcontents })

def clusterfree (pmp : Msdosfsmount) (s : FatState) (cluster : Nat) (io : Reads) :
    Except Errno Nat × FatState :=
  match fatentry pmp (usemapFree s cluster) cluster 0 io with
  | (.error error, s') => (.error error, usemapAlloc s' cluster)
  | (.ok oldcn, s') => (.ok oldcn, s')

/-! ## Chains of free clusters -/

/-- How far `bo` moves behind the entry of `start`. -/
def boStep (t : FatType) (start : Nat) : Nat :=
  match t with
  -- the test of `start & 1` is after the increment, so an even cluster adds one
  | .fat12 => if (start + 1) % 2 = 1 then 1 else 2
  | .fat16 => 2
  | .fat32 => 4

/-- The inner loop of `fatchain`: entries up to the end of the block.  Gives the clusters that
    are left, the next one and the FAT. -/
def fatchainBlock (t : FatType) (bn bsize fillwith : Nat) :
    Nat → Nat → Nat → Bytes → Nat × Nat × Bytes
  | 0, start, _, b => (0, start, b)
  | count + 1, start, bo, b =>
    let newc := if 0 < count then start + 1 else fillwith
    let b' := t.putEntry b (bData bn bo) start newc
    let bo' := bo + boStep t start
    if bsize ≤ bo' then (count, start + 1, b')
    else fatchainBlock t bn bsize fillwith count (start + 1) bo' b'

/-- The outer loop of `fatchain`.  Each turn links at least one cluster, so `count` of them
    are enough. -/
def fatchainLoop (pmp : Msdosfsmount) (fillwith : Nat) :
    Nat → Nat → Nat → Bytes → Reads → Except Errno Unit × Bytes
  | 0, _, _, b, _ => (.ok (), b)
  | fuel + 1, count, start, b, io =>
    if count = 0 then (.ok (), b)
    else
      let blk := fatblock pmp (pmp.fatofs start)
      if (bread io).1 then (.error .eio, b)
      else
        let r := fatchainBlock pmp.fat blk.bn blk.bsize fillwith count start blk.bo b
        fatchainLoop pmp fillwith fuel r.1 r.2.1 r.2.2 (bread io).2

def fatchain (pmp : Msdosfsmount) (b : Bytes) (start count fillwith : Nat) (io : Reads) :
    Except Errno Unit × Bytes :=
  if start < clustFirst ∨ pmp.maxcluster < start + count - 1 then (.error .einval, b)
  else fatchainLoop pmp fillwith count count start b io

/-- The loop of `chainlength` over the words behind the first one, `n` of them. -/
def chainlengthLoop (m : Bitmap 32) (count : Nat) : Nat → Nat → Nat → Nat
  | 0, _, len => len
  | n + 1, idx, len =>
    if count ≤ len then len
    else if m idx ≠ 0 then len + (ffs (m idx) - 1)
    else chainlengthLoop m count n (idx + 1) (len + nInusebits)

def chainlength (pmp : Msdosfsmount) (m : Bitmap 32) (start count : Nat) : Nat :=
  let maxIdx := pmp.maxcluster / nInusebits
  let idx := start / nInusebits
  let bit := start % nInusebits
  let map := m idx &&& ~~~(lowBits 32 bit)
  if map ≠ 0 then min (ffs map - 1 - bit) count
  else if count ≤ nInusebits - bit then count
  else min (chainlengthLoop m count (maxIdx - idx) (idx + 1) (nInusebits - bit)) count

/-- The loop of `chainalloc`. -/
def usemapAllocRange (s : FatState) : Nat → Nat → FatState
  | _, 0 => s
  | cl, n + 1 => usemapAllocRange (usemapAlloc s cl) (cl + 1) n

/-- `chainalloc`: `*retcluster` and `*got`. -/
def chainalloc (pmp : Msdosfsmount) (s : FatState) (start count fillwith : Nat) (io : Reads) :
    Except Errno (Nat × Nat) × FatState :=
  let s' := usemapAllocRange s start count
  let r := fatchain pmp s'.fat start count fillwith io
  (r.1.map fun _ => (start, count), { s' with fat := r.2 })

/-! ## Allocation -/

/-- Where a search of `clusteralloc` ends: at a chain that is long enough, or with the longest
    one, `foundcn` and `foundl`. -/
inductive Found where
  | enough (cn : Nat)
  | longest (foundcn foundl : Nat)

/-- The first clear bit of the word of `cn` from `cn` on. -/
def nextFree (m : Bitmap 32) (cn : Nat) : Option Nat :=
  let idx := cn / nInusebits
  let map := m idx ||| lowBits 32 (cn % nInusebits)
  if map ≠ BitVec.allOnes 32 then
    some (idx * nInusebits + ffs (map ^^^ BitVec.allOnes 32) - 1)
  else none

/-- A search of `clusteralloc` over the clusters in front of `limit`.  Each turn moves on by a
    cluster at least. -/
def searchLoop (pmp : Msdosfsmount) (m : Bitmap 32) (count limit : Nat) :
    Nat → Nat → Nat → Nat → Option Found
  | 0, _, _, _ => none
  | fuel + 1, cn, foundcn, foundl =>
    if cn < limit then
      match nextFree m cn with
      | some cn' =>
        let l := chainlength pmp m cn' count
        if count ≤ l then some (.enough cn')
        else if foundl < l then searchLoop pmp m count limit fuel (cn' + l + 1) cn' l
        else searchLoop pmp m count limit fuel (cn' + l + 1) foundcn foundl
      | none =>
        searchLoop pmp m count limit fuel (cn + (nInusebits - cn % nInusebits)) foundcn foundl
    else some (.longest foundcn foundl)

/-- The two searches from the place `newst`. -/
def search (pmp : Msdosfsmount) (m : Bitmap 32) (count newst fuel : Nat) : Option Found :=
  match searchLoop pmp m count (pmp.maxcluster + 1) fuel newst 0 0 with
  | some (.longest foundcn foundl) => searchLoop pmp m count newst fuel 0 foundcn foundl
  | r => r

/-- `start`, or the microseconds of the clock for a new file. -/
def allocStart (start usec : Nat) : Nat := if start ≠ 0 then start else usec / 1024 ||| usec

def allocNewst (pmp : Msdosfsmount) (start : Nat) : Nat :=
  (start * 1103515245 + 12345) % 2 ^ 32 % (pmp.maxcluster + 1)

/-- `clusteralloc`, with `usec` microseconds on the clock. -/
def clusteralloc (pmp : Msdosfsmount) (s : FatState) (start count fillwith usec fuel : Nat)
    (io : Reads) : Option (Except Errno (Nat × Nat) × FatState) :=
  let len := if start ≠ 0 then chainlength pmp s.inusemap start count else 0
  if start ≠ 0 ∧ count ≤ len then some (chainalloc pmp s start count fillwith io)
  else
    match search pmp s.inusemap count (allocNewst pmp (allocStart start usec)) fuel with
    | none => none
    | some (.enough cn) => some (chainalloc pmp s cn count fillwith io)
    | some (.longest foundcn foundl) =>
      if foundl = 0 then some (.error .enospc, s)
      else if len ≠ 0 then some (chainalloc pmp s start len fillwith io)
      else some (chainalloc pmp s foundcn foundl fillwith io)

/-! ## Freeing a chain -/

/-- The cluster behind an entry, end of file and reserved values made one. -/
def nextCluster (pmp : Msdosfsmount) (readcn : Nat) : Nat :=
  if pmp.rsrvd readcn then pmp.fat.fatmask else readcn

/-- The loop of `freeclusterchain`, with the block in `bp`. -/
def freeclusterchainLoop (pmp : Msdosfsmount) :
    Nat → FatState → Option Nat → Nat → Reads → Option (Except Errno Unit × FatState)
  | 0, _, _, _, _ => none
  | fuel + 1, s, lbn, cluster, io =>
    if clustFirst ≤ cluster ∧ cluster ≤ pmp.maxcluster then
      let blk := fatblock pmp (pmp.fatofs cluster)
      let (error, io') := if lbn ≠ some blk.bn then bread io else (false, io)
      if error then some (.error .eio, s)
      else
        let s' := usemapFree s cluster
        let readcn := pmp.fat.getEntry s'.fat (bData blk.bn blk.bo) cluster
        let s'' := { s' with fat := pmp.fat.putEntry s'.fat (bData blk.bn blk.bo) cluster 0 }
        freeclusterchainLoop pmp fuel s'' (some blk.bn) (nextCluster pmp readcn) io'
    else some (.ok (), s)

def freeclusterchain (pmp : Msdosfsmount) (s : FatState) (cluster fuel : Nat) (io : Reads) :
    Option (Except Errno Unit × FatState) :=
  freeclusterchainLoop pmp fuel s none cluster io

/-! ## Filling the map -/

/-- The scan of `fillinusemap` over `n` clusters from `cn` on. -/
def fillinusemapLoop (pmp : Msdosfsmount) :
    Nat → Nat → Option Nat → FatState → Reads → Except Errno FatState
  | 0, _, _, s, _ => .ok s
  | n + 1, cn, bp, s, io =>
    let byteoffset := pmp.fatofs cn
    let bo := byteoffset % pmp.fatblocksize
    let (error, io', bn) :=
      match bp with
      | some bn => if bo = 0 then ((bread io).1, (bread io).2, (fatblock pmp byteoffset).bn) else (false, io, bn)
      | none => ((bread io).1, (bread io).2, (fatblock pmp byteoffset).bn)
    if error then .error .eio
    else
      let readcn := pmp.fat.getEntry s.fat (bData bn bo) cn
      let s' := if readcn = 0 then usemapFree s cn else s
      fillinusemapLoop pmp n (cn + 1) (some bn) s' io'

/-- The first loop of `fillinusemap`: every cluster is marked in use. -/
def markInUse (pmp : Msdosfsmount) (m : Bitmap 32) : Bitmap 32 := fun k =>
  if k < (pmp.maxcluster + 1 + (nInusebits - 1)) / nInusebits then BitVec.allOnes 32 else m k

def fillinusemap (pmp : Msdosfsmount) (s : FatState) (io : Reads) : Except Errno FatState :=
  let s' : FatState :=
    { s with
      inusemap := markInUse pmp s.inusemap
      freeclustercount := 0 }
  fillinusemapLoop pmp (pmp.maxcluster + 1 - clustFirst) clustFirst none s' io

end OpenBsd.Msdosfs
