/-
  OpenBsd.Ufs.FfsAlloc

  `ffs_clusteracct` of `ufs/ffs/ffs_alloc.c`: the map of free blocks of a cylinder group and
  the number of its clusters of each size.
-/

import OpenBsd.Lib.Bitmap

namespace OpenBsd.Ufs

open OpenBsd.Lib

/-- What is kept of a cylinder group about its clusters: `cg_nclusterblks`, `cg_clustersfree`
    and `cg_clustersum` of the group, and its `fs_maxcluster`. -/
structure Clusters where
  cgNclusterblks : Nat
  cgClustersfree : Bitmap 8
  cgClustersum : Nat → Int
  fsMaxcluster : Nat

/-- The blocks from `i` on as long as they are free, `left` of them at most: the first block
    that is not counted. -/
def forwLoop (freemapp : Bitmap 8) : (left i mapp : Nat) → (map bit : BitVec 8) → Nat
  | 0, i, _, _, _ => i
  | left + 1, i, mapp, map, bit =>
    if map &&& bit = 0 then i
    else if i % 8 ≠ 7 then forwLoop freemapp left (i + 1) mapp map (bit <<< 1)
    else forwLoop freemapp left (i + 1) (mapp + 1) (freemapp mapp) 1#8

/-- The same downwards.  At block 0 the byte in front of the map is read, but not looked at. -/
def backLoop (freemapp : Bitmap 8) : (left : Nat) → (i mapp : Int) → (map bit : BitVec 8) → Int
  | 0, i, _, _, _ => i
  | left + 1, i, mapp, map, bit =>
    if map &&& bit = 0 then i
    else if i % 8 ≠ 0 then backLoop freemapp left (i - 1) mapp map (bit >>> 1)
    else backLoop freemapp left (i - 1) (mapp - 1) (freemapp mapp.toNat) (1#8 <<< 7)

/-- The largest size up to `i` of which there is a cluster. -/
def maxLoop (sump : Nat → Int) : Nat → Nat
  | 0 => 0
  | i + 1 => if sump (i + 1) > 0 then i + 1 else maxLoop sump i

/-- `ffs_clusteracct`; `cnt` is 1 to free the block and -1 to allocate it. -/
def ffsClusteracct (fsContigsumsize : Int) (cg : Clusters) (blkno : Nat) (cnt : Int) : Clusters :=
  if fsContigsumsize ≤ 0 then cg
  else
    let contigsumsize := fsContigsumsize.toNat
    let freemapp := if cnt > 0 then cg.cgClustersfree.set blkno else cg.cgClustersfree.clear blkno
    -- the size of the cluster going forward
    let start := blkno + 1
    let fin := start + contigsumsize
    let fin := if fin ≥ cg.cgNclusterblks then cg.cgNclusterblks else fin
    let i := forwLoop freemapp (fin - start) start (start / 8 + 1) (freemapp (start / 8))
      (1#8 <<< (start % 8))
    let forw := i - start
    -- the size of the cluster going backward
    let start : Int := (blkno : Int) - 1
    let fin := start - contigsumsize
    let fin := if fin < 0 then -1 else fin
    let mapp := start.tdiv 8
    let i := backLoop freemapp (start - fin).toNat start (mapp - 1) (freemapp mapp.toNat)
      (1#8 <<< (start.tmod 8).toNat)
    let back := (start - i).toNat
    -- the old cluster and the new ones
    let i := back + forw + 1
    let i := if i > contigsumsize then contigsumsize else i
    let sump := Function.update cg.cgClustersum i (cg.cgClustersum i + cnt)
    let sump := if back > 0 then Function.update sump back (sump back - cnt) else sump
    let sump := if forw > 0 then Function.update sump forw (sump forw - cnt) else sump
    { cg with
      cgClustersfree := freemapp
      cgClustersum := sump
      fsMaxcluster := maxLoop sump contigsumsize }

end OpenBsd.Ufs
