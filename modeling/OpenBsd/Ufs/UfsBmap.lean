/-
  OpenBsd.Ufs.UfsBmap

  `ufs_getlbns` of `ufs/ufs/ufs_bmap.c`: the path of indirect blocks to a block of a file.

  Block numbers and counts are not bounded here: a block of at most 64 KB has at most 16384
  pointers, and no number computed for them comes near 64 bits.
-/

import Mathlib.Data.List.Basic

namespace OpenBsd.Ufs

/-- Direct addresses in the inode. -/
def ndaddr : Nat := 12

/-- Indirect addresses in the inode. -/
def niaddr : Nat := 3

/-- `struct indir`, one step of a path: the block and the place in it.  `in_exists` is left
    out: it is set to 0 here and belongs to the caller. -/
structure Indir where
  inLbn : Int
  inOff : Nat
  deriving DecidableEq, Repr

inductive GetlbnsError where
  /-- The block is behind the largest file. -/
  | efbig
  /-- The panic "Invalid indirect block". -/
  | invalid
  /-- The panic "indirect block not found". -/
  | notFound
  deriving DecidableEq, Repr

/-- The levels of indirection: what is left of `i`, the blocks at that level and the place of
    `bn` among them. -/
def levelLoop (nindir : Nat) : (i blockcnt bn : Nat) → Option (Nat × Nat × Nat)
  | 0, _, _ => none
  | i + 1, blockcnt, bn =>
    if bn < blockcnt * nindir then some (i + 1, blockcnt * nindir, bn)
    else levelLoop nindir i (blockcnt * nindir) (bn - blockcnt * nindir)

/-- The way down from `metalbn`, in at most `fuel` steps, and the block at its end.  A search
    for an indirect block quits when it is found. -/
def pathLoop (nindir : Nat) (realbn : Int) (bn : Nat) :
    (fuel blockcnt : Nat) → (metalbn : Int) → List Indir × Int
  | 0, _, metalbn => ([], metalbn)
  | fuel + 1, blockcnt, metalbn =>
    if metalbn = realbn then ([], metalbn)
    else
      let blockcnt := blockcnt / nindir
      let off := bn / blockcnt % nindir
      let (path, last) := pathLoop nindir realbn bn fuel blockcnt
        (metalbn - (-1 + (off : Int) * blockcnt))
      (⟨metalbn, off⟩ :: path, last)

/-- `ufs_getlbns`; the length of the path is what is stored to `nump`. -/
def ufsGetlbns (nindir : Nat) (realbn : Int) : Except GetlbnsError (List Indir) :=
  let bn := realbn.natAbs
  if realbn < 0 ∧ realbn > -ndaddr then .error .invalid
  else if bn < ndaddr then .ok []
  else
    match levelLoop nindir niaddr 1 (bn - ndaddr) with
    | none => .error .efbig
    | some (i, blockcnt, bn) =>
      let metalbn : Int := if realbn ≥ 0 then -(realbn - bn + niaddr - i)
        else -(-realbn - bn + niaddr - i)
      let (path, last) := pathLoop nindir realbn bn (niaddr + 1 - i) blockcnt metalbn
      if realbn < 0 ∧ last ≠ realbn then .error .notFound
      else .ok (⟨metalbn, niaddr - i⟩ :: path)

end OpenBsd.Ufs
