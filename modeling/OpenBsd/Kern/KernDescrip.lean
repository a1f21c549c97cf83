/-
  OpenBsd.Kern.KernDescrip

  The descriptor table of `sys/kern/kern_descrip.c`: the two maps of used descriptors and
  the searches in them.

  A search gives no result when it reads a word behind the end of its map.
-/

import OpenBsd.Lib.Bitmap
import OpenBsd.Lib.Run

namespace OpenBsd.Kern

open OpenBsd.Lib (Bitmap ffs)

/-! ## Sizes -/

def ndfile : Nat := 20

def ndextent : Nat := 50

/-- `NDREDUCE(x)`, with `NDENTRIES` of 32. -/
def ndreduce (x : Nat) : Nat := (x + 31) / 32

def ndhislots (x : Nat) : Nat := ndreduce (ndreduce x)

def ndloslots (x : Nat) : Nat := ndhislots x * 32

/-! ## Searches -/

/-- The loop of `find_next_zero` over `n` words; the map has `size` words. -/
def findZeroWord (bitmap : Bitmap 32) (size : Nat) : Nat → Nat → Option (Option Nat)
  | 0, _ => some none
  | n + 1, off => do
    guard (off < size)
    let sub := bitmap off
    if sub ≠ BitVec.allOnes 32 then return some (off * 32 + ffs (~~~sub) - 1)
    else findZeroWord bitmap size n (off + 1)

/-- `find_next_zero` in a map of `size` words; the inner `none` is -1. -/
def findNextZero (bitmap : Bitmap 32) (size want bits : Nat) : Option (Option Nat) :=
  if bits < want then some none
  else
    let off := want / 32
    let i := want % 32
    if i ≠ 0 then do
      guard (off < size)
      let sub := bitmap off ||| (BitVec.allOnes 32 >>> (32 - i))
      if sub ≠ BitVec.allOnes 32 then return some (off * 32 + ffs (~~~sub) - 1)
      else findZeroWord bitmap size (ndloslots bits - (off + 1)) (off + 1)
    else findZeroWord bitmap size (ndloslots bits - off) off

/-! ## Tables -/

/-- `struct filedesc`; `ofiles` says which entries of `fd_ofiles` are not `NULL`. -/
structure Filedesc where
  ofiles : Nat → Bool
  nfiles : Nat
  openfd : Int
  himap : Bitmap 32
  lomap : Bitmap 32
  lastfile : Nat
  freefile : Nat

def findLastWord (bitmap : Bitmap 32) : Nat → Option Nat
  | 0 => none
  | off + 1 => if bitmap off ≠ 0 then some off else findLastWord bitmap off

def findLastOpen (ofiles : Nat → Bool) : Nat → Nat
  | 0 => 0
  | i + 1 => if ofiles (i + 1) then i + 1 else findLastOpen ofiles i

def findLastSet (ofiles : Nat → Bool) (bitmap : Bitmap 32) (last : Nat) : Nat :=
  if last = 0 then 0
  else
    match findLastWord bitmap ((last - 1) / 32 + 1) with
    | none => 0
    | some off =>
      let i := (off + 1) * 32 - 1
      findLastOpen ofiles (if last ≤ i then last - 1 else i)

def fdUsed (fdp : Filedesc) (fd : Nat) : Filedesc :=
  let off := fd / 32
  let lomap := fdp.lomap.set fd
  { fdp with
    lomap := lomap
    himap := if lomap off = BitVec.allOnes 32 then fdp.himap.set off else fdp.himap
    lastfile := if fdp.lastfile < fd then fd else fdp.lastfile
    openfd := fdp.openfd + 1 }

def fdUnused (fdp : Filedesc) (fd : Nat) : Option Filedesc := do
  -- fd_unused: fd_lastfile inconsistent
  guard (fd ≤ fdp.lastfile)
  let off := fd / 32
  let lomap := fdp.lomap.clear fd
  return { fdp with
    freefile := if fd < fdp.freefile then fd else fdp.freefile
    himap := if fdp.lomap off = BitVec.allOnes 32 then fdp.himap.clear off else fdp.himap
    lomap := lomap
    lastfile := if fd = fdp.lastfile then findLastSet fdp.ofiles lomap fd else fdp.lastfile
    openfd := fdp.openfd - 1 }

def fdremove (fdp : Filedesc) (fd : Nat) : Option Filedesc :=
  fdUnused { fdp with ofiles := Function.update fdp.ofiles fd false } fd

/-! ## Allocation -/

/-- What `fdalloc` returns, with `*result`. -/
inductive FdallocResult where
  | ok (fd : Nat)
  | emfile
  | enospc
  deriving DecidableEq

/-- `fdalloc` from its `restart` on; `lim` is the lower one of the limits. -/
@[simp] def fdallocLoop (fdp : Filedesc) (lim : Nat) : Nat → Nat → Option (FdallocResult × Filedesc)
  | 0, _ => none
  | fuel + 1, want => do
    let last := min fdp.nfiles lim
    let i := if want < fdp.freefile then fdp.freefile else want
    let off := i / 32
    let fail := if lim ≤ fdp.nfiles then FdallocResult.emfile else .enospc
    match ← findNextZero fdp.himap (ndhislots fdp.nfiles) off (ndreduce last) with
    | none => return (fail, fdp)
    | some new =>
      match ← findNextZero (fun k => fdp.lomap (new + k)) (ndloslots fdp.nfiles - new)
          (if off < new then 0 else i % 32) 32 with
      -- the free descriptor in this block was below want
      | none => fdallocLoop fdp lim fuel ((new + 1) * 32)
      | some j =>
        let i := j + new * 32
        if i < last then
          let fdp' := fdUsed fdp i
          return (.ok i, { fdp' with
            freefile := if want ≤ fdp.freefile then i else fdp.freefile })
        else return (fail, fdp)

/-- `fdalloc`; each restart is for a block further up. -/
def fdalloc (fdp : Filedesc) (want lim : Nat) : Option (FdallocResult × Filedesc) :=
  fdallocLoop fdp lim (ndloslots fdp.nfiles + 2) want

def fdexpand (fdp : Filedesc) : Filedesc :=
  let nfiles := if fdp.nfiles < ndextent then ndextent else 2 * fdp.nfiles
  { fdp with
    ofiles := fun i => decide (i < fdp.nfiles) && fdp.ofiles i
    himap := if ndhislots fdp.nfiles < ndhislots nfiles then
        fun k => if k < ndhislots fdp.nfiles then fdp.himap k else 0
      else fdp.himap
    lomap := if ndhislots fdp.nfiles < ndhislots nfiles then
        fun k => if k < ndloslots fdp.nfiles then fdp.lomap k else 0
      else fdp.lomap
    nfiles := nfiles }

/-! ## Tables come and go -/

def fdinit : Filedesc where
  ofiles := fun _ => false
  nfiles := ndfile
  openfd := 0
  himap := fun _ => 0
  lomap := fun _ => 0
  lastfile := 0
  freefile := 0

/-- The loop of `fdcopy` that lets a table shrink. -/
def fdShrink (lastfile : Nat) : Nat → Nat → Nat
  | 0, i => i
  | fuel + 1, i =>
    if 2 * ndextent ≤ i ∧ lastfile * 2 < i then fdShrink lastfile fuel (i / 2) else i

/-- `fdcopy`, in front of what it removes again. -/
def fdcopy (fdp : Filedesc) : Filedesc :=
  let i := if fdp.lastfile < ndfile then ndfile else fdShrink fdp.lastfile fdp.nfiles fdp.nfiles
  { fdp with
    ofiles := fun k => decide (k < i) && fdp.ofiles k
    nfiles := i }

/-! ## Runs -/

/-- What is done to a table.  `install` is the store in `fd_ofiles`; `copy` goes on with the
    new table. -/
inductive FdCall where
  | alloc (want lim : Nat)
  | install (fd : Nat)
  | used (fd : Nat)
  | unused (fd : Nat)
  | remove (fd : Nat)
  | expand
  | copy

def fdStep (fdp : Filedesc) : FdCall → Option Filedesc
  | .alloc want lim => (fdalloc fdp want lim).map Prod.snd
  | .install fd => do
    guard (fd < fdp.nfiles)
    return { fdp with ofiles := Function.update fdp.ofiles fd true }
  | .used fd => do
    guard (fd < fdp.nfiles)
    return fdUsed fdp fd
  | .unused fd => do
    guard (fd < fdp.nfiles)
    fdUnused fdp fd
  | .remove fd => do
    guard (fd < fdp.nfiles)
    fdremove fdp fd
  | .expand => some (fdexpand fdp)
  | .copy => some (fdcopy fdp)

end OpenBsd.Kern
