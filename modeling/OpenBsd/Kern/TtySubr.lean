/-
  OpenBsd.Kern.TtySubr

  The character lists of `kern/tty_subr.c`: ring buffers with a bit for each character that
  says whether it is quoted.

  A pointer into the buffer is the index of its cell, and `none` is `NULL`; `c_ce` is the
  index `c_cn`.  A function gives `none` when it follows a null pointer or does not come to
  the end of its loop.  The interrupt levels are left out, as is `clfree`.
-/

import OpenBsd.Lib.Ring
import OpenBsd.Lib.Bitmap

namespace OpenBsd.Kern

open OpenBsd.Lib

/-! ## The data -/

def ttyQuote : BitVec 32 := 0x100

/-- `struct clist`. -/
structure Clist where
  cCc : Nat
  cCn : Nat
  cCf : Option Nat
  cCl : Option Nat
  cCs : Option (Nat → BitVec 8)
  cCq : Option (Bitmap 8)

/-- A character as `getc` returns it. -/
def ttyChar (b : BitVec 8) (quoted : Bool) : BitVec 32 :=
  if quoted then b.setWidth 32 ||| ttyQuote else b.setWidth 32

/-- `isset`, for a bit map that may be missing. -/
def quoteAt (cq : Option (Bitmap 8)) (i : Nat) : Bool :=
  match cq with
  | none => false
  | some m => m.test i

/-- `memset(cp, 0, len)`. -/
def bzeroAt (cs : Nat → BitVec 8) (cp len : Nat) : Nat → BitVec 8 :=
  fun i => if cp ≤ i ∧ i < cp + len then 0 else cs i

/-- `memcpy` of bytes into the buffer. -/
def bcopyAt (cs : Nat → BitVec 8) (cp : Nat) (bytes : List (BitVec 8)) : Nat → BitVec 8 :=
  fun i => if cp ≤ i then bytes[i - cp]?.getD (cs i) else cs i

namespace Clist

def clalloc (size : Nat) (quot : Bool) : Clist where
  cCc := 0
  cCn := size
  cCf := none
  cCl := none
  cCs := some fun _ => 0
  cCq := if quot then some fun _ => 0 else none

/-- A pointer that has reached the end goes to the start. -/
def wrap (clp : Clist) (i : Nat) : Nat := if i = clp.cCn then 0 else i

/-- The pointers of an empty list are `NULL`. -/
def ifEmpty (clp : Clist) : Clist :=
  if clp.cCc = 0 then { clp with cCf := none, cCl := none } else clp

/-- The first character goes to the start of the buffer. -/
def start (clp : Clist) : Clist :=
  if clp.cCc = 0 then
    let clp := match clp.cCs with
      | none => clalloc 1024 true
      | some _ => clp
    { clp with cCf := some 0, cCl := some 0 }
  else clp

end Clist

/-! ## Bits -/

def clrbits (cp : Bitmap 8) (off len : Nat) : Bitmap 8 :=
  if len = 1 then cp.clear off
  else
    let sby := off / 8
    let sbi := off % 8
    let eby := (off + len) / 8
    let ebi := (off + len) % 8
    if sby = eby then
      let mask := lowBits 8 (ebi - sbi) <<< sbi
      Function.update cp sby (cp sby &&& ~~~mask)
    else
      let cp := Function.update cp sby (cp sby &&& lowBits 8 sbi)
      let cp : Bitmap 8 := fun i => if sby + 1 ≤ i ∧ i < eby then 0 else cp i
      let mask := lowBits 8 ebi
      if mask ≠ 0 then Function.update cp eby (cp eby &&& ~~~mask) else cp

/-! ## Out of the list -/

def getc (clp : Clist) : Option (BitVec 32 × Clist) :=
  if clp.cCc = 0 then some (-1, clp)
  else do
    let cs ← clp.cCs
    let cf ← clp.cCf
    let c := ttyChar (cs cf) (quoteAt clp.cCq cf)
    let clp := { clp with
      cCs := some (Function.update cs cf 0)
      cCq := clp.cCq.map (Bitmap.clear · cf)
      cCf := some (clp.wrap (cf + 1))
      cCc := clp.cCc - 1 }
    some (c, clp.ifEmpty)

/-- The loop of `q_to_b`; `p` are the bytes copied so far. -/
def qToBLoop : Nat → Clist → Nat → List (BitVec 8) → Option (List (BitVec 8) × Clist)
  | 0, _, _, _ => none
  | n + 1, clp, count, p =>
    if 0 < count ∧ 0 < clp.cCc then do
      let cs ← clp.cCs
      let cf ← clp.cCf
      let cl ← clp.cCl
      let cc := if cl ≤ cf then clp.cCn - cf else cl - cf
      let cc := if count < cc then count else cc
      let clp := { clp with
        cCs := some (bzeroAt cs cf cc)
        cCq := clp.cCq.map (clrbits · cf cc)
        cCc := clp.cCc - cc
        cCf := some (clp.wrap (cf + cc)) }
      qToBLoop n clp (count - cc) (p ++ (List.range cc).map fun i => cs (cf + i))
    else some (p, clp)

/-- `q_to_b`; the result is the length of the list. -/
def qToB (clp : Clist) (count : Int) : Option (List (BitVec 8) × Clist) := do
  let (p, clp) ← qToBLoop (count.toNat + 1) clp count.toNat []
  some (p, clp.ifEmpty)

def ndflushLoop : Nat → Clist → Nat → Option Clist
  | 0, _, _ => none
  | n + 1, clp, count =>
    if 0 < count ∧ 0 < clp.cCc then do
      let cf ← clp.cCf
      let cl ← clp.cCl
      let cc := if cl ≤ cf then clp.cCn - cf else cl - cf
      let cc := if count < cc then count else cc
      let clp := { clp with cCc := clp.cCc - cc, cCf := some (clp.wrap (cf + cc)) }
      ndflushLoop n clp (count - cc)
    else some clp

def ndflush (clp : Clist) (count : Int) : Option Clist :=
  if count = clp.cCc then some { clp with cCc := 0, cCf := none, cCl := none }
  else do
    let clp ← ndflushLoop (count.toNat + 1) clp count.toNat
    some clp.ifEmpty

def unputc (clp : Clist) : Option (BitVec 32 × Clist) :=
  if clp.cCc = 0 then some (-1, clp)
  else do
    let cs ← clp.cCs
    let cl ← clp.cCl
    let cl := if cl = 0 then clp.cCn - 1 else cl - 1
    let c := ttyChar (cs cl) (quoteAt clp.cCq cl)
    let clp := { clp with
      cCl := some cl
      cCc := clp.cCc - 1
      cCs := some (Function.update cs cl 0)
      cCq := clp.cCq.map (Bitmap.clear · cl) }
    some (c, clp.ifEmpty)

/-! ## Into the list -/

def putc (c : BitVec 32) (clp : Clist) : Option (Int × Clist) :=
  if clp.cCc = clp.cCn then some (-1, clp)
  else do
    let clp := clp.start
    let cs ← clp.cCs
    let cl ← clp.cCl
    some (0, { clp with
      cCs := some (Function.update cs cl (c.setWidth 8))
      cCq := clp.cCq.map fun m =>
        if c &&& ttyQuote ≠ 0 then Bitmap.set m cl else Bitmap.clear m cl
      cCc := clp.cCc + 1
      cCl := some (clp.wrap (cl + 1)) })

/-- The loop of `b_to_q`; `p` are the bytes still to be copied. -/
def bToQLoop : Nat → Clist → List (BitVec 8) → Option (List (BitVec 8) × Clist)
  | 0, _, _ => none
  | n + 1, clp, p =>
    if 0 < p.length ∧ clp.cCc < clp.cCn then do
      let cs ← clp.cCs
      let cf ← clp.cCf
      let cl ← clp.cCl
      let cc := if cl < cf then cf - cl else clp.cCn - cl
      let cc := if p.length < cc then p.length else cc
      let clp := { clp with
        cCs := some (bcopyAt cs cl (p.take cc))
        cCq := clp.cCq.map (clrbits · cl cc)
        cCc := clp.cCc + cc
        cCl := some (clp.wrap (cl + cc)) }
      bToQLoop n clp (p.drop cc)
    else some (p, clp)

/-- `b_to_q`, of all bytes of a buffer; the result is the length of the list. -/
def bToQ (cp : List (BitVec 8)) (clp : Clist) : Option (List (BitVec 8) × Clist) :=
  if cp.length = 0 then some ([], clp)
  else if clp.cCc = clp.cCn then some (cp, clp)
  else bToQLoop (cp.length + 1) clp.start cp

def catqLoop : Nat → Clist → Clist → Option (Clist × Clist)
  | 0, _, _ => none
  | n + 1, src, dst => do
    let (c, src) ← getc src
    if c = -1 then some (src, dst)
    else do
      let (_, dst) ← putc c dst
      catqLoop n src dst

/-- `catq`, for two lists. -/
def catq (src dst : Clist) : Option (Clist × Clist) :=
  if src.cCc = 0 then some (src, dst)
  else if dst.cCc = 0 ∧ src.cCn = dst.cCn then some (dst, src)
  else catqLoop (src.cCc + 1) src dst

/-! ## Through the list -/

/-- `nextc`: the new pointer with its character, and the variable `cc`. -/
def nextc (clp : Clist) (cp : Option Nat) (cc : Nat) : Option (Option (Nat × BitVec 32) × Nat) :=
  let cc := if clp.cCf = cp then clp.cCc else cc
  if cc = 0 ∨ cp = none then some (none, cc)
  else if cc - 1 = 0 then some (none, cc - 1)
  else do
    let cs ← clp.cCs
    let p ← cp
    let p := clp.wrap (p + 1)
    some (some (p, ttyChar (cs p) (quoteAt clp.cCq p)), cc - 1)

/-- `firstc`: the pointer with its character, and the variable `cc`. -/
def firstc (clp : Clist) : Option (Option (Nat × BitVec 32) × Nat) :=
  if clp.cCc = 0 then some (none, clp.cCc)
  else do
    let cs ← clp.cCs
    let cf ← clp.cCf
    some (some (cf, ttyChar (cs cf) (quoteAt clp.cCq cf)), clp.cCc)

/-! ## A count of characters -/

/-- The first loop of `ndqb`: the index is the one of the next character already when the
    quote bit is looked at. A bit behind the ring is `none`. -/
def ndqbQuote (cs : Nat → BitVec 8) (isset : Nat → Option Bool) (cn : Nat) (mask : BitVec 32) :
    Nat → Nat → Nat → Option Nat
  | 0, _, count => some count
  | cc + 1, i, count =>
    if (cs i).setWidth 32 &&& mask ≠ 0 then some count
    else do
      let quoted ← isset (i + 1)
      if quoted then some count
      else if i + 1 = cn then some (count + 1)
      else ndqbQuote cs isset cn mask cc (i + 1) (count + 1)

/-- The second loop. -/
def ndqbPlain (cs : Nat → BitVec 8) (cn : Nat) (mask : BitVec 32) : Nat → Nat → Nat → Nat
  | 0, _, count => count
  | cc + 1, i, count =>
    if (cs i).setWidth 32 &&& mask ≠ 0 then count
    else if i + 1 = cn then count + 1
    else ndqbPlain cs cn mask cc (i + 1) (count + 1)

def ndqb (clp : Clist) (flag : BitVec 32) : Option Nat :=
  if clp.cCc = 0 then some 0
  else do
    let cs ← clp.cCs
    let cf ← clp.cCf
    let cl ← clp.cCl
    if flag = 0 then some (if cl ≤ cf then clp.cCn - cf else cl - cf)
    else if flag &&& ttyQuote ≠ 0 then do
      let m ← clp.cCq
      let isset := fun i => if i < clp.cCn then some (m.test i) else none
      ndqbQuote cs isset clp.cCn (flag &&& ~~~ttyQuote) clp.cCc cf 0
    else some (ndqbPlain cs clp.cCn flag clp.cCc cf 0)

end OpenBsd.Kern
