/-
  OpenBsd.Kern.UipcSocket2

  The socket buffers of `sys/kern/uipc_socket2.c`: records of mbufs in a memory, with
  the counters `sb_cc`, `sb_datacc` and `sb_mbcnt` and the cached pointers
  `sb_lastrecord` and `sb_mbtail`.

  A pointer is an `Option` of an address.  A loop over mbufs is bounded by the number
  of mbufs that the pool has handed out; it gives no result when it would go around in
  a cycle, and a function gives none when it panics.
-/

import OpenBsd.Lib.Run
import Mathlib.Data.List.Basic

namespace OpenBsd.Kern

open OpenBsd.Lib

/-! ## Mbufs -/

def msize : Nat := 256

/-- `MLEN`: what `struct m_hdr` leaves of an mbuf. -/
def mlen : Nat := msize - 32

def mclbytes : Nat := 2048

inductive MbufType where
  | free | data | header | soname | soopts | ftable | control | oobdata
  deriving DecidableEq, Repr

/-- External storage: `ext_buf`, `ext_size` and the flag `M_EXTWR`. -/
structure MbufExt where
  buf : Nat
  size : Nat
  extwr : Bool
  deriving DecidableEq, Repr

/-- What an mbuf holds, apart from its links.  `data` are the `m_len` bytes at `m_data`
    and `off` is how far `m_data` is from the start of the storage; `ext` is there when
    the flag `M_EXT` is set. -/
structure Mbuf where
  data : List UInt8
  off : Nat
  mtype : MbufType
  eor : Bool
  pkthdr : Bool
  zeroize : Bool
  pktLen : Int
  ext : Option MbufExt
  deriving DecidableEq, Repr

def Mbuf.len (m : Mbuf) : Nat := m.data.length

/-- The bytes that the socket layer counts as data. -/
def Mbuf.isData (m : Mbuf) : Bool := m.mtype ≠ .control ∧ m.mtype ≠ .soname

/-- `m_ext.ext_size` if `M_EXT` is set. -/
def Mbuf.extSize (m : Mbuf) : Nat :=
  match m.ext with
  | none => 0
  | some e => e.size

/-- `M_READONLY`; `refs` says how many mbufs share a storage. -/
def mReadonly (refs : Nat → Nat) (m : Mbuf) : Bool :=
  match m.ext with
  | none => false
  | some e => !e.extwr || 1 < refs e.buf

def mTrailingspace (refs : Nat → Nat) (m : Mbuf) : Nat :=
  if mReadonly refs m then 0
  else
    match m.ext with
    | none => mlen - (m.off + m.len)
    | some e => e.size - (m.off + m.len)

/-! ## Memory -/

/-- The mbufs at their addresses, the pool's list of those it has handed out, and the
    number of references to each external storage. -/
structure MbufHeap (α : Type) where
  mbuf : α → Mbuf
  next : α → Option α
  nextpkt : α → Option α
  live : List α
  refs : Nat → Nat

variable {α : Type} [DecidableEq α]

def MbufHeap.setMbuf (h : MbufHeap α) (a : α) (m : Mbuf) : MbufHeap α :=
  { h with mbuf := Function.update h.mbuf a m }

def MbufHeap.setNext (h : MbufHeap α) (a : α) (p : Option α) : MbufHeap α :=
  { h with next := Function.update h.next a p }

def MbufHeap.setNextpkt (h : MbufHeap α) (a : α) (p : Option α) : MbufHeap α :=
  { h with nextpkt := Function.update h.nextpkt a p }

def MbufHeap.setEor (h : MbufHeap α) (a : α) (eor : Bool) : MbufHeap α :=
  h.setMbuf a { h.mbuf a with eor := eor }

/-- `if (n) n->m_flags |= M_ZEROIZE`. -/
def MbufHeap.zeroizeOf (h : MbufHeap α) (n : Option α) : MbufHeap α :=
  match n with
  | none => h
  | some n => h.setMbuf n { h.mbuf n with zeroize := true }

/-- `m_extfree`: one reference less. -/
def dropRef (refs : Nat → Nat) (m : Mbuf) : Nat → Nat :=
  match m.ext with
  | none => refs
  | some e => Function.update refs e.buf (refs e.buf - 1)

def MbufHeap.poolPut (h : MbufHeap α) (a : α) (refs : Nat → Nat) : MbufHeap α :=
  { h with live := h.live.erase a, refs := refs }

/-- `m_free`: the memory after it and the mbuf that came next. -/
def mFree (h : MbufHeap α) (m : α) : MbufHeap α × Option α :=
  let n := h.next m
  let refs := dropRef h.refs (h.mbuf m)
  let h := if (h.mbuf m).zeroize then h.zeroizeOf n else h
  (h.poolPut m refs, n)

/-- An mbuf from the pool, filled by its owner. -/
def MbufHeap.alloc (h : MbufHeap α) (a : α) (m : Mbuf) (next : Option α) : MbufHeap α where
  mbuf := Function.update h.mbuf a m
  next := Function.update h.next a next
  nextpkt := Function.update h.nextpkt a none
  live := a :: h.live
  refs := h.refs

/-- A chain that a caller has built, and its first mbuf. -/
def MbufHeap.allocChain (h : MbufHeap α) : List (α × Mbuf) → MbufHeap α × Option α
  | [] => (h, none)
  | (a, m) :: l => (((h.allocChain l).1).alloc a m (h.allocChain l).2, some a)

/-- Enough iterations for a loop that visits no mbuf twice. -/
def MbufHeap.bound (h : MbufHeap α) : Nat := h.live.length + 1

/-! ## Socket buffers -/

/-- `struct sockbuf`; the counters are `u_long`. -/
structure Sockbuf (α : Type) where
  cc : BitVec 64
  datacc : BitVec 64
  mbcnt : BitVec 64
  hiwat : BitVec 64
  mbmax : BitVec 64
  mb : Option α
  mbtail : Option α
  lastrecord : Option α

omit [DecidableEq α] in
/-- `sbspace`: the smaller of two `long` differences. -/
def sbspace (sb : Sockbuf α) : Int :=
  min (sb.hiwat - sb.cc).toInt (sb.mbmax - sb.mbcnt).toInt

def sballoc (sb : Sockbuf α) (m : Mbuf) : Sockbuf α :=
  { sb with
    cc := sb.cc + BitVec.ofNat 64 m.len
    datacc := if m.isData then sb.datacc + BitVec.ofNat 64 m.len else sb.datacc
    mbcnt := sb.mbcnt + BitVec.ofNat 64 msize + BitVec.ofNat 64 m.extSize }

def sbfree (sb : Sockbuf α) (m : Mbuf) : Sockbuf α :=
  { sb with
    cc := sb.cc - BitVec.ofNat 64 m.len
    datacc := if m.isData then sb.datacc - BitVec.ofNat 64 m.len else sb.datacc
    mbcnt := sb.mbcnt - BitVec.ofNat 64 msize - BitVec.ofNat 64 m.extSize }

/-- `len` more bytes in an mbuf that is there already. -/
def Sockbuf.addBytes (sb : Sockbuf α) (m : Mbuf) (len : Nat) : Sockbuf α :=
  { sb with
    cc := sb.cc + BitVec.ofNat 64 len
    datacc := if m.isData then sb.datacc + BitVec.ofNat 64 len else sb.datacc }

/-- `len` bytes less in an mbuf that stays. -/
def Sockbuf.subBytes (sb : Sockbuf α) (m : Mbuf) (len : Nat) : Sockbuf α :=
  { sb with
    cc := sb.cc - BitVec.ofNat 64 len
    datacc := if m.isData then sb.datacc - BitVec.ofNat 64 len else sb.datacc }

/-- `*mp = p`, where `mp` is the address of `sb_mb` or of the `m_nextpkt` of an mbuf. -/
def setMp (h : MbufHeap α) (sb : Sockbuf α) (mp p : Option α) : MbufHeap α × Sockbuf α :=
  match mp with
  | none => (h, { sb with mb := p })
  | some a => (h.setNextpkt a p, sb)

def sblinkrecord (h : MbufHeap α) (sb : Sockbuf α) (m0 : α) : MbufHeap α × Sockbuf α :=
  ((setMp h sb sb.lastrecord (some m0)).1,
    { (setMp h sb sb.lastrecord (some m0)).2 with lastrecord := some m0 })

/-! ## sbcompress -/

/-- The empty mbuf `m` is discarded; `o` is the mbuf after it, or else the one before. -/
def discards (eor : Bool) (m : Mbuf) (o : Option Mbuf) : Bool :=
  m.len == 0 && (!eor || o.any fun o => o.mtype == m.mtype)

/-- The bytes of `m` are copied to the end of `n`. -/
def coalesces (refs : Nat → Nat) (n m : Mbuf) : Bool :=
  !n.eor && decide (m.len ≤ mclbytes / 4) && decide (m.len ≤ mTrailingspace refs n) &&
    n.mtype == m.mtype

/-- `if (sb->sb_lastrecord == m) sb->sb_lastrecord = m->m_next`. -/
def Sockbuf.skipLast (sb : Sockbuf α) (m : α) (next : Option α) : Sockbuf α :=
  { sb with lastrecord := if sb.lastrecord = some m then next else sb.lastrecord }

/-- `memcpy(mtod(n) + n->m_len, mtod(m), m->m_len); n->m_len += m->m_len`. -/
def MbufHeap.copyInto (h : MbufHeap α) (n m : α) : MbufHeap α :=
  h.setMbuf n { h.mbuf n with data := (h.mbuf n).data ++ (h.mbuf m).data }

/-- The mbuf `m` is put behind `n`, or becomes the first of the buffer. -/
def linkMbuf (h : MbufHeap α) (sb : Sockbuf α) (m : α) (n : Option α) :
    MbufHeap α × Sockbuf α :=
  let sb' := sballoc { sb with mbtail := some m } (h.mbuf m)
  match n with
  | some n => ((h.setNext n (some m)).setEor m false, sb')
  | none => (h.setEor m false, { sb' with mb := some m })

/-- The loop of `sbcompress`: the memory, the buffer, `n` and `eor` at its end. -/
def sbcompressLoop : Nat → MbufHeap α → Sockbuf α → Option α → Option α → Bool →
    Option (MbufHeap α × Sockbuf α × Option α × Bool)
  | 0, _, _, _, _, _ => none
  | _ + 1, h, sb, none, n, eor => some (h, sb, n, eor)
  | fuel + 1, h, sb, some m, n, eor =>
    let eor := eor || (h.mbuf m).eor
    if discards eor (h.mbuf m) (((h.next m).or n).map h.mbuf) then
      let r := mFree h m
      sbcompressLoop fuel r.1 (sb.skipLast m (h.next m)) r.2 n eor
    else
      match n.filter fun n => coalesces h.refs (h.mbuf n) (h.mbuf m) with
      | some n =>
        let r := mFree (h.copyInto n m) m
        sbcompressLoop fuel r.1 (sb.addBytes (h.mbuf m) (h.mbuf m).len) r.2 (some n) eor
      | none =>
        let r := linkMbuf h sb m n
        sbcompressLoop fuel (r.1.setNext m none) r.2 (r.1.next m) (some m) eor

/-- `sbcompress`.  Without an mbuf to carry the end of the record it prints a message
    only. -/
def sbcompress (h : MbufHeap α) (sb : Sockbuf α) (m n : Option α) :
    Option (MbufHeap α × Sockbuf α) := do
  let (h, sb, n, eor) ← sbcompressLoop h.bound h sb m n false
  match n with
  | some n => return (if eor then h.setEor n true else h, sb)
  | none => return (h, sb)

/-! ## Records -/

/-- What follows the first mbuf of a new record: the mbuf is cut off, its `M_EOR` goes
    to the one after it, and the rest is compressed. -/
def compressRest (h : MbufHeap α) (sb : Sockbuf α) (m0 : α) :
    Option (MbufHeap α × Sockbuf α) :=
  let m := h.next m0
  let h := h.setNext m0 none
  match m with
  | some m =>
    if (h.mbuf m0).eor then sbcompress ((h.setEor m0 false).setEor m true) sb (some m) (some m0)
    else sbcompress h sb (some m) (some m0)
  | none => sbcompress h sb none (some m0)

def sbappendrecord (h : MbufHeap α) (sb : Sockbuf α) (m0 : Option α) :
    Option (MbufHeap α × Sockbuf α) :=
  match m0 with
  | none => some (h, sb)
  | some m0 =>
    let r := sblinkrecord h (sballoc sb (h.mbuf m0)) m0
    compressRest r.1 r.2 m0

/-- The walk of `sbappend` along the last record: it finds an end of record, or the
    last mbuf. -/
def findEor (h : MbufHeap α) : Nat → α → Option (Option α)
  | 0, _ => none
  | fuel + 1, n =>
    if (h.mbuf n).eor then some none
    else
      match h.next n with
      | none => some (some n)
      | some n' => findEor h fuel n'

def sbappend (h : MbufHeap α) (sb : Sockbuf α) (m : Option α) :
    Option (MbufHeap α × Sockbuf α) :=
  match m with
  | none => some (h, sb)
  | some m =>
    match sb.lastrecord with
    | some n => do
      match ← findEor h h.bound n with
      | none => sbappendrecord h sb (some m)
      | some n => sbcompress h sb (some m) (some n)
    | none => sbcompress h { sb with lastrecord := some m } (some m) none

/-- `sbappendstream`; it panics when there is more than one record. -/
def sbappendstream (h : MbufHeap α) (sb : Sockbuf α) (m : Option α) :
    Option (MbufHeap α × Sockbuf α) := do
  guard (sb.mb = sb.lastrecord)
  let (h, sb) ← sbcompress h sb m sb.mbtail
  return (h, { sb with lastrecord := sb.mb })

/-- The `switch` of `sbinsertoob` at a train: behind its control mbufs there is
    out-of-band data. -/
def inspectTrain (h : MbufHeap α) : Nat → α → Option Bool
  | 0, _ => none
  | fuel + 1, m =>
    match (h.mbuf m).mtype with
    | .oobdata => some true
    | .control =>
      match h.next m with
      | some m => inspectTrain h fuel m
      | none => some false
    | _ => some false

def readMp (h : MbufHeap α) (sb : Sockbuf α) (mp : Option α) : Option α :=
  match mp with
  | none => sb.mb
  | some a => h.nextpkt a

/-- The loop of `sbinsertoob`: `mp` at its end. -/
def findOob (h : MbufHeap α) (sb : Sockbuf α) : Nat → Option α → Option (Option α)
  | 0, _ => none
  | fuel + 1, mp =>
    match readMp h sb mp with
    | none => some mp
    | some m => do
      if ← inspectTrain h h.bound m then findOob h sb fuel (some m) else some mp

/-- `if (*mp == NULL) sb->sb_lastrecord = m0`. -/
def Sockbuf.newTail (sb : Sockbuf α) (p : Option α) (m0 : α) : Sockbuf α :=
  { sb with lastrecord := if p = none then some m0 else sb.lastrecord }

def sbinsertoob (h : MbufHeap α) (sb : Sockbuf α) (m0 : Option α) :
    Option (MbufHeap α × Sockbuf α) :=
  match m0 with
  | none => some (h, sb)
  | some m0 => do
    let mp ← findOob h sb h.bound none
    let p := readMp h sb mp
    let sb := (sballoc sb (h.mbuf m0)).newTail p m0
    let r := setMp (h.setNextpkt m0 p) sb mp (some m0)
    compressRest r.1 r.2 m0

/-- The loop over the control mbufs: the space they need and the last of them. -/
def controlSpace (h : MbufHeap α) : Nat → Option α → Int → Option (Int × Option α)
  | 0, _, _ => none
  | _ + 1, none, space => some (space, none)
  | fuel + 1, some n, space =>
    match h.next n with
    | none => some (space + (h.mbuf n).len, some n)
    | some n' => controlSpace h fuel (some n') (space + (h.mbuf n).len)

/-- `for (m = m0; m; m = m->m_next) space += m->m_len`. -/
def dataSpace (h : MbufHeap α) : Nat → Option α → Int → Option Int
  | 0, _, _ => none
  | _ + 1, none, space => some space
  | fuel + 1, some m, space => dataSpace h fuel (h.next m) (space + (h.mbuf m).len)

/-- `sballoc` of every mbuf of a chain, and the last of them. -/
def sballocChain (h : MbufHeap α) : Nat → α → Sockbuf α → Option (Sockbuf α × α)
  | 0, _, _ => none
  | fuel + 1, n, sb =>
    match h.next n with
    | some n' => sballocChain h fuel n' (sballoc sb (h.mbuf n))
    | none => some (sballoc sb (h.mbuf n), n)

/-- The end of `sbappendaddr` and `sbappendcontrol`: the chain from `m` on becomes the
    last record. -/
def linkChain (h : MbufHeap α) (sb : Sockbuf α) (m : α) : Option (MbufHeap α × Sockbuf α) := do
  let (sb, nlast) ← sballocChain h h.bound m sb
  let r := sblinkrecord h sb m
  return (r.1, { r.2 with mbtail := some nlast })

/-- The mbuf for a socket address, from `MGET` and `memcpy`. -/
def sonameMbuf (asa : List UInt8) : Mbuf where
  data := asa
  off := 0
  mtype := .soname
  eor := false
  pkthdr := false
  zeroize := false
  pktLen := 0
  ext := none

/-- `m0->m_pkthdr.len`, if there is an `m0`; it panics without a packet header. -/
def pktSpace (h : MbufHeap α) (m0 : Option α) : Option Int :=
  match m0 with
  | none => some 0
  | some m0 => if (h.mbuf m0).pkthdr then some (h.mbuf m0).pktLen else none

/-- The chain that begins with the control mbufs, when `m0` is put behind them, and
    its first mbuf. -/
def concatControl (h : MbufHeap α) (control last m0 : Option α) : MbufHeap α × Option α :=
  match last with
  | some n => (h.setNext n m0, control)
  | none => (h, m0)

/-- `sbappendaddr`; `mget` is the mbuf that `MGET` finds in the pool, if any.  The last
    component is what the function returns. -/
def sbappendaddr (h : MbufHeap α) (sb : Sockbuf α) (asa : List UInt8) (m0 control mget : Option α) :
    Option (MbufHeap α × Sockbuf α × Bool) := do
  let pkt ← pktSpace h m0
  let (space, n) ← controlSpace h h.bound control (asa.length + pkt)
  if space > sbspace sb then return (h, sb, false)
  if asa.length > mlen then return (h, sb, false)
  match mget with
  | none => return (h, sb, false)
  | some m =>
    let c := concatControl (h.alloc m (sonameMbuf asa) none) control n m0
    let (h, sb) ← linkChain (c.1.setNext m c.2) sb m
    return (h, sb, true)

/-- `sbappendcontrol`; it panics without control mbufs. -/
def sbappendcontrol (h : MbufHeap α) (sb : Sockbuf α) (m0 control : Option α) :
    Option (MbufHeap α × Sockbuf α × Bool) := do
  let control ← control
  let (space, n) ← controlSpace h h.bound (some control) 0
  let n ← n
  let space ← dataSpace h h.bound m0 space
  if space > sbspace sb then return (h, sb, false)
  let (h, sb) ← linkChain (h.setNext n m0) sb control
  return (h, sb, true)

/-! ## Drops -/

/-- The first loop of `sbdrop`: the memory, the buffer, `m` and `next` at its end.  It
    panics when there are not enough bytes. -/
def sbdropLoop : Nat → MbufHeap α → Sockbuf α → Option α → Option α → Int →
    Option (MbufHeap α × Sockbuf α × Option α × Option α)
  | 0, _, _, _, _, _ => none
  | fuel + 1, h, sb, m, next, len =>
    if len ≤ 0 then some (h, sb, m, next)
    else
      match m with
      | none =>
        match next with
        | none => none
        | some m => sbdropLoop fuel h sb (some m) (h.nextpkt m) len
      | some m =>
        if ((h.mbuf m).len : Int) > len then
          some (h.setMbuf m { h.mbuf m with
              data := (h.mbuf m).data.drop len.toNat, off := (h.mbuf m).off + len.toNat },
            sb.subBytes (h.mbuf m) len.toNat, some m, next)
        else
          let r := mFree h m
          sbdropLoop fuel r.1 (sbfree sb (h.mbuf m)) r.2 next (len - (h.mbuf m).len)

/-- The second loop of `sbdrop`: empty mbufs at the front go. -/
def sbdropEmpty : Nat → MbufHeap α → Sockbuf α → Option α →
    Option (MbufHeap α × Sockbuf α × Option α)
  | 0, _, _, _ => none
  | _ + 1, h, sb, none => some (h, sb, none)
  | fuel + 1, h, sb, some m =>
    if (h.mbuf m).len = 0 then
      let r := mFree h m
      sbdropEmpty fuel r.1 (sbfree sb (h.mbuf m)) r.2
    else some (h, sb, some m)

def sbEmptyFixup (sb : Sockbuf α) : Sockbuf α :=
  match sb.mb with
  | none => { sb with mbtail := none, lastrecord := none }
  | some _ => sb

/-- `if (m) m->m_nextpkt = next`. -/
def MbufHeap.setNextpktOf (h : MbufHeap α) (m next : Option α) : MbufHeap α :=
  match m with
  | none => h
  | some m => h.setNextpkt m next

/-- The end of `sbdrop`: `SB_EMPTY_FIXUP`, and `sb_lastrecord` if a part of the last
    record was dropped. -/
def sbdropFixup (h : MbufHeap α) (sb : Sockbuf α) : Sockbuf α :=
  match sb.mb with
  | none => { sb with mbtail := none, lastrecord := none }
  | some m => { sb with lastrecord := if h.nextpkt m = none then some m else sb.lastrecord }

/-- `sbdrop`.  Each iteration of its first loop frees an mbuf or goes to another
    record. -/
def sbdrop (h : MbufHeap α) (sb : Sockbuf α) (len : Int) : Option (MbufHeap α × Sockbuf α) := do
  let next := sb.mb.bind h.nextpkt
  let (h, sb, m, next) ← sbdropLoop (2 * h.bound) h sb sb.mb next len
  let (h, sb, m) ← sbdropEmpty h.bound h sb m
  let h := h.setNextpktOf m next
  return (h, sbdropFixup h { sb with mb := m.or next })

/-- The loop of `sbflush`; `sb_cc` is cast to an `int`. -/
def sbflushLoop : Nat → MbufHeap α → Sockbuf α → Option (MbufHeap α × Sockbuf α)
  | 0, _, _ => none
  | fuel + 1, h, sb =>
    if sb.mbcnt = 0 then some (h, sb)
    else do
      let (h, sb) ← sbdrop h sb (sb.cc.setWidth 32).toInt
      sbflushLoop fuel h sb

/-- `sbflush` of a buffer that is not locked; it panics when something is left. -/
def sbflush (fuel : Nat) (h : MbufHeap α) (sb : Sockbuf α) : Option (MbufHeap α × Sockbuf α) := do
  let (h, sb) ← sbflushLoop fuel h sb
  guard (sb.cc = 0 ∧ sb.datacc = 0 ∧ sb.mb = none ∧ sb.mbtail = none ∧ sb.lastrecord = none)
  return (h, sb)

/-- The loop of `sbdroprecord`. -/
def sbfreeChain : Nat → MbufHeap α → Sockbuf α → α → Option (MbufHeap α × Sockbuf α)
  | 0, _, _, _ => none
  | fuel + 1, h, sb, m =>
    let r := mFree h m
    match r.2 with
    | none => some (r.1, sbfree sb (h.mbuf m))
    | some mn => sbfreeChain fuel r.1 (sbfree sb (h.mbuf m)) mn

def sbdroprecord (h : MbufHeap α) (sb : Sockbuf α) : Option (MbufHeap α × Sockbuf α) :=
  match sb.mb with
  | none => some (h, sbEmptyFixup sb)
  | some m => do
    let (h, sb) ← sbfreeChain h.bound h { sb with mb := h.nextpkt m } m
    return (h, sbEmptyFixup sb)

/-! ## The checks of SOCKBUF_DEBUG -/

/-- `while (m && next) m = next`, along `m_next` or `m_nextpkt`. -/
def walkLast (next : α → Option α) : Nat → Option α → Option (Option α)
  | 0, _ => none
  | _ + 1, none => some none
  | fuel + 1, some m =>
    match next m with
    | none => some (some m)
    | some m => walkLast next fuel (some m)

/-- `sblastrecordchk`: no result if it panics. -/
def sblastrecordchk (h : MbufHeap α) (sb : Sockbuf α) : Option Unit := do
  let m ← walkLast h.nextpkt h.bound sb.mb
  guard (m = sb.lastrecord)

def sblastmbufchk (h : MbufHeap α) (sb : Sockbuf α) : Option Unit := do
  let m ← walkLast h.nextpkt h.bound sb.mb
  let m ← walkLast h.next h.bound m
  guard (m = sb.mbtail)

/-- The inner loop of `sbcheck`, with `len` and `mbcnt`. -/
def sbcheckTrain (h : MbufHeap α) (m : α) :
    Nat → Option α → BitVec 64 × BitVec 64 → Option (BitVec 64 × BitVec 64)
  | 0, _, _ => none
  | _ + 1, none, acc => some acc
  | fuel + 1, some n, acc =>
    if m ≠ n ∧ h.nextpkt n ≠ none then none
    else
      sbcheckTrain h m fuel (h.next n)
        (acc.1 + BitVec.ofNat 64 (h.mbuf n).len,
          acc.2 + BitVec.ofNat 64 msize + BitVec.ofNat 64 (h.mbuf n).extSize)

def sbcheckLoop (h : MbufHeap α) :
    Nat → Option α → BitVec 64 × BitVec 64 → Option (BitVec 64 × BitVec 64)
  | 0, _, _ => none
  | _ + 1, none, acc => some acc
  | fuel + 1, some m, acc => do
    let acc ← sbcheckTrain h m h.bound (some m) acc
    sbcheckLoop h fuel (h.nextpkt m) acc

def sbcheck (h : MbufHeap α) (sb : Sockbuf α) : Option Unit := do
  let (len, mbcnt) ← sbcheckLoop h h.bound sb.mb (0, 0)
  guard (len = sb.cc ∧ mbcnt = sb.mbcnt)

/-! ## Runs -/

/-- A memory of mbufs with a socket buffer. -/
structure SbState (α : Type) where
  heap : MbufHeap α
  sb : Sockbuf α

/-- The calls.  A chain is given by the addresses and contents of its mbufs; without any
    the pointer is `NULL`.  With `extref` the other users of the external storages take
    and drop references. -/
inductive SbCall (α : Type) where
  | sbappend (m : List (α × Mbuf))
  | sbappendrecord (m0 : List (α × Mbuf))
  | sbappendaddr (asa : List UInt8) (m0 control : List (α × Mbuf)) (mget : Option α)
  | sbappendcontrol (m0 control : List (α × Mbuf))
  | sbinsertoob (m0 : List (α × Mbuf))
  | sbdrop (len : Int)
  | sbdroprecord
  | extref (refs : Nat → Nat)

/-- The mbufs that a call takes from the pool. -/
def SbCall.taken : SbCall α → List α
  | .sbappend m => m.map Prod.fst
  | .sbappendrecord m0 => m0.map Prod.fst
  | .sbappendaddr _ m0 control mget => mget.toList ++ (m0.map Prod.fst ++ control.map Prod.fst)
  | .sbappendcontrol m0 control => m0.map Prod.fst ++ control.map Prod.fst
  | .sbinsertoob m0 => m0.map Prod.fst
  | .sbdrop _ => []
  | .sbdroprecord => []
  | .extref _ => []

/-- The call in a memory where its chains are built. -/
def sbCall (h : MbufHeap α) (sb : Sockbuf α) : SbCall α → Option (MbufHeap α × Sockbuf α)
  | .sbappend m =>
    let c := h.allocChain m
    Kern.sbappend c.1 sb c.2
  | .sbappendrecord m0 =>
    let c := h.allocChain m0
    Kern.sbappendrecord c.1 sb c.2
  | .sbappendaddr asa m0 control mget =>
    let d := h.allocChain m0
    let c := d.1.allocChain control
    (Kern.sbappendaddr c.1 sb asa d.2 c.2 mget).map fun r => (r.1, r.2.1)
  | .sbappendcontrol m0 control =>
    let d := h.allocChain m0
    let c := d.1.allocChain control
    (Kern.sbappendcontrol c.1 sb d.2 c.2).map fun r => (r.1, r.2.1)
  | .sbinsertoob m0 =>
    let c := h.allocChain m0
    Kern.sbinsertoob c.1 sb c.2
  | .sbdrop len => Kern.sbdrop h sb len
  | .sbdroprecord => Kern.sbdroprecord h sb
  | .extref refs => some ({ h with refs := refs }, sb)

/-- The pool hands out mbufs that are not in use. -/
def sbStep (s : SbState α) (e : SbCall α) : Option (SbState α) :=
  if e.taken.Nodup ∧ ∀ a ∈ e.taken, a ∉ s.heap.live then
    (sbCall s.heap s.sb e).map fun r => { heap := r.1, sb := r.2 }
  else none

/-- An empty buffer with these limits, in any memory. -/
def sbInit (h : MbufHeap α) (hiwat mbmax : BitVec 64) : SbState α where
  heap := h
  sb :=
    { cc := 0, datacc := 0, mbcnt := 0, hiwat := hiwat, mbmax := mbmax
      mb := none, mbtail := none, lastrecord := none }

end OpenBsd.Kern
