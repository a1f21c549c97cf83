/-
  OpenBsd.Netinet.TcpReass

  The reassembly queue of TCP in `sys/netinet/tcp_input.c`: `tcp_reass` and
  `tcp_flush_queue`.

  An mbuf chain is the list of its bytes.  The bytes that `tcp_flush_queue` hands over are
  a result; the caller appends them to `so_rcv`, or frees them on a socket that receives no
  more.  Statistics, wakeups and urgent data are left out.
-/

import OpenBsd.Lib.SeqNum
import OpenBsd.Lib.Pieces

namespace OpenBsd.Netinet

open OpenBsd.Lib

/-! ## The queue -/

/-- `struct tcpqent`, with the header of its segment. -/
structure TcpQent where
  thSeq : Nat
  thReseqlen : Nat
  fin : Bool
  data : List UInt8
  deriving DecidableEq

/-- A segment that comes in, without its headers. -/
structure TcpSeg where
  thSeq : Nat
  fin : Bool
  data : List UInt8
  deriving DecidableEq

/-- The fields of `struct tcpcb` in use. -/
structure TcpReass where
  tState : Nat
  rcvNxt : Nat
  segq : List TcpQent
  deriving DecidableEq

def tcpsEstablished : Nat := 4

def tcpsSynReceived : Nat := 3

def seqGt (a b : Nat) : Bool := decide (seqDiff a b > 0)

/-- The queue with a free entry for the segment: without memory the last entry is used again
    for a segment that fills a hole; otherwise the queue is flushed. -/
def allocQent (tp : TcpReass) (th : TcpSeg) (mem : Bool) : Option (List TcpQent) :=
  if mem then some tp.segq
  else if tp.segq ≠ [] ∧ th.thSeq = tp.rcvNxt then some tp.segq.dropLast
  else none

/-- The preceding entry may provide the data at the start of the segment, or all of it. -/
def trimSeg (p : Option TcpQent) (th : TcpSeg) : Option TcpSeg :=
  match p with
  | none => some th
  | some p =>
    let i := seqDiff (p.thSeq + p.thReseqlen) th.thSeq
    if i > 0 then
      if i ≥ th.data.length then none
      else some { th with thSeq := (th.thSeq + i.toNat) % 2 ^ 32, data := th.data.drop i.toNat }
    else some th

/-- Succeeding entries that the segment overlaps are trimmed or dequeued. -/
def trimQueue (th : TcpSeg) : List TcpQent → List TcpQent
  | [] => []
  | q :: qs =>
    let i := seqDiff (th.thSeq + th.data.length) q.thSeq
    if i ≤ 0 then q :: qs
    else if i < q.thReseqlen then
      { q with
        thSeq := (q.thSeq + i.toNat) % 2 ^ 32
        thReseqlen := q.thReseqlen - i.toNat
        data := q.data.drop i.toNat } :: qs
    else trimQueue th qs

/-- The loop of `tcp_flush_queue`, with the bytes handed over and the flag of the last
    entry. -/
def flushLoop : List TcpQent → Nat → List UInt8 → Bool → List TcpQent × Nat × List UInt8 × Bool
  | [], rcvNxt, handed, flags => ([], rcvNxt, handed, flags)
  | q :: qs, rcvNxt, handed, flags =>
    if q.thSeq = rcvNxt then
      flushLoop qs ((rcvNxt + q.thReseqlen) % 2 ^ 32) (handed ++ q.data) q.fin
    else (q :: qs, rcvNxt, handed, flags)

/-- `tcp_flush_queue`: the bytes handed over, and whether they end with a `FIN`. -/
def tcpFlushQueue (tp : TcpReass) : TcpReass × List UInt8 × Bool :=
  if tp.tState < tcpsEstablished then (tp, [], false)
  else
    match tp.segq with
    | [] => (tp, [], false)
    | q :: _ =>
      if q.thSeq ≠ tp.rcvNxt ∨ (tp.tState = tcpsSynReceived ∧ q.thReseqlen ≠ 0) then (tp, [], false)
      else
        let (segq, rcvNxt, handed, flags) := flushLoop tp.segq tp.rcvNxt [] false
        ({ tp with segq := segq, rcvNxt := rcvNxt }, handed, flags)

def tcpReass (tp : TcpReass) (th : TcpSeg) (mem : Bool) : TcpReass × List UInt8 × Bool :=
  match allocQent tp th mem with
  | none => ({ tp with segq := [] }, [], false)
  | some segq =>
    let before := segq.takeWhile fun q => !seqGt q.thSeq th.thSeq
    let behind := segq.dropWhile fun q => !seqGt q.thSeq th.thSeq
    match trimSeg before.getLast? th with
    | none => ({ tp with segq := segq }, [], false)
    | some th =>
      let tiqe : TcpQent := ⟨th.thSeq, th.data.length % 2 ^ 16, th.fin, th.data⟩
      let tp := { tp with segq := before ++ tiqe :: trimQueue th behind }
      if th.thSeq ≠ tp.rcvNxt then (tp, [], false) else tcpFlushQueue tp

/-! ## Runs -/

/-- A connection with `SS_CANTRCVMORE` of its socket, the bytes appended to `so_rcv` and
    those handed over, and the segments received, each with its place in the stream. -/
structure TcpConn where
  tp : TcpReass
  cantRcvMore : Bool
  soRcv : List UInt8
  handed : List UInt8
  received : List (Nat × TcpSeg)
  deriving DecidableEq

/-- How far a sequence number is past `rcv_nxt`. -/
def TcpReass.offset (tp : TcpReass) (seq : Nat) : Nat := (seq + 2 ^ 32 - tp.rcvNxt) % 2 ^ 32

/-- A segment comes in. -/
def TcpConn.input (c : TcpConn) (th : TcpSeg) (mem : Bool) : TcpConn :=
  let (tp, handed, _) := tcpReass c.tp th mem
  { c with
    tp := tp
    soRcv := if c.cantRcvMore then c.soRcv else c.soRcv ++ handed
    handed := c.handed ++ handed
    received := (c.handed.length + c.tp.offset th.thSeq, th) :: c.received }

/-- `socantrcvmore`. -/
def TcpConn.shut (c : TcpConn) : TcpConn := { c with cantRcvMore := true }

/-- The caller has trimmed the segment to a window of less than half of the sequence space,
    from `rcv_nxt` on, and it fits into a packet. -/
def TcpSeg.InWindow (tp : TcpReass) (th : TcpSeg) : Prop :=
  th.thSeq < 2 ^ 32 ∧ tp.offset th.thSeq + th.data.length < 2 ^ 31 ∧ th.data.length < 2 ^ 16

instance (tp : TcpReass) (th : TcpSeg) : Decidable (th.InWindow tp) :=
  inferInstanceAs (Decidable (_ ∧ _ ∧ _))

def TcpConn.start (tState rcvNxt : Nat) : TcpConn :=
  { tp := ⟨tState, rcvNxt, []⟩, cantRcvMore := false, soRcv := [], handed := [], received := [] }

/-- The connections reached from there, with every segment in the window. -/
inductive TcpConn.Reach (tState rcvNxt : Nat) : TcpConn → Prop where
  | start : Reach tState rcvNxt (.start tState rcvNxt)
  | input {c : TcpConn} (th : TcpSeg) (mem : Bool) : Reach tState rcvNxt c → th.InWindow c.tp →
      Reach tState rcvNxt (c.input th mem)
  | shut {c : TcpConn} : Reach tState rcvNxt c → Reach tState rcvNxt c.shut

end OpenBsd.Netinet
