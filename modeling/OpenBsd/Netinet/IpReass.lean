/-
  OpenBsd.Netinet.IpReass

  The reassembly of IP datagrams in `sys/netinet/ip_input.c`: `ip_ours` and `ip_reass`, for
  the fragments of one source, destination, protocol and id.

  A packet is its header fields and the list of the bytes behind the header.
-/

import OpenBsd.Lib.Pieces
import OpenBsd.Netinet.Ip

namespace OpenBsd.Netinet

open OpenBsd.Lib

/-! ## Packets and queue entries -/

/-- The part of the header that comes along with a fragment: the fields of `struct ip` that
    `ip_reass` does not look at, and the options. -/
structure IpHdr where
  ipV : Nat := 4
  ipId : Nat := 0
  ipTtl : Nat := 0
  ipP : Nat := 0
  ipSrc : Nat := 0
  ipDst : Nat := 0
  options : List UInt8 := []
  deriving DecidableEq

/-- The fields of a packet in use.  `ipOff` has the flags. -/
structure IpPkt where
  ipHl : Nat
  ipTos : Nat
  ipLen : Nat
  ipOff : Nat
  data : List UInt8
  hdr : IpHdr
  deriving DecidableEq

/-- `struct ipqent`, with the fields of its header: `ipLen` is the length of the data and
    `ipOff` the offset in bytes. -/
structure Ipqent where
  ipHl : Nat
  ipTos : Nat
  ipLen : Nat
  ipOff : Nat
  ipqeMff : Bool
  data : List UInt8
  hdr : IpHdr
  deriving DecidableEq

/-- `struct ipq`, the queue of a datagram.  It is never empty. -/
structure Ipq where
  fragq : List Ipqent
  ne : fragq ≠ []
  deriving DecidableEq

def Ipq.first (fp : Ipq) : Ipqent := fp.fragq.head fp.ne

/-- The entry without its first bytes. -/
def Ipqent.cut (q : Ipqent) (i : Nat) : Ipqent :=
  { q with ipOff := (q.ipOff + i) % 2 ^ 16, ipLen := q.ipLen - i, data := q.data.drop i }

/-! ## ip_reass -/

/-- The comparison of the ECN bits with those of the first fragment; `none` is a drop. -/
def ecnCheck (first ipqe : Ipqent) : Option Ipqent :=
  let ecn := ipqe.ipTos &&& iptosEcnCe
  let ecn0 := first.ipTos &&& iptosEcnCe
  if ecn = iptosEcnCe ∧ ecn0 = 0 then none
  else if ecn = 0 ∧ ecn0 ≠ 0 then none
  else if ecn = iptosEcnCe ∧ ecn0 ≠ iptosEcnCe then
    some { first with ipTos := first.ipTos ||| iptosEcnCe }
  else some first

/-- The preceding segment may provide some of the data, or all of it. -/
def trimBefore (p : Option Ipqent) (ipqe : Ipqent) : Option Ipqent :=
  match p with
  | none => some ipqe
  | some p =>
    let i : Int := (p.ipOff + p.ipLen : Nat) - ipqe.ipOff
    if i > 0 then
      if i ≥ ipqe.ipLen then none else some (ipqe.cut i.toNat)
    else some ipqe

/-- Succeeding segments that overlap are trimmed or dequeued. -/
def trimBehind (ipqe : Ipqent) : List Ipqent → List Ipqent
  | [] => []
  | q :: qs =>
    if ipqe.ipOff + ipqe.ipLen > q.ipOff then
      let i := ipqe.ipOff + ipqe.ipLen - q.ipOff
      if i < q.ipLen then q.cut i :: qs else trimBehind ipqe qs
    else q :: qs

/-- The check for complete reassembly: the length, without holes. -/
def sumLoop : List Ipqent → Nat → Option Nat
  | [], next => some next
  | q :: qs, next => if q.ipOff ≠ next then none else sumLoop qs (next + q.ipLen)

/-- What follows the insertion: the queue that stays, and the datagram once it is complete.
    Its first fragment is one as it came, so that its header can be made visible again. -/
def complete (fp : Ipq) : Option Ipq × Option IpPkt :=
  match sumLoop fp.fragq 0 with
  | none => (some fp, none)
  | some next =>
    if (fp.fragq.getLast fp.ne).ipqeMff then (some fp, none)
    else if next + fp.first.ipHl <<< 2 > ipMaxpacket then (none, none)
    else
      (none, some
        { ipHl := fp.first.ipHl
          ipTos := fp.first.ipTos
          ipLen := next % 2 ^ 16
          ipOff := 0
          data := (fp.fragq.map Ipqent.data).flatten
          hdr := fp.first.hdr })

theorem insert_ne (before : List Ipqent) (ipqe : Ipqent) (behind : List Ipqent) :
    before ++ ipqe :: behind ≠ [] := List.append_ne_nil_of_right_ne_nil before (List.cons_ne_nil _ _)

/-- `ip_reass`; `mem` says whether `ipq_pool` has an entry. -/
def ipReass (ipqe : Ipqent) (fp : Option Ipq) (mem : Bool) : Option Ipq × Option IpPkt :=
  match fp with
  | none => if mem then complete ⟨[ipqe], List.cons_ne_nil _ _⟩ else (none, none)
  | some fp =>
    match ecnCheck fp.first ipqe with
    | none => (some fp, none)
    | some first =>
      let fragq := first :: fp.fragq.tail
      let before := fragq.takeWhile fun q => !decide (q.ipOff > ipqe.ipOff)
      let behind := fragq.dropWhile fun q => !decide (q.ipOff > ipqe.ipOff)
      match trimBefore before.getLast? ipqe with
      | none => (some ⟨fragq, List.cons_ne_nil _ _⟩, none)
      | some ipqe => complete ⟨before ++ ipqe :: trimBehind ipqe behind, insert_ne _ _ _⟩

/-! ## ip_ours -/

/-- Offset or `IP_MF` are set. -/
def IpPkt.IsFragment (ip : IpPkt) : Prop := ip.ipOff &&& (2 ^ 16 - 1 - (ipDf ||| ipRf)) ≠ 0

instance (ip : IpPkt) : Decidable ip.IsFragment := inferInstanceAs (Decidable (_ ≠ _))

/-- The entry of a fragment: `ip_len` without the header, and the offset in bytes. -/
def IpPkt.entry (ip : IpPkt) : Ipqent :=
  { ipHl := ip.ipHl
    ipTos := ip.ipTos
    ipLen := (ip.ipLen + 2 ^ 16 - ip.ipHl <<< 2) % 2 ^ 16
    ipOff := (ip.ipOff <<< 3) % 2 ^ 16
    ipqeMff := ip.ipOff &&& ipMf ≠ 0
    data := ip.data
    hdr := ip.hdr }

/-- `ip_ours` up to the next level: the queue that stays, and the packet that goes on.
    `mem` says whether the limit on queued fragments and `ipqent_pool` let the fragment in,
    `memq` whether `ipq_pool` has an entry. -/
def ipOurs (fp : Option Ipq) (ip : IpPkt) (mem memq : Bool) : Option Ipq × Option IpPkt :=
  if ip.IsFragment then
    let ipqe := ip.entry
    if ipqe.ipqeMff ∧ (ipqe.ipLen = 0 ∨ ipqe.ipLen % 8 ≠ 0) then (fp, none)
    else if ipqe.ipqeMff ∨ ipqe.ipOff ≠ 0 then
      if !mem then (fp, none)
      else
        match ipReass ipqe fp memq with
        | (fp, none) => (fp, none)
        | (fp, some m) => (fp, some { m with ipLen := (m.ipLen + m.ipHl <<< 2) % 2 ^ 16 })
    else (none, some ip)
  else (fp, some ip)

/-! ## Runs -/

/-- The header is whole, and `ip_len` is its length and that of the data. -/
def IpPkt.Whole (ip : IpPkt) : Prop :=
  ip.ipLen = ip.ipHl <<< 2 + ip.data.length ∧ ip.ipLen < 2 ^ 16 ∧ ip.ipOff < 2 ^ 16

instance (ip : IpPkt) : Decidable ip.Whole := inferInstanceAs (Decidable (_ ∧ _ ∧ _))

/-- The queue, and the fragments that came since it was made. -/
structure IpqState where
  fp : Option Ipq
  received : List IpPkt
  deriving DecidableEq

/-- A fragment comes in: the state and the packet that goes on. -/
def IpqState.ours (s : IpqState) (ip : IpPkt) (mem memq : Bool) : IpqState × Option IpPkt :=
  let r := ipOurs s.fp ip mem memq
  (⟨r.1, ip :: if s.fp = none then [] else s.received⟩, r.2)

/-- The states reached from no queue; `ip_freef` frees it when it expires or is flushed. -/
inductive IpqState.Reach : IpqState → Prop where
  | start : Reach ⟨none, []⟩
  | ours {s : IpqState} (ip : IpPkt) (mem memq : Bool) : Reach s → ip.Whole → ip.IsFragment →
      Reach (s.ours ip mem memq).1
  | freef {s : IpqState} : Reach s → Reach ⟨none, []⟩

/-- Fragment after fragment, with memory for each: the queue and what goes on. -/
def ipRun (fp : Option Ipq) : List IpPkt → Option Ipq × List (Option IpPkt)
  | [] => (fp, [])
  | ip :: ips =>
    let r := ipOurs fp ip true true
    let rest := ipRun r.1 ips
    (rest.1, r.2 :: rest.2)

/-- The packets are the fragments of a payload, from an offset on. -/
def FragmentsOf : Nat → List UInt8 → List IpPkt → Prop
  | _, _, [] => False
  | off, payload, [ip] =>
    ip.entry.ipOff = off ∧ ip.entry.ipqeMff = false ∧ ip.data = payload ∧ payload ≠ []
  | off, payload, ip :: ips =>
    ip.entry.ipOff = off ∧ ip.entry.ipqeMff = true ∧ ip.data ≠ [] ∧
      ∃ rest, payload = ip.data ++ rest ∧ FragmentsOf (off + ip.data.length) rest ips

end OpenBsd.Netinet
