/-
  OpenBsd.Net.PfFrag

  The fragment cache of `sys/net/pf_norm.c`: `pf_fillup_fragment`, `pf_isfull_fragment`,
  `pf_join_fragment` and `pf_reassemble`, for the queue of one key.

  A packet is the list of its bytes, headers first.  A failed `KASSERT` is `none`.
-/

import OpenBsd.Lib.Pieces
import OpenBsd.Netinet.Ip

namespace OpenBsd.Net

open OpenBsd.Lib OpenBsd.Netinet

/-! ## Fragments -/

/-- `struct pf_frent`; the packet is `feM`. -/
structure PfFrent where
  feHdrlen : Nat
  feLen : Nat
  feOff : Nat
  feMff : Bool
  feM : List UInt8
  deriving DecidableEq

/-- `fr_af`. -/
inductive PfAf where
  | inet
  | inet6
  deriving DecidableEq

/-- `m_adj`: bytes off the front, or off the end for a negative length. -/
def mAdj (m : List UInt8) (reqLen : Int) : List UInt8 :=
  if reqLen ≥ 0 then m.drop reqLen.toNat else m.take (m.length - (-reqLen).toNat)

/-- Where the fragment ends. -/
def PfFrent.stop (frent : PfFrent) : Nat := frent.feOff + frent.feLen

/-- The fragment without its first bytes.  The cut is made at the front of the packet, and
    what is left of it starts with `feHdrlen` bytes that are no payload. -/
def PfFrent.cut (frent : PfFrent) (n : Nat) : PfFrent :=
  { frent with
    feM := mAdj frent.feM n
    feOff := (frent.feOff + n) % 2 ^ 16
    feLen := frent.feLen - n }

/-! ## The queue -/

/-- Fragments that are empty, not aligned, or too long. -/
def badFragment (frent : PfFrent) : Bool :=
  frent.feLen = 0 || (frent.feMff && frent.feLen % 8 ≠ 0) || frent.stop > ipMaxpacket

/-- Fragments whose end does not agree with the last one that is queued. -/
def badEnd (last frent : PfFrent) : Bool :=
  let total := last.stop % 2 ^ 16
  (frent.stop < total && !frent.feMff) ||
    (if !last.feMff then frent.stop > total || (frent.stop = total && frent.feMff)
     else frent.stop = total && !frent.feMff)

/-- The entries behind the fragment, without the bytes that it has. -/
def cutAfter (frent : PfFrent) : List PfFrent → List PfFrent
  | [] => []
  | after :: rest =>
    if frent.stop > after.feOff then
      let aftercut := (frent.stop - after.feOff) % 2 ^ 16
      if aftercut < after.feLen then after.cut aftercut :: rest else cutAfter frent rest
    else after :: rest

/-- How `pf_fillup_fragment` ends for a key that has a queue. -/
inductive FillEnd where
  | filled (q : List PfFrent)
  | dropped
  | freed

/-- The fragment goes behind `before`.  With IPv6 an overlap discards the datagram. -/
def insertFrent (frAf : PfAf) (before after : List PfFrent) (frent : PfFrent) : FillEnd :=
  match before.getLast? with
  | none => insertAfter frent
  | some prev =>
    if prev.stop > frent.feOff then
      if frAf = .inet6 then .freed
      else
        let precut := (prev.stop - frent.feOff) % 2 ^ 16
        if precut ≥ frent.feLen then .dropped else insertAfter (frent.cut precut)
    else insertAfter frent
where
  insertAfter (frent : PfFrent) : FillEnd :=
    if frAf = .inet6 ∧ ∃ next ∈ after.head?, frent.stop > next.feOff then .freed
    else .filled (before ++ frent :: cutAfter frent after)

/-- `pf_fillup_fragment`: the queue of the key, and whether the fragment is in it.
    `mem` says whether `pf_frag_pl` has an entry, at the latest after a flush. -/
def pfFillupFragment (frAf : PfAf) (frag : Option (List PfFrent)) (frent : PfFrent) (mem : Bool) :
    Option (Option (List PfFrent) × Bool) :=
  if badFragment frent then some (frag, false)
  else
    match frag with
    | none => if mem then some (some [frent], true) else some (none, false)
    | some q =>
      match q.getLast? with
      | none => none
      | some last =>
        if badEnd last frent then some (some q, false)
        else
          let before := q.takeWhile fun e => !decide (e.feOff > frent.feOff)
          let after := q.dropWhile fun e => !decide (e.feOff > frent.feOff)
          if before = [] ∧ after = [] then none
          else
            match insertFrent frAf before after frent with
            | .filled q => some (some q, true)
            | .dropped => some (some q, false)
            | .freed => some (none, false)

/-! ## Complete datagrams -/

/-- The loop of `pf_isfull_fragment`; `none` is a missing fragment. -/
def fullLoop (total : Nat) : List PfFrent → Nat → Option Nat
  | [], off => some off
  | frent :: rest, off =>
    let off := (off + frent.feLen) % 2 ^ 16
    if off < total ∧ rest.head?.map PfFrent.feOff ≠ some off then none else fullLoop total rest off

def pfIsfullFragment (q : List PfFrent) : Option Bool :=
  match q.getLast? with
  | none => none
  | some last =>
    if last.feMff then some false
    else
      let total := last.stop % 2 ^ 16
      match fullLoop total q 0 with
      | none => some false
      | some off => if off < total then some false else if off = total then some true else none

/-- The packet without the bytes behind its first `n`. -/
def stripTrailing (m : List UInt8) (n : Nat) : List UInt8 :=
  if n < m.length then mAdj m ((n : Int) - m.length) else m

/-- `pf_join_fragment`: the first packet with its header, then the payload of the others. -/
def pfJoinFragment : List PfFrent → List UInt8
  | [] => []
  | frent :: rest =>
    rest.foldl (fun m frent => m ++ stripTrailing (mAdj frent.feM frent.feHdrlen) frent.feLen)
      (stripTrailing frent.feM (frent.feHdrlen + frent.feLen))

/-! ## pf_reassemble -/

/-- A field of 16 bits, in network byte order. -/
def half (m : List UInt8) (i : Nat) : Nat := (m.getD i 0).toNat * 256 + (m.getD (i + 1) 0).toNat

def setHalf (m : List UInt8) (i v : Nat) : List UInt8 :=
  (m.set i (UInt8.ofNat (v / 256))).set (i + 1) (UInt8.ofNat v)

def ipLen (m : List UInt8) : Nat := half m 2

def ipOff (m : List UInt8) : Nat := half m 6

inductive PfVerdict where
  | pass
  | drop
  deriving DecidableEq

/-- The queue of a key, with the fragments that came for it. -/
structure PfFragState where
  frag : Option (List PfFrent)
  received : List PfFrent
  deriving DecidableEq

/-- The packet has the header and the payload that its header fields say. -/
def PfFrent.Whole (frent : PfFrent) : Prop := frent.feHdrlen + frent.feLen ≤ frent.feM.length

instance (frent : PfFrent) : Decidable frent.Whole := inferInstanceAs (Decidable (_ ≤ _))

def PfFragState.fillup (frAf : PfAf) (s : PfFragState) (frent : PfFrent) (mem : Bool) :
    Option PfFragState :=
  (pfFillupFragment frAf s.frag frent mem).map fun r => ⟨r.1, frent :: s.received⟩

/-- `pf_free_fragment`, for a queue that was joined, has expired or is flushed. -/
def PfFragState.free (_ : PfFragState) : PfFragState := ⟨none, []⟩

/-- The states reached from no queue. -/
inductive PfFragState.Reach (frAf : PfAf) : PfFragState → Prop where
  | start : Reach frAf ⟨none, []⟩
  | fillup {s s' : PfFragState} (frent : PfFrent) (mem : Bool) : Reach frAf s → frent.Whole →
      s.fillup frAf frent mem = some s' → Reach frAf s'
  | free {s : PfFragState} : Reach frAf s → Reach frAf s.free

/-- Fragment after fragment, without a free in between. -/
def PfFragState.fillups (frAf : PfAf) : PfFragState → List (PfFrent × Bool) → Option PfFragState
  | s, [] => some s
  | s, (frent, mem) :: rest => (s.fillup frAf frent mem).bind fun s => s.fillups frAf rest

end OpenBsd.Net
