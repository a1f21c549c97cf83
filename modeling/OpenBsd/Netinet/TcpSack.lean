/-
  OpenBsd.Netinet.TcpSack

  The list of blocks that a receiver reports: `tcp_update_sack_list` of
  `sys/netinet/tcp_input.c`.
-/

import OpenBsd.Lib.Hull
import OpenBsd.Lib.Run
import OpenBsd.Netinet.TcpReass

namespace OpenBsd.Netinet

open OpenBsd.Lib

/-! ## The list -/

def seqLt (a b : Nat) : Bool := decide (seqDiff a b < 0)

def seqLeq (a b : Nat) : Bool := decide (seqDiff a b ≤ 0)

def seqGeq (a b : Nat) : Bool := decide (seqDiff a b ≥ 0)

/-- `struct sackblk`; `stop` is its `end`. -/
structure Sackblk where
  start : Nat
  stop : Nat
  deriving DecidableEq

def maxSackBlks : Nat := 6

/-- The fields of `struct tcpcb` in use. -/
structure TcpSack where
  rcvNxt : Nat
  rcvNumsacks : Nat
  sackblks : Nat → Sackblk

def TcpSack.blocks (tp : TcpSack) : List Sackblk := (List.range tp.rcvNumsacks).map tp.sackblks

def tcpCleanSackreport (tp : TcpSack) : TcpSack :=
  { tp with
    rcvNumsacks := 0
    sackblks := fun i => if i < maxSackBlks then ⟨0, 0⟩ else tp.sackblks i }

/-! ## tcp_update_sack_list -/

/-- The variables of the loop that cleans up the list. -/
structure SackClean where
  sackblks : Nat → Sackblk
  temp : Nat → Sackblk
  j : Nat
  count : Nat

/-- The loop that cleans up the list, `n` rounds of it from `i` on. -/
def sackCleanLoop (rcvNxt : Nat) : Nat → Nat → SackClean → SackClean
  | 0, _, s => s
  | n + 1, i, s =>
    let sack := s.sackblks i
    if sack.start = 0 ∧ sack.stop = 0 then
      sackCleanLoop rcvNxt n (i + 1) { s with count := s.count + 1 }
    else if seqLeq sack.stop rcvNxt then
      sackCleanLoop rcvNxt n (i + 1) { s with
        sackblks := Function.update s.sackblks i ⟨0, 0⟩
        count := s.count + 1 }
    else
      sackCleanLoop rcvNxt n (i + 1) { s with
        temp := Function.update s.temp s.j sack
        j := s.j + 1 }

/-- `sackblks[i] = temp[i]`, `n` rounds from `i` on. -/
def sackCopyLoop (temp : Nat → Sackblk) : Nat → Nat → (Nat → Sackblk) → Nat → Sackblk
  | 0, _, sackblks => sackblks
  | n + 1, i, sackblks =>
    sackCopyLoop temp n (i + 1) (Function.update sackblks i (temp i))

/-- The variables of the loop that coalesces blocks; `lastpos` is `none` for -1. -/
structure SackMerge where
  sackblks : Nat → Sackblk
  firstsack : Sackblk
  lastpos : Option Nat

/-- The loop that coalesces blocks. -/
def sackMergeLoop : Nat → Nat → SackMerge → SackMerge
  | 0, _, s => s
  | n + 1, i, s =>
    let sack := s.sackblks i
    if seqLt sack.stop s.firstsack.start || seqGt sack.start s.firstsack.stop then
      -- no overlap
      sackMergeLoop n (i + 1) s
    else if sack.start = s.firstsack.start ∧ sack.stop = s.firstsack.stop then
      sackMergeLoop n (i + 1) { s with
        sackblks := Function.update s.sackblks i ⟨0, 0⟩
        lastpos := some i }
    else
      let start := if seqLeq sack.start s.firstsack.start then sack.start else s.firstsack.start
      let stop := if seqGeq sack.stop s.firstsack.stop then sack.stop else s.firstsack.stop
      sackMergeLoop n (i + 1)
        ⟨Function.update s.sackblks i ⟨0, 0⟩, ⟨start, stop⟩, some i⟩

/-- The loop that leaves out the blocks that were marked, with `temp` and `j`. -/
def sackCompactLoop (sackblks : Nat → Sackblk) :
    Nat → Nat → (Nat → Sackblk) → Nat → (Nat → Sackblk) × Nat
  | 0, _, temp, j => (temp, j)
  | n + 1, i, temp, j =>
    let sack := sackblks i
    if sack.start = 0 ∧ sack.stop = 0 then sackCompactLoop sackblks n (i + 1) temp j
    else sackCompactLoop sackblks n (i + 1) (Function.update temp j sack) (j + 1)

/-- `sackblks[i] = sackblks[i - 1]`, from `i` down. -/
def sackShiftLoop : Nat → (Nat → Sackblk) → Nat → Sackblk
  | 0, sackblks => sackblks
  | i + 1, sackblks => sackShiftLoop i (Function.update sackblks (i + 1) (sackblks i))

/-- `tcp_update_sack_list`; what `temp` holds at first does not matter. -/
def tcpUpdateSackList (tp : TcpSack) (rcvLaststart rcvLastend : Nat) : TcpSack :=
  let s := sackCleanLoop tp.rcvNxt tp.rcvNumsacks 0 ⟨tp.sackblks, fun _ => ⟨0, 0⟩, 0, 0⟩
  let tp := { tp with sackblks := s.sackblks, rcvNumsacks := tp.rcvNumsacks - s.count }
  if tp.rcvNumsacks = 0 then
    let tp := tcpCleanSackreport tp
    if seqLt tp.rcvNxt rcvLaststart then
      { tp with
        sackblks := Function.update tp.sackblks 0 ⟨rcvLaststart, rcvLastend⟩
        rcvNumsacks := 1 }
    else tp
  else
    let tp := { tp with sackblks := sackCopyLoop s.temp tp.rcvNumsacks 0 tp.sackblks }
    if seqGeq tp.rcvNxt rcvLastend then tp
    else
      let m := sackMergeLoop tp.rcvNumsacks 0 ⟨tp.sackblks, ⟨rcvLaststart, rcvLastend⟩, none⟩
      if m.lastpos ≠ none then
        let (temp, j) := sackCompactLoop m.sackblks tp.rcvNumsacks 0 s.temp 1
        { tp with
          rcvNumsacks := j
          sackblks := Function.update (sackCopyLoop temp (j - 1) 1 m.sackblks) 0 m.firstsack }
      else
        let n := if tp.rcvNumsacks < maxSackBlks then tp.rcvNumsacks + 1 else tp.rcvNumsacks
        { tp with
          rcvNumsacks := n
          sackblks := Function.update (sackShiftLoop (n - 1) m.sackblks) 0 m.firstsack }

end OpenBsd.Netinet
