/-
  OpenBsd.Net.PfFragTable

  The whole fragment cache of `sys/net/pf_norm.c`: the tree of the fragment queues by their
  keys, the list `pf_fragqueue`, and the functions that find, create, fill, flush and expire
  queues.

  A pointer to a `struct pf_fragment` is its key with the number of its allocation.  What a
  fragment does to the entries of its queue is `pfFillupFragment`.
-/

import OpenBsd.Net.PfFrag
import OpenBsd.Net.PfTestAttrib
import OpenBsd.Sys.TreeFind

namespace OpenBsd.Net

open OpenBsd.Lib OpenBsd.Sys

/-! ## Keys -/

/-- `struct pf_fragment_cmp`. -/
structure PfFragmentCmp where
  frSrc : PfAddr
  frDst : PfAddr
  frId : BitVec 32
  frAf : PfAf
  frProto : Nat
  frDirection : Nat
  deriving DecidableEq

/-- The number of an address family. -/
def PfAf.num : PfAf → Nat
  | .inet => afInet
  | .inet6 => afInet6

/-- The words that an address of the family has, in the order of `pf_addr_compare`. -/
def PfAddr.wordsOf (a : PfAddr) : PfAf → List Nat
  | .inet => [a.a0]
  | .inet6 => [a.a3, a.a2, a.a1, a.a0]

/-- All fields but the direction are equal; an IPv4 address is the first word. -/
def PfFragmentCmp.SameButDirection (a b : PfFragmentCmp) : Prop :=
  a.frId = b.frId ∧ a.frProto = b.frProto ∧ a.frAf = b.frAf ∧
    a.frSrc.wordsOf a.frAf = b.frSrc.wordsOf a.frAf ∧
    a.frDst.wordsOf a.frAf = b.frDst.wordsOf a.frAf

/-- All six fields are equal. -/
def PfFragmentCmp.Same (a b : PfFragmentCmp) : Prop :=
  a.SameButDirection b ∧ a.frDirection = b.frDirection

/-- The comparisons of `pf_addr_compare`, word by word. -/
@[simp] def compareWords : List Nat → List Nat → Int
  | x :: xs, y :: ys => if x > y then 1 else if x < y then -1 else compareWords xs ys
  | _, _ => 0

def pfAddrCompare (a b : PfAddr) (af : PfAf) : Int := compareWords (a.wordsOf af) (b.wordsOf af)

/-- A pointer to a queue. -/
structure PfFragPtr where
  key : PfFragmentCmp
  serial : Nat
  deriving DecidableEq

/-- `pf_frag_compare`.  The difference of the ids is one of 32-bit numbers, as an `int`. -/
def pfFragCompare (a b : PfFragPtr) : Int :=
  thenCompare (a.key.frId - b.key.frId).toInt <|
    thenCompare ((a.key.frProto : Int) - b.key.frProto) <|
      thenCompare ((a.key.frAf.num : Int) - b.key.frAf.num) <|
        thenCompare (pfAddrCompare a.key.frSrc b.key.frSrc a.key.frAf) <|
          pfAddrCompare a.key.frDst b.key.frDst a.key.frAf

/-! ## The cache -/

/-- `struct pf_fragment`. -/
structure PfFragment where
  ptr : PfFragPtr
  frTimeout : Int
  frQueue : List PfFrent
  frMaxlen : Nat

/-- `pf_frag_tree`, `pf_fragqueue` from its head on, `pf_nfrents` and `time_uptime`. -/
structure PfFragCache where
  tree : RbHeap PfFragPtr
  fragqueue : List PfFragment
  nfrents : Int
  timeUptime : Int
  serial : Nat

def PfFragCache.init (timeUptime : Int) : PfFragCache where
  tree := ⟨fun _ _ => none, fun _ => none, fun _ => .black, none⟩
  fragqueue := []
  nfrents := 0
  timeUptime := timeUptime
  serial := 1

/-- A value as an `int32_t`. -/
def int32 (x : Int) : Int := (BitVec.ofInt 32 x).toInt

/-- `pool_put(&pf_frent_pl, frent); pf_nfrents--;` -/
def PfFragCache.putFrent (s : PfFragCache) : PfFragCache := { s with nfrents := s.nfrents - 1 }

/-- `TAILQ_REMOVE`. -/
def PfFragCache.unlink (s : PfFragCache) (ptr : PfFragPtr) : List PfFragment :=
  s.fragqueue.eraseP fun f => f.ptr = ptr

/-- The queue that a pointer leads to. -/
def PfFragCache.frag (s : PfFragCache) (ptr : PfFragPtr) : Option PfFragment :=
  s.fragqueue.find? fun f => f.ptr = ptr

def pfFreeFragment (fuel : Nat) (s : PfFragCache) (ptr : PfFragPtr) : Option PfFragCache := do
  let (_, tree) ← Sys.rbRemove s.tree ptr fuel
  let frag ← s.frag ptr
  some { s with
    tree
    fragqueue := s.unlink ptr
    nfrents := s.nfrents - frag.frQueue.length }

def pfFindFragment (fuel : Nat) (s : PfFragCache) (key : PfFragmentCmp) :
    Option (Option PfFragment × PfFragCache) := do
  match ← rbFind pfFragCompare s.tree ⟨key, 0⟩ fuel with
  | none => some (none, s)
  | some ptr =>
    let frag ← s.frag ptr
    some (some frag, { s with fragqueue := frag :: s.unlink ptr })

/-- The loop of `pf_purge_expired_fragments`; each round takes one of the `n` queues. -/
def purgeLoop (fuel : Nat) (expire : Int) : Nat → PfFragCache → Option PfFragCache
  | 0, s => some s
  | n + 1, s =>
    match s.fragqueue.getLast? with
    | none => some s
    | some frag =>
      if frag.frTimeout > expire then some s
      else (pfFreeFragment fuel s frag.ptr).bind (purgeLoop fuel expire n)

/-- `pf_purge_expired_fragments`, with the value of the timeout `PFTM_FRAG`. -/
def pfPurgeExpiredFragments (fuel : Nat) (s : PfFragCache) (timeout : Nat) :
    Option PfFragCache :=
  purgeLoop fuel (int32 (s.timeUptime - timeout)) s.fragqueue.length s

def flushLoop (fuel : Nat) (goal : Int) : Nat → PfFragCache → Option PfFragCache
  | 0, s => some s
  | n + 1, s =>
    if goal < s.nfrents then
      match s.fragqueue.getLast? with
      | none => some s
      | some frag => (pfFreeFragment fuel s frag.ptr).bind (flushLoop fuel goal n)
    else some s

def pfFlushFragments (fuel : Nat) (s : PfFragCache) : Option PfFragCache :=
  flushLoop fuel (Int.tdiv (s.nfrents * 9) 10) s.fragqueue.length s

/-- `pool_get`, and once more after a flush; `mem` says which of the two have an item. -/
def poolGetFlush (fuel : Nat) (s : PfFragCache) (mem : Bool × Bool) : Option (Bool × PfFragCache) :=
  if mem.1 then some (true, s) else (pfFlushFragments fuel s).map fun s => (mem.2, s)

def pfCreateFragment (fuel : Nat) (s : PfFragCache) (mem : Bool × Bool) : Option PfFragCache := do
  let (got, s) ← poolGetFlush fuel s mem
  some (if got then { s with nfrents := s.nfrents + 1 } else s)

def newQueue (fuel : Nat) (s : PfFragCache) (key : PfFragmentCmp) (frent : PfFrent) :
    Option (Option PfFragment × PfFragCache) := do
  let ptr : PfFragPtr := ⟨key, s.serial⟩
  let (_, tree) ← rbInsert pfFragCompare s.tree ptr fuel
  let frag : PfFragment := ⟨ptr, int32 s.timeUptime, [frent], frent.feLen⟩
  some (some frag, { s with tree, fragqueue := frag :: s.fragqueue, serial := s.serial + 1 })

/-- The entries and the maximum length of a queue change. -/
def PfFragCache.setQueue (s : PfFragCache) (ptr : PfFragPtr) (q : List PfFrent) (maxlen : Nat) :
    List PfFragment :=
  s.fragqueue.map fun f => if f.ptr = ptr then { f with frQueue := q, frMaxlen := maxlen } else f

/-- The fragment goes into the queue that was found, is dropped, or discards the queue.  An
    entry that it overlaps completely is freed. -/
def fillQueue (fuel : Nat) (s : PfFragCache) (frag : PfFragment) (frent : PfFrent) :
    Option (Option PfFragment × PfFragCache) :=
  let maxlen := max frag.frMaxlen frent.feLen
  match pfFillupFragment frag.ptr.key.frAf (some frag.frQueue) frent true with
  | none => none
  | some (none, _) => do
    let s ← pfFreeFragment fuel s frag.ptr
    some (none, s.putFrent)
  | some (some q, false) =>
    some (none, { s with fragqueue := s.setQueue frag.ptr q maxlen }.putFrent)
  | some (some q, true) =>
    some (some { frag with frQueue := q, frMaxlen := maxlen }, { s with
        fragqueue := s.setQueue frag.ptr q maxlen
        nfrents := s.nfrents - (frag.frQueue.length + 1 - q.length) })

def pfFillup (fuel : Nat) (s : PfFragCache) (key : PfFragmentCmp) (frent : PfFrent)
    (mem : Bool × Bool) : Option (Option PfFragment × PfFragCache) :=
  if badFragment frent then some (none, s.putFrent)
  else do
    match ← pfFindFragment fuel s key with
    | (some frag, s) => fillQueue fuel s frag frent
    | (none, s) =>
      let (got, s) ← poolGetFlush fuel s mem
      if got then newQueue fuel s key frent else some (none, s.putFrent)

/-! ## Runs -/

/-- What happens to the cache.  A queue that was joined is freed. -/
inductive PfFragOp where
  | create (mem : Bool × Bool)
  | fillup (key : PfFragmentCmp) (frent : PfFrent) (mem : Bool × Bool)
  | free (ptr : PfFragPtr)
  | flush
  | purge (timeout : Nat)
  | tick (seconds : Nat)

def pfFragStep (fuel : Nat) (s : PfFragCache) : PfFragOp → Option PfFragCache
  | .create mem => pfCreateFragment fuel s mem
  | .fillup key frent mem => (pfFillup fuel s key frent mem).map Prod.snd
  | .free ptr => pfFreeFragment fuel s ptr
  | .flush => pfFlushFragments fuel s
  | .purge timeout => pfPurgeExpiredFragments fuel s timeout
  | .tick seconds => some { s with timeUptime := s.timeUptime + seconds }

/-- The states reached from an empty cache by steps that meet `ok`. -/
inductive PfFragCache.Reach (ok : PfFragCache → PfFragOp → Prop) : PfFragCache → Prop where
  | init (timeUptime : Nat) : Reach ok (.init timeUptime)
  | step {s s' : PfFragCache} (op : PfFragOp) : Reach ok s → ok s op →
      Returns (fun fuel => pfFragStep fuel s op) s' → Reach ok s'

end OpenBsd.Net
