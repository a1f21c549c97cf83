/-
  OpenBsd.Kern.UipcMbuf

  `m_copyback` of `sys/kern/uipc_mbuf.c`, with the functions that get it mbufs and
  clusters.

  A result of `none` stands for a panic, for a store outside the storage of an mbuf and for
  an `int` that overflows.
-/

import OpenBsd.Lib.Loop
import OpenBsd.Lib.Overwrite

namespace OpenBsd.Kern

open OpenBsd.Lib

/-! ## Chains -/

structure ChainMbuf where
  /-- what lies between `m_data` and the end of the storage -/
  mData : List UInt8
  mLen : Nat
  /-- the data is a part of the storage -/
  mLen_le : mLen ≤ mData.length
  mType : Nat
  /-- `M_READONLY` -/
  mReadonly : Bool
  /-- `m_pkthdr.len`, with `M_PKTHDR` set -/
  mPkthdrLen : Option Int

def ChainMbuf.bytes (m : ChainMbuf) : List UInt8 := m.mData.take m.mLen

theorem ChainMbuf.bytes_length (m : ChainMbuf) : m.bytes.length = m.mLen := by
  rw [ChainMbuf.bytes, List.length_take, Nat.min_eq_left m.mLen_le]

def chainBytes (l : List ChainMbuf) : List UInt8 := l.flatMap ChainMbuf.bytes

/-- The sum of the `m_len` fields. -/
def chainLen (l : List ChainMbuf) : Nat := (l.map ChainMbuf.mLen).sum

def pkthdrLen (l : List ChainMbuf) : Option Int := l.head?.bind ChainMbuf.mPkthdrLen

@[simp] theorem chainBytes_nil : chainBytes [] = [] := rfl

@[simp] theorem chainBytes_cons (m : ChainMbuf) (l : List ChainMbuf) :
    chainBytes (m :: l) = m.bytes ++ chainBytes l := rfl

@[simp] theorem chainBytes_append (l l' : List ChainMbuf) :
    chainBytes (l ++ l') = chainBytes l ++ chainBytes l' := List.flatMap_append

@[simp] theorem chainBytes_length (l : List ChainMbuf) : (chainBytes l).length = chainLen l := by
  induction l with
  | nil => rfl
  | cons m l ih =>
    rw [chainBytes_cons, List.length_append, ChainMbuf.bytes_length, ih]
    rfl

@[simp] theorem chainLen_nil : chainLen [] = 0 := rfl

@[simp] theorem chainLen_cons (m : ChainMbuf) (l : List ChainMbuf) :
    chainLen (m :: l) = m.mLen + chainLen l := rfl

@[simp] theorem chainLen_append (l l' : List ChainMbuf) :
    chainLen (l ++ l') = chainLen l + chainLen l' := by
  simp only [chainLen, List.map_append, List.sum_append]

/-! ## Stores -/

def mbufTrailingspace (m : ChainMbuf) : Nat :=
  if m.mReadonly then 0 else m.mData.length - m.mLen

/-- `memmove(mtod(m, caddr_t) + off, src, ..)` -/
def ChainMbuf.store (m : ChainMbuf) (off : Nat) (src : List UInt8) : Option ChainMbuf :=
  if h : off + src.length ≤ m.mData.length then
    some { m with
      mData := overwrite 0 m.mData off src
      mLen_le := by
        rw [overwrite_length]
        exact Nat.le_trans m.mLen_le (Nat.le_max_left m.mData.length (off + src.length)) }
  else none

/-- `m->m_len = len` -/
def ChainMbuf.setLen (m : ChainMbuf) (len : Nat) : Option ChainMbuf :=
  if h : len ≤ m.mData.length then some { m with mLen := len, mLen_le := h } else none

def cInt (n : Nat) : Option Nat := if n < 2 ^ 31 then some n else none

/-! ## m_get and m_clget -/

/-- What `pool_get` gives next: nothing, or an item with these contents. -/
abbrev PoolGets := List (Option (Nat → UInt8))

def mbufPoolGet (size : Nat) : PoolGets → Option (List UInt8) × PoolGets
  | [] => (none, [])
  | none :: pools => (none, pools)
  | some item :: pools => (some ((List.range size).map item), pools)

/-- `m_get`, where an mbuf has room for `mlen` bytes. -/
def mGet (mlen type : Nat) (pools : PoolGets) : Option ChainMbuf × PoolGets :=
  match mbufPoolGet mlen pools with
  | (none, pools) => (none, pools)
  | (some dat, pools) => (some ⟨dat, 0, Nat.zero_le _, type, false, none⟩, pools)

def mclsizes : List Nat :=
  [2048, 4 * 1024, 8 * 1024, 9 * 1024, 12 * 1024, 16 * 1024, 64 * 1024]

/-- `m_clpool`: the size of the items of the pool. -/
def mClpool (pktlen : Nat) : Option Nat := mclsizes.find? fun size => pktlen ≤ size

/-- `m_clget` for a writable cluster; without one `M_EXT` stays clear. -/
def mClget (m : ChainMbuf) (pktlen : Nat) (pools : PoolGets) :
    Option (Option ChainMbuf × PoolGets) :=
  match mClpool pktlen with
  | none => none
  | some size =>
    match mbufPoolGet size pools with
    | (none, pools) => some (none, pools)
    | (some buf, pools) =>
      some (some { m with mData := buf, mLen := 0, mLen_le := Nat.zero_le _ }, pools)

/-! ## m_copyback -/

/-- `m0` up to the mbuf before `m`, `m` and what follows it, with the variables of
    `m_copyback`; `cp` holds the `len` bytes that are left. -/
structure Copyback where
  front : List ChainMbuf
  m : ChainMbuf
  next : List ChainMbuf
  off : Nat
  totlen : Nat
  cp : List UInt8
  pools : PoolGets

def Copyback.chain (s : Copyback) : List ChainMbuf := s.front ++ s.m :: s.next

inductive CopybackError where
  | ok
  | enobufs
deriving DecidableEq, Repr

/-- An mbuf for `need` bytes, in a cluster if they are more than `mlen`. -/
def newMbuf (mlen type need : Nat) (pools : PoolGets) : Option (Option ChainMbuf × PoolGets) :=
  match mGet mlen type pools with
  | (none, pools) => some (none, pools)
  | (some n, pools) => if mlen < need then mClget n need pools else some (some n, pools)

/-- `while (off > (mlen = m->m_len))` -/
def seekBody (mlen : Nat) (s : Copyback) : Option (Copyback ⊕ CopybackError × Copyback) := do
  let mLen ← cInt s.m.mLen
  if mLen < s.off then
    let off := s.off - mLen
    let totlen ← cInt (s.totlen + mLen)
    match s.next with
    | m :: next =>
      some (.inl { s with front := s.front ++ [s.m], m, next, off, totlen })
    | [] =>
      match ← newMbuf mlen s.m.mType (off + s.cp.length) s.pools with
      | (none, pools) => some (.inr (.enobufs, { s with off, totlen, pools }))
      | (some n, pools) =>
        let n ← n.store 0 (List.replicate off 0)
        let n ← n.setLen (s.cp.length + off)
        some (.inl { s with front := s.front ++ [s.m], m := n, next := [], off, totlen, pools })
  else some (.inr (.ok, s))

/-- "extend last packet to be filled fully" -/
def fillLast (s : Copyback) : Option ChainMbuf :=
  if s.next = [] ∧ s.m.mLen - s.off < s.cp.length then
    s.m.setLen (s.m.mLen + min (s.cp.length - (s.m.mLen - s.off)) (mbufTrailingspace s.m))
  else some s.m

/-- `while (len > 0)` -/
def copyBody (mlen : Nat) (s : Copyback) : Option (Copyback ⊕ CopybackError × Copyback) := do
  if s.cp.length = 0 then some (.inr (.ok, s))
  else
    let m ← fillLast s
    let n := min (m.mLen - s.off) s.cp.length
    let m ← m.store s.off (s.cp.take n)
    let cp := s.cp.drop n
    let totlen ← cInt (s.totlen + (n + s.off))
    if cp.length = 0 then some (.inr (.ok, { s with m, cp, totlen }))
    else
      match s.next with
      | m' :: next =>
        some (.inl { s with front := s.front ++ [m], m := m', next, off := 0, cp, totlen })
      | [] =>
        match ← newMbuf mlen m.mType cp.length s.pools with
        | (none, pools) => some (.inr (.enobufs, { s with m, off := 0, cp, totlen, pools }))
        | (some n, pools) =>
          let n ← n.setLen cp.length
          some (.inl { s with
            front := s.front ++ [m], m := n, next := [], off := 0, cp, totlen, pools })

/-- The code at `out`. -/
def setPkthdrLen (totlen : Nat) : List ChainMbuf → List ChainMbuf
  | [] => []
  | m :: next =>
    match m.mPkthdrLen with
    | none => m :: next
    | some len => if len < totlen then { m with mPkthdrLen := some totlen } :: next else m :: next

/-- What `m_copyback` returns, with the chain it leaves. -/
def copybackOut (r : CopybackError × Copyback) : CopybackError × List ChainMbuf :=
  (r.1, setPkthdrLen r.2.totlen r.2.chain)

/-- `m_copyback`.  Each loop visits every mbuf once and one more behind the last. -/
def mCopyback (mlen : Nat) (m0 : List ChainMbuf) (off : Nat) (cp : List UInt8)
    (pools : PoolGets) : Option (CopybackError × List ChainMbuf) :=
  match m0 with
  | [] => some (.ok, [])
  | m :: next =>
    match loop (seekBody mlen) (next.length + 3) ⟨[], m, next, off, 0, cp, pools⟩ with
    | none => none
    | some (.enobufs, s) => some (copybackOut (.enobufs, s))
    | some (.ok, s) => (loop (copyBody mlen) (s.next.length + 3) s).map copybackOut

end OpenBsd.Kern
