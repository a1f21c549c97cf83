/-
  OpenBsd.Kern.SubrPool

  `pool_get` with `PR_NOWAIT`, `pool_put`, `pool_prime` and `pool_reclaim` of `kern/subr_pool.c`, one
  critical section of `pr_mtx` at a time.

  A page is its number, and an item is its page and its place on it.  The allocator hands out any page
  that is not in the pool.  The items that callers hold and the calls that wait for the allocator are
  part of the state; which thread they belong to makes no difference.
-/

import Mathlib.Data.List.Basic
import OpenBsd.Lib.Run

namespace OpenBsd.Kern

open OpenBsd.Lib

/-- `struct pool_item_header`: the free items of a page, and how many are in use. -/
structure PoolItemHeader where
  itemlist : List Nat
  nmissing : Nat
  deriving DecidableEq

/-- What `pool_init`, `pool_setlowat`, `pool_sethiwat` and `pool_sethardlimit` have set. -/
structure PoolConf where
  itemsperpage : Nat
  hardlimit : Nat
  minitems : Nat
  minpages : Nat
  maxpages : Nat

/-- `struct pool`. -/
structure Pool where
  emptypages : List Nat
  partpages : List Nat
  fullpages : List Nat
  curpage : Option Nat
  page : Nat → PoolItemHeader
  npages : Nat
  nitems : Nat
  nout : Nat
  nidle : Nat

/-- An item; `pr_find_pagehead` finds the page in its address. -/
structure PoolItem where
  page : Nat
  slot : Nat
  deriving DecidableEq

def poolInit : Pool :=
  { emptypages := []
    partpages := []
    fullpages := []
    curpage := none
    page := fun _ => ⟨[], 0⟩
    npages := 0
    nitems := 0
    nout := 0
    nidle := 0 }

def poolUpdateCurpage (pp : Pool) : Pool :=
  { pp with curpage := pp.partpages.getLast?.or pp.emptypages.getLast? }

/-- What `pool_p_alloc` makes of a page. -/
def poolPAlloc (c : PoolConf) : PoolItemHeader := ⟨List.range c.itemsperpage, 0⟩

/-- `pool_p_insert` of a page that `pool_p_alloc` returned. -/
def poolPInsert (c : PoolConf) (pp : Pool) (ph : Nat) : Pool :=
  { pp with
    -- if the pool was depleted, point at the new page
    curpage := pp.curpage.or (some ph)
    emptypages := pp.emptypages ++ [ph]
    page := Function.update pp.page ph (poolPAlloc c)
    nitems := pp.nitems + c.itemsperpage
    nidle := pp.nidle + 1
    npages := pp.npages + 1 }

def poolPRemove (c : PoolConf) (pp : Pool) (ph : Nat) : Pool :=
  poolUpdateCurpage
    { pp with
      npages := pp.npages - 1
      nidle := pp.nidle - 1
      nitems := pp.nitems - c.itemsperpage
      emptypages := pp.emptypages.erase ph }

/-- `pool_do_get`, the page that is no longer empty. -/
def poolLeaveEmpty (pp : Pool) (ph : Nat) : Pool :=
  { pp with
    emptypages := pp.emptypages.erase ph
    partpages := pp.partpages ++ [ph]
    nidle := pp.nidle - 1 }

/-- `pool_do_get`, the page that is full now. -/
def poolEnterFull (pp : Pool) (ph : Nat) : Pool :=
  poolUpdateCurpage
    { pp with
      partpages := pp.partpages.erase ph
      fullpages := pp.fullpages ++ [ph] }

/-- `pool_do_get` from `ph = pp->pr_curpage` on.  Without a page, or with a page that has no free
item, the kernel stops. -/
def poolTake (c : PoolConf) (pp : Pool) : Option (PoolItem × Pool) :=
  match pp.curpage with
  | none => none
  | some ph =>
    match (pp.page ph).itemlist with
    | [] => none
    | slot :: rest =>
      let nmissing := (pp.page ph).nmissing
      let pp := { pp with page := Function.update pp.page ph ⟨rest, nmissing + 1⟩ }
      let pp := if nmissing = 0 then poolLeaveEmpty pp ph else pp
      let pp := if nmissing + 1 = c.itemsperpage then poolEnterFull pp ph else pp
      some (⟨ph, slot⟩, pp)

/-- `pool_put`, the page that was full. -/
def poolLeaveFull (pp : Pool) (ph : Nat) : Pool :=
  { pp with
    fullpages := pp.fullpages.erase ph
    partpages := pp.partpages ++ [ph] }

/-- `pool_put`, the page that is empty now. -/
def poolEnterEmpty (pp : Pool) (ph : Nat) : Pool :=
  poolUpdateCurpage
    { pp with
      nidle := pp.nidle + 1
      partpages := pp.partpages.erase ph
      emptypages := pp.emptypages ++ [ph] }

/-- `pool_put` before it looks for a page to free. -/
def poolReturn (c : PoolConf) (pp : Pool) (it : PoolItem) : Pool :=
  let ph := it.page
  let nmissing := (pp.page ph).nmissing
  let pp := { pp with page := Function.update pp.page ph ⟨it.slot :: (pp.page ph).itemlist, nmissing - 1⟩ }
  let pp := if nmissing = c.itemsperpage then poolLeaveFull pp ph else pp
  let pp := if nmissing - 1 = 0 then poolEnterEmpty pp ph else pp
  { pp with nout := pp.nout - 1 }

/-- `pool_put`, the page it frees.  `idle` tells whether the first empty page has been idle for long
enough. -/
def poolPutFree (c : PoolConf) (pp : Pool) (idle : Bool) : Pool :=
  match pp.emptypages with
  | [] => pp
  | ph :: _ => if c.maxpages < pp.nidle ∧ idle then poolPRemove c pp ph else pp

def poolPut (c : PoolConf) (pp : Pool) (it : PoolItem) (idle : Bool) : Pool :=
  poolPutFree c (poolReturn c pp it) idle

/-- The loop of `pool_reclaim` over the empty pages. -/
def poolReclaimLoop (c : PoolConf) : List Nat → Pool → Pool
  | [], pp => pp
  | ph :: phs, pp =>
    if pp.npages ≤ c.minpages then pp
    else if pp.nitems - c.itemsperpage < c.minitems then pp
    else poolReclaimLoop c phs (poolPRemove c pp ph)

def poolReclaim (c : PoolConf) (pp : Pool) : Pool := poolReclaimLoop c pp.emptypages pp

/-! ## The pool and its callers -/

def Pool.Has (pp : Pool) (ph : Nat) : Prop :=
  ph ∈ pp.emptypages ∨ ph ∈ pp.partpages ∨ ph ∈ pp.fullpages

instance (pp : Pool) (ph : Nat) : Decidable (pp.Has ph) := by
  unfold Pool.Has
  infer_instance

/-- No page has a free item. -/
def Pool.depleted (pp : Pool) : Bool :=
  (pp.emptypages ++ pp.partpages ++ pp.fullpages).all fun ph => (pp.page ph).itemlist.isEmpty

/-- The pool, the items that are held, and the calls of `pool_get` below the hard limit: for one that
waits for a page and one that has returned `NULL`, whether the pool was depleted when it looked. -/
structure PoolSys where
  pp : Pool
  held : List PoolItem
  waiting : List Bool
  failed : List Bool

def poolSysInit : PoolSys := ⟨poolInit, [], [], []⟩

inductive PoolStep where
  /-- `pool_get` up to the item, or to the call of `pool_p_alloc` -/
  | get
  /-- a call gets no page -/
  | noPage (k : Nat)
  /-- a call gets a page -/
  | newPage (k ph : Nat)
  | put (it : PoolItem) (idle : Bool)
  /-- the pages that `pool_prime` got -/
  | prime (phs : List Nat)
  | reclaim
  deriving DecidableEq

/-- The item at the end of `pool_do_get`. -/
def PoolSys.take (c : PoolConf) (s : PoolSys) (pp : Pool) : Option PoolSys :=
  (poolTake c pp).map fun r => { s with pp := r.2, held := r.1 :: s.held }

/-- One critical section. -/
def poolStep (c : PoolConf) (s : PoolSys) : PoolStep → Option PoolSys
  | .get =>
    if c.hardlimit ≤ s.pp.nout then some s
    else if s.pp.curpage = none then
      -- the mutex is left for `pool_p_alloc`
      some { s with
        pp := { s.pp with nout := s.pp.nout + 1 }
        waiting := s.waiting ++ [s.pp.depleted] }
    else s.take c { s.pp with nout := s.pp.nout + 1 }
  | .noPage k =>
    match s.waiting[k]? with
    | none => none
    | some looked =>
      some { s with
        pp := { s.pp with nout := s.pp.nout - 1 }
        waiting := s.waiting.eraseIdx k
        failed := looked :: s.failed }
  | .newPage k ph =>
    if k < s.waiting.length ∧ ¬ s.pp.Has ph then
      { s with waiting := s.waiting.eraseIdx k }.take c (poolPInsert c s.pp ph)
    else none
  | .put it idle =>
    if it ∈ s.held then some { s with pp := poolPut c s.pp it idle, held := s.held.erase it } else none
  | .prime phs =>
    if phs.Nodup ∧ ∀ ph ∈ phs, ¬ s.pp.Has ph then some { s with pp := phs.foldl (poolPInsert c) s.pp }
    else none
  | .reclaim => some { s with pp := poolReclaim c s.pp }

end OpenBsd.Kern
