/-
  OpenBsd.Net.Art

  The allotment routing tables of `sys/net/art.c`: tables with a heap of routes for a part
  of the address each, chained by their fringe.

  A function gives no result when it would read a table that is not allocated, take a
  pointer to a table for a node or fail a `KASSERT`.  The calls of `malloc` take their
  results from a list.
-/

import OpenBsd.Lib.Run
import Mathlib.Logic.Function.Basic
import Mathlib.Algebra.Group.Nat.Defs

namespace OpenBsd.Net

/-! ## Tables -/

/-- An item of `at_heap`: a route, if there is one, or a table. -/
inductive ArtItem (ν τ : Type) where
  | node (an : Option ν)
  | child (tbl : τ)
  deriving DecidableEq

/-- `struct art_table`; `refcnt` is the count at index 0 of the heap. -/
structure ArtTable (ν τ : Type) where
  parent : Option τ
  index : Int
  minfringe : Nat
  level : Nat
  bits : Nat
  offset : Nat
  refcnt : Int
  heap : Nat → ArtItem ν τ

/-- `struct art_root`: the first table, the strides and the length of addresses in bits. -/
structure ArtRoot (τ : Type) where
  root : τ
  bits : List Nat
  alen : Nat

/-- The allocated tables. -/
abbrev ArtMem (ν τ : Type) : Type := τ → Option (ArtTable ν τ)

variable {ν τ : Type}

/-- `.node` of an item; a pointer to a table is none. -/
def ArtItem.asNode : ArtItem ν τ → Option (Option ν)
  | .node an => some an
  | .child _ => none

/-- `at_default`. -/
def ArtTable.dflt (tbl : ArtTable ν τ) : ArtItem ν τ := tbl.heap 1

def ArtTable.setItem (tbl : ArtTable ν τ) (i : Nat) (e : ArtItem ν τ) : ArtTable ν τ :=
  { tbl with heap := Function.update tbl.heap i e }

/-- `at_heap[i] = e`. -/
def ArtMem.setItem [DecidableEq τ] (mem : ArtMem ν τ) (t : τ) (i : Nat) (e : ArtItem ν τ) :
    Option (ArtMem ν τ) := do
  let tbl ← mem t
  return Function.update mem t (some (tbl.setItem i e))

/-- The node that a lookup finds in a slot: that of a leaf, or the default of a subtable. -/
def ArtMem.slotNode (mem : ArtMem ν τ) (e : ArtItem ν τ) : Option (Option ν) :=
  match e with
  | .node an => some an
  | .child c => do (← mem c).dflt.asNode

/-! ## Indices -/

/-- The part of an address that a table covers, as a number. -/
def artKey (addr : Nat → BitVec 8) (boff bits bend : Nat) : Nat :=
  let a := fun i => (addr i).toNat
  if 24 < bend then
    (a 0 &&& ((1 <<< (8 - boff)) - 1)) <<< (bend - 8) ||| a 1 <<< (bend - 16)
      ||| a 2 <<< (bend - 24) ||| a 3 >>> (32 - bend)
  else if 16 < bend then
    (a 0 &&& ((1 <<< (8 - boff)) - 1)) <<< (bend - 8) ||| a 1 <<< (bend - 16)
      ||| a 2 >>> (24 - bend)
  else if 8 < bend then
    (a 0 &&& ((1 <<< (8 - boff)) - 1)) <<< (bend - 8) ||| a 1 >>> (16 - bend)
  else (a 0 >>> (8 - bend)) &&& ((1 <<< bits) - 1)

/-- `art_bindex`; the inner `none` is -1. -/
def artBindex (tbl : ArtTable ν τ) (addr : Nat → BitVec 8) (plen : Nat) : Option (Option Nat) :=
  if plen < tbl.offset ∨ tbl.offset + tbl.bits < plen then some none
  else
    let plen := plen - tbl.offset
    let boff := tbl.offset % 8
    let bend := tbl.bits + boff
    if 32 < bend then none
    else
      let k := artKey (fun i => addr (tbl.offset / 8 + i)) boff tbl.bits bend
      some (some (k >>> (tbl.bits - plen) + 1 <<< plen))

def artFindex (tbl : ArtTable ν τ) (addr : Nat → BitVec 8) : Option Nat := do
  ← artBindex tbl addr (tbl.offset + tbl.bits)

/-! ## Lookups -/

def artMaxlvl : Nat := 16

def artMatchLoop (mem : ArtMem ν τ) (addr : Nat → BitVec 8) :
    Nat → τ → Option ν → Option (Option ν)
  | 0, _, _ => none
  | fuel + 1, t, dflt => do
    let tbl ← mem t
    let dflt := (← tbl.dflt.asNode).or dflt
    let j ← artFindex tbl addr
    match tbl.heap j with
    | .child c => artMatchLoop mem addr fuel c dflt
    | .node an => return an.or dflt

def artMatch (ar : ArtRoot τ) (mem : ArtMem ν τ) (addr : Nat → BitVec 8) : Option (Option ν) :=
  artMatchLoop mem addr (artMaxlvl + 1) ar.root none

/-- The loop of `art_lookup` and `art_delete`: down to the table that has the length, if it
    is there. -/
def artDescend (mem : ArtMem ν τ) (addr : Nat → BitVec 8) (plen : Nat) :
    Nat → τ → Option (Option τ)
  | 0, _ => none
  | fuel + 1, t => do
    let tbl ← mem t
    if tbl.offset + tbl.bits < plen then
      match tbl.heap (← artFindex tbl addr) with
      | .node _ => return none
      | .child c => artDescend mem addr plen fuel c
    else return some t

def artLookup (ar : ArtRoot τ) (mem : ArtMem ν τ) (addr : Nat → BitVec 8) (plen : Nat) :
    Option (Option ν) := do
  guard (plen ≤ ar.alen)
  if plen = 0 then (← mem ar.root).dflt.asNode
  else
    match ← artDescend mem addr plen (artMaxlvl + 1) ar.root with
    | none => return none
    | some t =>
      let tbl ← mem t
      match ← artBindex tbl addr plen with
      | none => return none
      | some i => mem.slotNode (tbl.heap i)

/-! ## art_allot -/

section

variable [DecidableEq ν] [DecidableEq τ]

/-- The labels of `art_allot`; `fringe` is its `while (1)`. -/
inductive AllotLabel where
  | again | fringe | nonfringe | moveon | moveup

def artAllotFringe (mem : ArtMem ν τ) (t : τ) (k : Nat) (old new : Option ν) :
    Option (ArtMem ν τ) := do
  match (← mem t).heap k with
  | .child c => if (← mem c).dflt = .node old then mem.setItem c 1 (.node new) else return mem
  | .node an => if an = old then mem.setItem t k (.node new) else return mem

def artAllotLoop (t : τ) (i : Nat) (old new : Option ν) :
    Nat → AllotLabel → Nat → ArtMem ν τ → Option (ArtMem ν τ)
  | 0, _, _, _ => none
  | fuel + 1, .again, k, mem => do
    if 2 * k < (← mem t).minfringe then artAllotLoop t i old new fuel .nonfringe (2 * k) mem
    else artAllotLoop t i old new fuel .fringe (2 * k) mem
  | fuel + 1, .fringe, k, mem => do
    let mem ← artAllotFringe mem t k old new
    if k % 2 = 1 then artAllotLoop t i old new fuel .moveup k mem
    else artAllotLoop t i old new fuel .fringe (k + 1) mem
  | fuel + 1, .nonfringe, k, mem => do
    if (← mem t).heap k = .node old then artAllotLoop t i old new fuel .again k mem
    else artAllotLoop t i old new fuel .moveon k mem
  | fuel + 1, .moveon, k, mem =>
    if k % 2 = 1 then artAllotLoop t i old new fuel .moveup k mem
    else artAllotLoop t i old new fuel .nonfringe (k + 1) mem
  | fuel + 1, .moveup, k, mem => do
    let mem ← mem.setItem t (k / 2) (.node new)
    if k / 2 ≠ i then artAllotLoop t i old new fuel .moveon (k / 2) mem else return mem

/-- `art_allot`; a slot takes at most six steps. -/
def artAllot (mem : ArtMem ν τ) (t : τ) (i : Nat) (old new : Option ν) :
    Option (ArtMem ν τ) := do
  let minfringe := (← mem t).minfringe
  guard (i < minfringe)
  artAllotLoop t i old new (6 * minfringe) .again i mem

/-! ## Tables come and go -/

def artTableRef (mem : ArtMem ν τ) (t : τ) : Option (ArtMem ν τ) := do
  let tbl ← mem t
  return Function.update mem t (some { tbl with refcnt := tbl.refcnt + 1 })

/-- `art_table_get`; `new` is the result of `malloc`. -/
def artTableGet (strides : List Nat) (mem : ArtMem ν τ) (parent : Option τ) (j : Int)
    (new : Option τ) : Option (ArtMem ν τ × Option τ) := do
  guard (j ≠ 0 ∧ j ≠ 1)
  guard (parent ≠ none ∨ j = -1)
  let lvl ← match parent with
    | some p => do pure ((← mem p).level + 1)
    | none => pure 0
  let bits ← strides[lvl]?
  match new with
  | none => return (mem, none)
  | some t => do
    -- the allocator does not hand out what is in use
    guard (mem t).isNone
    let tbl : ArtTable ν τ :=
      { parent := parent, index := j, minfringe := 2 ^ bits, level := lvl, bits := bits
        offset := 0, refcnt := 0, heap := fun _ => .node none }
    let mem ← artTableRef (Function.update mem t (some tbl)) t
    match parent with
    | none => return (mem, some t)
    | some p => do
      let ptbl ← mem p
      let tbl ← mem t
      let dflt ← (ptbl.heap j.toNat).asNode
      return (Function.update mem t
        (some { tbl.setItem 1 (.node dflt) with offset := ptbl.offset + ptbl.bits }), some t)

/-- `struct art_table *at` is freed. -/
def ArtMem.free (mem : ArtMem ν τ) (t : τ) : ArtMem ν τ := Function.update mem t none

mutual

def artTableFree : Nat → ArtMem ν τ → τ → Option (ArtMem ν τ × Bool)
  | 0, _, _ => none
  | fuel + 1, mem, t => do
    let tbl ← mem t
    let mem := Function.update mem t (some { tbl with refcnt := tbl.refcnt - 1 })
    if tbl.refcnt - 1 = 0 then do
      let mem ← artCollect fuel mem t
      return (mem, true)
    else return (mem, false)

/-- The loop of `art_table_free`. -/
def artCollect : Nat → ArtMem ν τ → τ → Option (ArtMem ν τ)
  | 0, _, _ => none
  | fuel + 1, mem, t => do
    let (mem, p) ← artTablePut fuel mem t
    if (← mem p).refcnt = 0 then artCollect fuel mem p else return mem

def artTablePut : Nat → ArtMem ν τ → τ → Option (ArtMem ν τ × τ)
  | 0, _, _ => none
  | fuel + 1, mem, t => do
    let tbl ← mem t
    guard (tbl.index ≠ 0 ∧ tbl.index ≠ 1)
    let p ← tbl.parent
    guard (tbl.level = (← mem p).level + 1)
    let mem ← mem.setItem p tbl.index.toNat tbl.dflt
    let (mem, _) ← artTableFree fuel mem p
    return (mem.free t, p)

end

/-- Enough nested calls of `art_table_free`, `art_table_put` and its loop for
    `ART_MAXLVL` levels. -/
def artFreeFuel : Nat := 4 * artMaxlvl

/-! ## Insertion and deletion -/

/-- `art_check_duplicate`; `plen` is `an_plen` of the nodes. -/
def artCheckDuplicate (plen : ν → Nat) (old : Option ν) (new : ν) : Bool :=
  match old with
  | none => false
  | some old => plen old == plen new

def artTableInsert (plen : ν → Nat) (mem : ArtMem ν τ) (t : τ) (i : Nat) (an : ν) :
    Option (ArtMem ν τ × Option ν) := do
  let prev ← mem.slotNode ((← mem t).heap i)
  if artCheckDuplicate plen prev an then return (mem, prev)
  else do
    let mem ← artTableRef mem t
    let tbl ← mem t
    if i < tbl.minfringe then return (← artAllot mem t i prev (some an), some an)
    else
      match tbl.heap i with
      | .child c => return (← mem.setItem c 1 (.node (some an)), some an)
      | .node _ => return (← mem.setItem t i (.node (some an)), some an)

/-- The loop of `art_insert`: down to the table that has the length, with the tables on the
    way, unless `malloc` fails. -/
def artGrow (ar : ArtRoot τ) (addr : Nat → BitVec 8) (plen : Nat) :
    Nat → List (Option τ) → ArtMem ν τ → τ → Option (ArtMem ν τ × Option τ)
  | 0, _, _, _ => none
  | fuel + 1, news, mem, t => do
    let tbl ← mem t
    if tbl.offset + tbl.bits < plen then do
      let j ← artFindex tbl addr
      match tbl.heap j with
      | .child c => artGrow ar addr plen fuel news mem c
      | .node _ => do
        match ← artTableGet ar.bits mem (some t) j (news.head?.join) with
        | (mem, none) => return (mem, none)
        | (mem, some c) => do
          let mem ← mem.setItem t j (.child c)
          artGrow ar addr plen fuel news.tail mem c
    else return (mem, some t)

/-- `art_insert`; `news` are the results of `malloc`. -/
def artInsert (ar : ArtRoot τ) (plenOf : ν → Nat) (mem : ArtMem ν τ) (news : List (Option τ))
    (an : ν) (addr : Nat → BitVec 8) (plen : Nat) : Option (ArtMem ν τ × Option ν) := do
  guard (plen ≤ ar.alen)
  if plen = 0 then
    let dflt ← (← mem ar.root).dflt.asNode
    if artCheckDuplicate plenOf dflt an then return (mem, dflt)
    else return (← mem.setItem ar.root 1 (.node (some an)), some an)
  else
    match ← artGrow ar addr plen (artMaxlvl + 1) news mem ar.root with
    | (mem, none) => return (mem, none)
    | (mem, some t) =>
      match ← artBindex (← mem t) addr plen with
      | none => return (mem, none)
      | some i => artTableInsert plenOf mem t i an

/-- The next most specific route for an index, apart from the default one. -/
def ArtTable.nextRoute (tbl : ArtTable ν τ) (i : Nat) : Option (Option ν) :=
  if 1 < i / 2 then (tbl.heap (i / 2)).asNode else some none

def artTableDelete (mem : ArtMem ν τ) (t : τ) (i : Nat) (node : ν) :
    Option (ArtMem ν τ × Option ν) := do
  guard ((← mem.slotNode ((← mem t).heap i)) = some node)
  let (mem, freed) ← artTableFree artFreeFuel mem t
  if freed then return (mem, some node)
  else do
    let tbl ← mem t
    let next ← tbl.nextRoute i
    if i < tbl.minfringe then return (← artAllot mem t i (some node) next, some node)
    else
      match tbl.heap i with
      | .child c => return (← mem.setItem c 1 (.node next), some node)
      | .node _ => return (← mem.setItem t i (.node next), some node)

def artDelete (ar : ArtRoot τ) (plenOf : ν → Nat) (mem : ArtMem ν τ) (an : ν)
    (addr : Nat → BitVec 8) (plen : Nat) : Option (ArtMem ν τ × Option ν) := do
  guard (plen ≤ ar.alen)
  if plen = 0 then
    let dflt ← (← mem ar.root).dflt.asNode
    if artCheckDuplicate plenOf dflt an then
      return (← mem.setItem ar.root 1 (.node none), dflt)
    else return (mem, none)
  else
    match ← artDescend mem addr plen (artMaxlvl + 1) ar.root with
    | none => return (mem, none)
    | some t =>
      match ← artBindex (← mem t) addr plen with
      | none => return (mem, none)
      | some i => artTableDelete mem t i an

/-- The layout that `art_attach` chooses by the offset of the address in bits: the strides
    and the length of addresses. -/
def artLayout : Nat → Option (List Nat × Nat)
  | 32 => some ([16, 8, 8], 32)
  | 64 => some (List.replicate 16 8, 128)
  | _ => none

/-- `art_attach` of a family without a table; `new` is the result of `malloc` for the first
    table. -/
def artAttach (off : Nat) (new : Option τ) : Option (ArtRoot τ × ArtMem ν τ) := do
  let (bits, alen) ← artLayout off
  let (mem, root) ← artTableGet bits (fun _ => none) none (-1) new
  return (⟨← root, bits, alen⟩, mem)

/-! ## Walks -/

/-- The callback of a walk, which gets an argument and returns an error. -/
abbrev ArtCallback (ν σ : Type) : Type := ν → σ → Int × σ

section

variable {σ : Type}

/-- `if (an != NULL && an != next) error = f(an, arg)`. -/
def artVisit (f : ArtCallback ν σ) (next an : ArtItem ν τ) (arg : σ) : Option (Int × σ) :=
  match an with
  | .child _ => none
  | .node none => some (0, arg)
  | .node (some a) => some (if next = an then (0, arg) else f a arg)

/-- Visits until one of them returns an error. -/
def artEach (visit : Nat → σ → Option (Int × σ)) : List Nat → σ → Option (Int × σ)
  | [], arg => some (0, arg)
  | i :: is, arg => do
    let (error, arg) ← visit i arg
    if error ≠ 0 then return (error, arg) else artEach visit is arg

/-- `for (; i < at_minfringe; i <<= 1)`. -/
def artDoubling (minfringe : Nat) : Nat → Nat → List Nat
  | 0, _ => []
  | fuel + 1, i => if i < minfringe then i :: artDoubling minfringe fuel (2 * i) else []

/-- The order of the non-fringe nodes. -/
def artOrder (minfringe : Nat) : Nat → Nat → List Nat
  | 0, _ => []
  | fuel + 1, j =>
    if j < minfringe then
      artDoubling minfringe minfringe (max j 2) ++ artOrder minfringe fuel (j + 2)
    else []

def artTableWalk (mem : ArtMem ν τ) (f : ArtCallback ν σ) : Nat → τ → σ → Option (Int × σ)
  | 0, _, _ => none
  | fuel + 1, t, arg => do
    let tbl ← mem t
    let (error, arg) ← artEach (fun i arg => artVisit f (tbl.heap (i / 2)) (tbl.heap i) arg)
      (artOrder tbl.minfringe tbl.minfringe 1) arg
    if error ≠ 0 then return (error, arg)
    else
      artEach (fun i arg => do
          match tbl.heap i with
          | .node an => artVisit f (tbl.heap (i / 2)) (.node an) arg
          | .child c => do
            let (error, arg) ← artVisit f (tbl.heap (i / 2)) (← mem c).dflt arg
            if error ≠ 0 then return (error, arg) else artTableWalk mem f fuel c arg)
        (List.range' tbl.minfringe tbl.minfringe) arg

def artWalk (ar : ArtRoot τ) (mem : ArtMem ν τ) (f : ArtCallback ν σ) (arg : σ) :
    Option (Int × σ) := do
  match ← (← mem ar.root).dflt.asNode with
  | none => artTableWalk mem f artMaxlvl ar.root arg
  | some an =>
    let (error, arg) := f an arg
    if error ≠ 0 then return (error, arg) else artTableWalk mem f artMaxlvl ar.root arg

end

/-! ## Runs -/

/-- A bit of an address, the first one being 0. -/
def addrBit (addr : Nat → BitVec 8) (n : Nat) : Bool := (addr (n / 8)).getLsbD (7 - n % 8)

/-- The first bits of an address, the last one first. -/
def addrPrefix (addr : Nat → BitVec 8) : Nat → List Bool
  | 0 => []
  | n + 1 => addrBit addr n :: addrPrefix addr n

/-- The tables, `an_plen` of the nodes and the routes: each prefix with its node. -/
structure ArtState (ν τ : Type) where
  ar : ArtRoot τ
  mem : ArtMem ν τ
  plenOf : ν → Nat
  routes : List (List Bool × ν)

/-- A call, with the results of `malloc`. -/
inductive ArtCall (ν τ : Type) where
  | insert (an : ν) (addr : Nat → BitVec 8) (plen : Nat) (news : List (Option τ))
  | delete (an : ν) (addr : Nat → BitVec 8) (plen : Nat)

/-- `malloc` hands out memory that is not in use. -/
def FreshNews (mem : ArtMem ν τ) (news : List (Option τ)) : Prop :=
  (news.filterMap id).Nodup ∧ ∀ t ∈ news.filterMap id, (mem t).isNone

instance (mem : ArtMem ν τ) (news : List (Option τ)) : Decidable (FreshNews mem news) :=
  inferInstanceAs (Decidable (_ ∧ _))

/-- A node that is not in the table is filled in for a prefix and inserted; or the node of a
    prefix is deleted. -/
def artStep (s : ArtState ν τ) : ArtCall ν τ → Option (ArtState ν τ)
  | .insert an addr plen news => do
    guard (plen ≤ s.ar.alen ∧ an ∉ s.routes.map Prod.snd ∧ FreshNews s.mem news)
    let plenOf := Function.update s.plenOf an plen
    let (mem, prev) ← artInsert s.ar plenOf s.mem news an addr plen
    return { s with
      mem := mem
      plenOf := plenOf
      routes := if prev = some an then (addrPrefix addr plen, an) :: s.routes else s.routes }
  | .delete an addr plen => do
    guard (plen ≤ s.ar.alen ∧ (addrPrefix addr plen, an) ∈ s.routes)
    let (mem, _) ← artDelete s.ar s.plenOf s.mem an addr plen
    return { s with
      mem := mem
      routes := s.routes.filter fun e => e.1 ≠ addrPrefix addr plen }

/-- The state after `art_attach`. -/
def artInit (plenOf : ν → Nat) (ar : ArtRoot τ) (mem : ArtMem ν τ) : ArtState ν τ :=
  ⟨ar, mem, plenOf, []⟩

end

end OpenBsd.Net
