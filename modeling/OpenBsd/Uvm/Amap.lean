/-
  OpenBsd.Uvm.Amap

  The per-page reference counts of amaps in `sys/uvm/uvm_amap.c`: the array `am_ppref`
  with its chunks, `amap_pp_establish` and `amap_pp_adjref`, and the operations that count
  references with them.

  The array is a function of the index, and sizes are in slots.  The anons of the amap are
  left out: a call of `amap_wiperange` is its range, and the flags are not kept.  A loop
  over chunks has as many rounds as it has slots to pass, and `spin` stands for one that
  needs more.
-/

import Mathlib.Data.List.Basic
import Mathlib.Tactic.Ring

namespace OpenBsd.Uvm

/-! ## Chunks -/

def setSlot (pp : Nat → Int) (i : Nat) (v : Int) : Nat → Int := fun j => if j = i then v else pp j

def ppGetreflen (ppref : Nat → Int) (offset : Nat) : Int × Nat :=
  if ppref offset > 0 then (ppref offset - 1, 1)
  else (ppref offset * -1 - 1, (ppref (offset + 1)).toNat)

def ppSetreflen (ppref : Nat → Int) (offset : Nat) (ref : Int) (len : Nat) : Nat → Int :=
  if len = 1 then setSlot ppref offset (ref + 1)
  else setSlot (setSlot ppref offset ((ref + 1) * -1)) (offset + 1) len

/-- The counts of the slots from `lcv` to before `stop`. -/
def ppDecode (ppref : Nat → Int) (stop : Nat) : Nat → Nat → List Int
  | 0, _ => []
  | fuel + 1, lcv =>
    if lcv < stop then
      let (ref, len) := ppGetreflen ppref lcv
      List.replicate len ref ++ ppDecode ppref stop fuel (lcv + len)
    else []

/-! ## Adjusting counts -/

/-- The panics of the reference counts. -/
inductive AmapPanic where
  | overshotTarget
  | negativeReferenceCount
  | splitAtZeroOffset
  | mapSizeCheckFailed
  | spin
  deriving DecidableEq

/-- The first loop of `amap_pp_adjref`: on to `curslot`, where a chunk is split. -/
def ppSeek (curslot : Nat) :
    Nat → (Nat → Int) → Nat → Nat → Except AmapPanic ((Nat → Int) × Nat × Nat)
  | fuel, ppref, lcv, prevlcv =>
    if lcv < curslot then
      match fuel with
      | 0 => .error .spin
      | fuel + 1 =>
        let (ref, len) := ppGetreflen ppref lcv
        if lcv + len > curslot then
          let ppref := ppSetreflen ppref lcv ref (curslot - lcv)
          let ppref := ppSetreflen ppref curslot ref (len - (curslot - lcv))
          ppSeek curslot fuel ppref (lcv + (curslot - lcv)) lcv
        else ppSeek curslot fuel ppref (lcv + len) lcv
    else .ok (ppref, lcv, prevlcv)

/-- The chunk before the range, as `prevref` and `prevlen`; there is none at the beginning. -/
def ppPrev (ppref : Nat → Int) (lcv prevlcv : Nat) : Int × Nat :=
  if lcv ≠ 0 then ppGetreflen ppref prevlcv else (-1, 0)

/-- The second loop of `amap_pp_adjref`, with the ranges wiped so far. -/
def ppAdjust (stopslot : Nat) (adjval : Int) (prevlcv : Nat) (prev : Int × Nat) :
    Nat → (Nat → Int) → Nat → List (Nat × Nat) →
      Except AmapPanic ((Nat → Int) × List (Nat × Nat))
  | fuel, ppref, lcv, wiped =>
    if lcv < stopslot then
      match fuel with
      | 0 => .error .spin
      | fuel + 1 =>
        let (ref, len) := ppGetreflen ppref lcv
        let (ppref, len) :=
          if lcv + len > stopslot then
            let ppref := ppSetreflen ppref lcv ref (stopslot - lcv)
            (ppSetreflen ppref stopslot ref (len - (stopslot - lcv)), stopslot - lcv)
          else (ppref, len)
        let ref := ref + adjval
        if ref < 0 then .error .negativeReferenceCount
        else
          let ppref :=
            if lcv = prevlcv + prev.2 ∧ ref = prev.1 then
              ppSetreflen ppref prevlcv ref (prev.2 + len)
            else ppSetreflen ppref lcv ref len
          let wiped := if ref = 0 then wiped ++ [(lcv, len)] else wiped
          ppAdjust stopslot adjval prevlcv prev fuel ppref (lcv + len) wiped
    else .ok (ppref, wiped)

/-- `amap_pp_adjref`, with the ranges given to `amap_wiperange`. -/
def amapPpAdjref (ppref : Nat → Int) (curslot slotlen : Nat) (adjval : Int) :
    Except AmapPanic ((Nat → Int) × List (Nat × Nat)) :=
  match ppSeek curslot curslot ppref 0 0 with
  | .error e => .error e
  | .ok (ppref, lcv, prevlcv) =>
    if lcv ≠ curslot then .error .overshotTarget
    else
      ppAdjust (curslot + slotlen) adjval prevlcv (ppPrev ppref lcv prevlcv) slotlen ppref lcv []

/-! ## Amaps -/

/-- `am_ppref`: `NULL`, `PPREF_NONE` or an array. -/
inductive Ppref where
  | null
  | none
  | array (ppref : Nat → Int)

def Ppref.isNull : Ppref → Bool
  | .null => true
  | _ => false

/-- The fields of `struct vm_amap` that count. -/
structure Amap where
  amRef : Int
  nslot : Nat
  maxslot : Nat
  ppref : Ppref

/-- `amap_alloc`; `maxslot` is what `malloc_roundup` makes of the slots with their padding. -/
def amapAlloc (slots maxslot : Nat) : Amap :=
  { amRef := 1, nslot := slots, maxslot := maxslot, ppref := .null }

/-- `amap_pp_establish`, with or without memory for the array. -/
def amapPpEstablish (a : Amap) (mem : Bool) : Amap :=
  if mem then { a with ppref := .array (ppSetreflen (fun _ => 0) 0 a.amRef a.nslot) }
  else { a with ppref := .none }

/-- `amap_pp_adjref` when there is an array. -/
def adjustAmap (a : Amap) (curslot slotlen : Nat) (adjval : Int) :
    Except AmapPanic (Amap × List (Nat × Nat)) :=
  match a.ppref with
  | .array pp =>
    match amapPpAdjref pp curslot slotlen adjval with
    | .error e => .error e
    | .ok (pp, wiped) => .ok ({ a with ppref := .array pp }, wiped)
  | _ => .ok (a, [])

def amapRef (a : Amap) (offset len : Nat) (all mem : Bool) :
    Except AmapPanic (Amap × List (Nat × Nat)) :=
  let a := { a with amRef := a.amRef + 1 }
  let a := if a.ppref.isNull ∧ all = false ∧ len ≠ a.nslot then amapPpEstablish a mem else a
  if all then adjustAmap a 0 a.nslot 1 else adjustAmap a offset len 1

/-- `amap_unref`; with the last reference the amap is gone. -/
def amapUnref (a : Amap) (offset len : Nat) (all mem : Bool) :
    Except AmapPanic (Amap × List (Nat × Nat)) :=
  if a.amRef = 1 then .ok ({ a with amRef := 0, ppref := .null }, [])
  else
    let a := { a with amRef := a.amRef - 1 }
    let a := if a.ppref.isNull ∧ all = false ∧ len ≠ a.nslot then amapPpEstablish a mem else a
    if all then adjustAmap a 0 a.nslot (-1) else adjustAmap a offset len (-1)

def amapSplitref (a : Amap) (pageoff leftslots : Nat) (mem : Bool) : Except AmapPanic Amap :=
  if leftslots = 0 then .error .splitAtZeroOffset
  else if (a.nslot : Int) - pageoff - leftslots ≤ 0 then .error .mapSizeCheckFailed
  else
    let a := if a.ppref.isNull then amapPpEstablish a mem else a
    .ok { a with amRef := a.amRef + 1 }

/-- `amap_copy` of an entry; the result says whether it left this amap. -/
def amapCopy (a : Amap) (pageoff len : Nat) (mem : Bool) :
    Except AmapPanic (Amap × List (Nat × Nat) × Bool) :=
  if a.amRef = 1 ∨ mem = false then .ok (a, [], false)
  else
    match adjustAmap { a with amRef := a.amRef - 1 } pageoff len (-1) with
    | .error e => .error e
    | .ok (a, wiped) => .ok (a, wiped, true)

def uvmAmapLarge : Nat := 256

/-- The counts of the slots that are added at the end of an amap: the entry gets those
    behind it, and the new ones have one reference. -/
def extendPpref (pp : Nat → Int) (nslot mapped slotneed : Nat) :
    Except AmapPanic ((Nat → Int) × List (Nat × Nat)) :=
  if mapped < nslot then
    match amapPpAdjref pp mapped (nslot - mapped) 1 with
    | .error e => .error e
    | .ok (pp, wiped) => .ok (ppSetreflen pp nslot 1 (slotneed - nslot), wiped)
  else .ok (ppSetreflen pp nslot 1 (slotneed - nslot), [])

/-- `amap_extend` of an entry: the amap, the ranges wiped, and whether the entry was
    extended.  `slotalloc` is what `malloc_roundup` makes of the slots needed, and the last
    two arguments say whether there is memory for the array and for the slots. -/
def amapExtend (a : Amap) (slotoff slotmapped slotadd slotalloc : Nat) (ppMem slMem : Bool) :
    Except AmapPanic (Amap × List (Nat × Nat) × Bool) :=
  let slotneed := slotoff + slotmapped + slotadd
  if a.nslot ≥ slotneed then
    match adjustAmap a (slotoff + slotmapped) slotadd 1 with
    | .error e => .error e
    | .ok (a, wiped) => .ok (a, wiped, true)
  else if a.maxslot ≥ slotneed then
    match a.ppref with
    | .array pp =>
      match extendPpref pp a.nslot (slotoff + slotmapped) slotneed with
      | .error e => .error e
      | .ok (pp, wiped) => .ok ({ a with nslot := slotneed, ppref := .array pp }, wiped, true)
    | _ => .ok ({ a with nslot := slotneed }, [], true)
  else if slotneed ≥ uvmAmapLarge then .ok (a, [], false)
  else
    match a.ppref with
    | .array pp =>
      if ppMem = false then
        if slMem = false then .ok ({ a with ppref := .none }, [], false)
        else .ok ({ a with nslot := slotneed, maxslot := slotalloc, ppref := .none }, [], true)
      else if slMem = false then .ok (a, [], false)
      else
        let newppref := fun i => if i < a.nslot then pp i else 0
        match extendPpref newppref a.nslot (slotoff + slotmapped) slotneed with
        | .error e => .error e
        | .ok (pp, wiped) =>
          .ok ({ a with nslot := slotneed, maxslot := slotalloc, ppref := .array pp }, wiped, true)
    | _ =>
      if slMem = false then .ok (a, [], false)
      else .ok ({ a with nslot := slotneed, maxslot := slotalloc }, [], true)

/-! ## Runs -/

/-- A reference of a map entry: the slots it covers. -/
structure Aref where
  pageoff : Nat
  len : Nat
  deriving DecidableEq

structure AmapSys where
  amap : Amap
  refs : List Aref

/-- What is done with the amap, and whether there is memory. -/
inductive AmapOp where
  | ref (offset len : Nat) (all mem : Bool)
  | unref (r : Aref) (all mem : Bool)
  | splitref (r : Aref) (leftslots : Nat) (mem : Bool)
  | copy (r : Aref) (mem : Bool)
  | extend (r : Aref) (slotadd slotalloc : Nat) (ppMem slMem : Bool)

/-- What the callers promise: references are to slots of the amap, a reference that is
    dropped, split or copied is held, and only an amap with one reference is extended. -/
def AmapOp.ready (s : AmapSys) : AmapOp → Prop
  | .ref offset len all _ => s.refs ≠ [] ∧ (all = false → offset + len ≤ s.amap.nslot)
  | .unref r all _ => r ∈ s.refs ∧ (all = true → r = ⟨0, s.amap.nslot⟩)
  | .splitref r leftslots _ => r ∈ s.refs ∧ 0 < leftslots ∧ leftslots < r.len
  | .copy r _ => r ∈ s.refs
  | .extend r slotadd slotalloc _ _ =>
    r ∈ s.refs ∧ s.amap.amRef = 1 ∧ r.pageoff + r.len + slotadd ≤ slotalloc

/-- One operation, with the ranges that were wiped. -/
def amapStep (s : AmapSys) : AmapOp → Except AmapPanic (AmapSys × List (Nat × Nat))
  | .ref offset len all mem =>
    match amapRef s.amap offset len all mem with
    | .error e => .error e
    | .ok (a, wiped) =>
      .ok (⟨a, (if all then ⟨0, s.amap.nslot⟩ else ⟨offset, len⟩) :: s.refs⟩, wiped)
  | .unref r all mem =>
    match amapUnref s.amap r.pageoff r.len all mem with
    | .error e => .error e
    | .ok (a, wiped) => .ok (⟨a, s.refs.erase r⟩, wiped)
  | .splitref r leftslots mem =>
    match amapSplitref s.amap r.pageoff leftslots mem with
    | .error e => .error e
    | .ok a =>
      .ok (⟨a, ⟨r.pageoff, leftslots⟩ :: ⟨r.pageoff + leftslots, r.len - leftslots⟩ ::
        s.refs.erase r⟩, [])
  | .copy r mem =>
    match amapCopy s.amap r.pageoff r.len mem with
    | .error e => .error e
    | .ok (a, wiped, moved) => .ok (⟨a, if moved then s.refs.erase r else s.refs⟩, wiped)
  | .extend r slotadd slotalloc ppMem slMem =>
    match amapExtend s.amap r.pageoff r.len slotadd slotalloc ppMem slMem with
    | .error e => .error e
    | .ok (a, wiped, extended) =>
      .ok (⟨a, if extended then ⟨r.pageoff, r.len + slotadd⟩ :: s.refs.erase r else s.refs⟩, wiped)

/-- The number of references that cover a slot. -/
def cover (refs : List Aref) (slot : Nat) : Nat :=
  refs.countP fun r => decide (r.pageoff ≤ slot ∧ slot < r.pageoff + r.len)

/-- The counts of the array are those of the references. -/
def Counted (s : AmapSys) : Prop :=
  ∀ pp, s.amap.ppref = .array pp →
    ppDecode pp s.amap.nslot s.amap.nslot 0 =
      (List.range s.amap.nslot).map fun slot => (cover s.refs slot : Int)

end OpenBsd.Uvm
