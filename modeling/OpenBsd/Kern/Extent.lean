/-
  OpenBsd.Kern.Extent

  The extent maps of `kern/subr_extent.c`: a sorted list of allocated regions of
  a 64-bit address range, and the calls that change it.

  A pointer `last` into the region list becomes a zipper: the regions up to and
  including `last` in reverse order, and the regions after it.  A call runs
  without interruption up to its return or to a `tsleep`; a thread asleep is part
  of the state (`Sleeper`).
-/

import Mathlib.Data.List.Basic
import Mathlib.Tactic.Ring

namespace OpenBsd.Kern

/-! ## Data -/

/-- `struct extent_region`, with the two bits of `er_flags`. -/
structure ExtentRegion where
  erStart : UInt64
  erEnd : UInt64
  erAlloc : Bool
  erDiscard : Bool
  deriving DecidableEq, Repr

/-- `struct extent` and the free list of `struct extent_fixed`. -/
structure Extent where
  exRegions : List ExtentRegion
  exStart : UInt64
  exEnd : UInt64
  exfFixed : Bool
  exfNocoalesce : Bool
  exfWanted : Bool
  exfFlwanted : Bool
  fexFreelist : List ExtentRegion
  deriving DecidableEq, Repr

/-- The flags passed to extent functions (`EX_WAITOK` and so on). -/
structure ExtentFlags where
  waitok : Bool := false
  fast : Bool := false
  catchSignals : Bool := false
  nocoalesce : Bool := false
  mallocok : Bool := false
  waitspace : Bool := false
  boundzero : Bool := false
  conflictok : Bool := false
  filled : Bool := false
  deriving DecidableEq, Repr

/-- The arguments of `extent_alloc_subregion`. -/
structure Subregion where
  substart : UInt64
  subend : UInt64
  size : UInt64
  alignment : UInt64
  skew : UInt64
  boundary : UInt64
  flags : ExtentFlags
  deriving DecidableEq, Repr

inductive ExtentCall where
  | allocRegion (start size : UInt64) (flags : ExtentFlags)
  | allocSubregion (req : Subregion)
  | free (start size : UInt64) (flags : ExtentFlags)
  deriving DecidableEq, Repr

inductive ExtentError where
  | enomem
  | eagain
  | eintr
  deriving DecidableEq, Repr

/-- A thread inside `tsleep`: on the free list, or on the extent with the region
    descriptor it already holds. -/
inductive Sleeper where
  | freelist (c : ExtentCall)
  | space (c : ExtentCall) (rp : ExtentRegion)
  deriving DecidableEq, Repr

/-- How a call leaves the processor. -/
inductive ExtentOutcome where
  | ret (ex : Extent) (error : Option ExtentError) (result : Option UInt64)
  | sleep (ex : Extent) (who : Sleeper)
  | panic
  deriving DecidableEq, Repr

/-! ## Region descriptors -/

inductive DescriptorResult where
  | got (ex : Extent) (rp : ExtentRegion)
  | null
  | sleep (ex : Extent)
  deriving DecidableEq, Repr

/-- `pool_get`, which can only fail without `EX_WAITOK`; `mem` says whether it
    has memory then.  The addresses in a new descriptor are garbage. -/
def poolGet (ex : Extent) (flags : ExtentFlags) (mem : Bool) : DescriptorResult :=
  if flags.waitok || mem then .got ex ⟨0, 0, true, false⟩ else .null

/-- `extent_alloc_region_descriptor` up to its return or its `tsleep`. -/
def extentAllocRegionDescriptor (ex : Extent) (flags : ExtentFlags) (mem : Bool) :
    DescriptorResult :=
  if ex.exfFixed then
    match ex.fexFreelist with
    | [] =>
      if flags.mallocok then poolGet ex flags mem
      else if !flags.waitok then .null
      else .sleep { ex with exfFlwanted := true }
    | rp :: free => .got { ex with fexFreelist := free } rp
  else poolGet ex flags mem

def extentFreeRegionDescriptor (ex : Extent) (rp : ExtentRegion) : Extent :=
  if rp.erDiscard then ex
  else if ex.exfFixed then
    if rp.erAlloc then
      if ex.exfFlwanted then
        { ex with
          fexFreelist := { rp with erAlloc := true, erDiscard := false } :: ex.fexFreelist
          exfFlwanted := false }
      else ex
    else
      { ex with
        fexFreelist := { rp with erAlloc := false, erDiscard := false } :: ex.fexFreelist
        exfFlwanted := false }
  else ex

/-! ## Creation -/

/-- `ALIGN(sizeof(struct extent_fixed))` -/
def sizeofExtentFixed : Nat := 80

/-- `ALIGN(sizeof(struct extent_region))` -/
def sizeofExtentRegion : Nat := 40

/-- `extent_create` for storage of the given size, or none.  The result is none
    where the function panics, and where it returns `NULL`. -/
def extentCreate (start stop : UInt64) (storage : Option Nat) (flags : ExtentFlags) (mem : Bool) :
    Option Extent :=
  if stop < start then none
  else if storage.any (· < sizeofExtentFixed) then none
  else if storage.isNone && !flags.waitok && !mem then none
  else
    let ex : Extent :=
      { exRegions := []
        exStart := start
        exEnd := stop
        exfFixed := storage.isSome
        exfNocoalesce := flags.nocoalesce
        exfWanted := false
        exfFlwanted := false
        fexFreelist := match storage with
          | none => []
          | some sz =>
            List.replicate ((sz - sizeofExtentFixed) / sizeofExtentRegion) ⟨0, 0, false, false⟩ }
    if flags.filled then
      match extentAllocRegionDescriptor ex flags mem with
      | .got ex rp => some { ex with exRegions := [{ rp with erStart := start, erEnd := stop }] }
      | .null => none
      | .sleep _ => none
    else some ex

/-! ## Insertion -/

/-- `extent_insert_and_optimize`; `pre` holds the regions up to `after` in reverse
    order and `rest` those behind it. -/
def extentInsertAndOptimize (ex : Extent) (start size : UInt64) (pre rest : List ExtentRegion)
    (rp : ExtentRegion) : Extent :=
  let new := { rp with erStart := start, erEnd := start + (size - 1) }
  match pre with
  | [] =>
    match rest with
    | [] => { ex with exRegions := [new] }
    | first :: tail =>
      if !ex.exfNocoalesce && start + size == first.erStart then
        extentFreeRegionDescriptor
          { ex with exRegions := { first with erStart := start } :: tail } rp
      else { ex with exRegions := new :: first :: tail }
  | after :: pre =>
    if ex.exfNocoalesce then { ex with exRegions := pre.reverse ++ after :: new :: rest }
    else
      let appended := after.erEnd + 1 == start
      let after := if appended then { after with erEnd := start + (size - 1) } else after
      match rest with
      | [] =>
        if appended then
          extentFreeRegionDescriptor { ex with exRegions := pre.reverse ++ [after] } rp
        else { ex with exRegions := pre.reverse ++ [after, new] }
      | next :: tail =>
        if start + size == next.erStart then
          if appended then
            -- the descriptor of the next region goes first, then the new one
            extentFreeRegionDescriptor
              (extentFreeRegionDescriptor
                { ex with
                  exRegions := pre.reverse ++ { after with erEnd := next.erEnd } :: tail } next)
              rp
          else
            extentFreeRegionDescriptor
              { ex with
                exRegions := pre.reverse ++ after :: { next with erStart := start } :: tail } rp
        else if appended then
          extentFreeRegionDescriptor { ex with exRegions := pre.reverse ++ after :: next :: tail } rp
        else { ex with exRegions := pre.reverse ++ after :: new :: next :: tail }

/-! ## Allocation of a given region -/

inductive RegionScan where
  | clear (pre rest : List ExtentRegion)
  | conflict (pre : List ExtentRegion) (rp : ExtentRegion) (rest : List ExtentRegion)

/-- The walk of `extent_alloc_region` over the region list. -/
def regionScan (start stop : UInt64) : (pre rest : List ExtentRegion) → RegionScan
  | pre, [] => .clear pre []
  | pre, rp :: rest =>
    if rp.erStart > stop then .clear pre (rp :: rest)
    else if rp.erEnd ≥ start then .conflict pre rp rest
    else regionScan start stop (rp :: pre) rest

theorem regionScan_conflict {start stop : UInt64} {pre rest pre' rest' : List ExtentRegion}
    {rp : ExtentRegion} (h : regionScan start stop pre rest = .conflict pre' rp rest') :
    pre.reverse ++ rest = pre'.reverse ++ rp :: rest' ∧ rp.erStart ≤ stop ∧ start ≤ rp.erEnd := by
  induction rest generalizing pre with
  | nil => cases h
  | cons r rest ih =>
    rw [regionScan] at h
    split at h
    · cases h
    · rename_i hstop
      split at h
      · rename_i hend
        cases h
        exact ⟨rfl, UInt64.not_lt.mp hstop, hend⟩
      · have := ih h
        simpa using this

def extentAllocRegionFrom (ex : Extent) (flags : ExtentFlags) (myrp : ExtentRegion)
    (start size stop : UInt64) (c : ExtentCall) : ExtentOutcome :=
  match h : regionScan start stop [] ex.exRegions with
  | .clear pre rest => .ret (extentInsertAndOptimize ex start size pre rest myrp) none none
  | .conflict pre rp rest =>
    if flags.waitspace then .sleep { ex with exfWanted := true } (.space c myrp)
    else if flags.conflictok then
      if rp.erStart ≤ start then
        if rp.erEnd < ex.exEnd then
          extentAllocRegionFrom ex flags myrp (rp.erEnd + 1) (stop - (rp.erEnd + 1) + 1) stop c
        else .ret ex none none
      else if rp.erEnd < stop then
        extentAllocRegionFrom
          { extentFreeRegionDescriptor ex rp with exRegions := pre.reverse ++ rest }
          flags myrp start size stop c
      else if rp.erStart < stop then
        if rp.erStart > ex.exStart then
          extentAllocRegionFrom ex flags myrp start (rp.erStart - 1 - start + 1) (rp.erStart - 1) c
        else .ret ex none none
      else .ret ex none none
    else .ret (extentFreeRegionDescriptor ex myrp) (some .eagain) none
termination_by (2 ^ 64 - start.toNat) + ex.exRegions.length + stop.toNat
decreasing_by
  all_goals obtain ⟨hsplit, hstop, hstart⟩ := regionScan_conflict h
  · -- the request now starts behind the conflicting region
    have hlt : rp.erEnd.toNat < ex.exEnd.toNat := UInt64.lt_iff_toNat_lt.mp ‹_›
    have hle : start.toNat ≤ rp.erEnd.toNat := UInt64.le_iff_toNat_le.mp hstart
    have hend := ex.exEnd.toNat_lt
    rw [UInt64.toNat_add, UInt64.toNat_one, Nat.mod_eq_of_lt (by omega)]
    omega
  · have hlen := congrArg List.length hsplit
    simp only [List.reverse_nil, List.nil_append, List.length_append, List.length_cons] at hlen ⊢
    omega
  · -- the request now ends before the conflicting region
    have hlt : ex.exStart.toNat < rp.erStart.toNat := UInt64.lt_iff_toNat_lt.mp ‹_›
    have hle : rp.erStart.toNat ≤ stop.toNat := UInt64.le_iff_toNat_le.mp hstop
    have hone : (1 : UInt64) ≤ rp.erStart := UInt64.le_iff_toNat_le.mpr (by
      rw [UInt64.toNat_one]
      omega)
    rw [UInt64.toNat_sub_of_le _ _ hone, UInt64.toNat_one]
    omega

/-! ## Search for a place -/

def extentAlign (start align skew : UInt64) : UInt64 :=
  (((start - skew) + (align - 1)) &&& (-align)) + skew

/-- `LE_OV`: `x + y ≤ z`, false on overflow. -/
def leOv (x y z : UInt64) : Bool := x + y ≥ x && x + y ≤ z

/-- The last address before the next boundary behind `newstart`. -/
def dontcross (ex : Extent) (req : Subregion) (newstart : UInt64) : UInt64 :=
  extentAlign (newstart + 1) req.boundary (if req.flags.boundzero then 0 else ex.exStart) - 1

inductive BoundaryCheck where
  | fits (newstart : UInt64)
  | crosses
  | fail

/-- The last test of the boundary check: past the end of the extent, or the boundary
    overflowed. -/
def boundaryRoom (ex : Extent) (req : Subregion) (newstart dontcross : UInt64) : BoundaryCheck :=
  if newstart + req.size - 1 > ex.exEnd || dontcross < newstart then .fail
  else .fits newstart

/-- The boundary check of a candidate.  Both places of `extent_do_alloc` that make
    it differ in the test `fit` of the moved candidate and in the label they go to
    when that test fails. -/
def boundaryCheck (ex : Extent) (req : Subregion) (fit : UInt64 → Bool) (newstart : UInt64) :
    BoundaryCheck :=
  if req.boundary == 0 then .fits newstart
  else if dontcross ex req newstart < ex.exStart then
    -- the next boundary overflowed
    boundaryRoom ex req newstart ex.exEnd
  else if newstart + (req.size - 1) > dontcross ex req newstart then
    if !fit (dontcross ex req newstart + 1) then .crosses
    else
      boundaryRoom ex req (dontcross ex req newstart + 1)
        (dontcross ex req newstart + req.boundary)
  else boundaryRoom ex req newstart (dontcross ex req newstart)

/-- A place for the request: its start and the regions on both sides of it. -/
structure Place where
  newstart : UInt64
  pre : List ExtentRegion
  rest : List ExtentRegion

/-- The best place so far; `bestovh = 0` stands for none. -/
structure BestPlace where
  bestovh : UInt64
  place : Place

/-- The label `fail` of `extent_do_alloc`, up to the question whether to wait. -/
def failOrBest (req : Subregion) (best : BestPlace) : Option Place :=
  if !req.flags.fast && best.bestovh != 0 then some best.place else none

/-- `best` after a candidate with overhead `ovh`. -/
def BestPlace.consider (best : BestPlace) (ovh : UInt64) (p : Place) : BestPlace :=
  if best.bestovh == 0 || ovh < best.bestovh then ⟨ovh, p⟩ else best

/-- The check from the current starting point to the end of the subregion. -/
def finalCheck (ex : Extent) (req : Subregion) (exend newstart : UInt64)
    (pre rest : List ExtentRegion) (best : BestPlace) : Option Place :=
  let fit (s : UInt64) : Bool := leOv s (req.size - 1) req.subend
  if fit newstart then
    match boundaryCheck ex req fit newstart with
    | .crosses => failOrBest req best
    | .fail => failOrBest req best
    | .fits newstart =>
      let ovh := exend - newstart - (req.size - 1)
      if req.flags.fast || ovh == 0 then some ⟨newstart, pre, rest⟩
      else failOrBest req (best.consider ovh ⟨newstart, pre, rest⟩)
  else failOrBest req best

inductive ChunkCheck where
  | found (p : Place)
  | fail
  | next (best : BestPlace)

def chunkCheck (ex : Extent) (req : Subregion) (newstart : UInt64) (pre : List ExtentRegion)
    (rp : ExtentRegion) (rest : List ExtentRegion) (best : BestPlace) : ChunkCheck :=
  let fit (s : UInt64) : Bool := leOv s req.size rp.erStart
  if fit newstart then
    match boundaryCheck ex req fit newstart with
    | .crosses => .next best
    | .fail => .fail
    | .fits newstart =>
      let ovh := rp.erStart - newstart - req.size
      if req.flags.fast || ovh == 0 then .found ⟨newstart, pre, rp :: rest⟩
      else .next (best.consider ovh ⟨newstart, pre, rp :: rest⟩)
  else .next best

/-- The main loop of `extent_do_alloc` and what follows it. -/
def searchLoop (ex : Extent) (req : Subregion) :
    (newstart : UInt64) → (pre rest : List ExtentRegion) → BestPlace → Option Place
  | newstart, pre, [], best => finalCheck ex req ex.exEnd newstart pre [] best
  | newstart, pre, rp :: rest, best =>
    if rp.erStart > req.subend then
      finalCheck ex req rp.erStart newstart pre (rp :: rest) best
    else
      match chunkCheck ex req newstart pre rp rest best with
      | .found p => some p
      | .fail => failOrBest req best
      | .next best =>
        let newstart := extentAlign (rp.erEnd + 1) req.alignment req.skew
        if newstart < rp.erEnd then failOrBest req best
        else searchLoop ex req newstart (rp :: pre) rest best

/-- The walk to the first region that begins on or after `newstart`. -/
def advance (newstart : UInt64) : (pre rest : List ExtentRegion) →
    List ExtentRegion × List ExtentRegion
  | pre, [] => (pre, [])
  | pre, rp :: rest =>
    if rp.erStart ≥ newstart then (pre, rp :: rest) else advance newstart (rp :: pre) rest

def alignedStart (req : Subregion) : UInt64 := extentAlign req.substart req.alignment req.skew

/-- The candidate behind the last region before the subregion. -/
def relocate (req : Subregion) (last : Option ExtentRegion) : UInt64 :=
  match last with
  | some last =>
    if last.erEnd ≥ alignedStart req then
      extentAlign (last.erEnd + 1) req.alignment req.skew
    else alignedStart req
  | none => alignedStart req

/-- The search of `extent_do_alloc` from `alloc_start` to `found` or `fail`. -/
def searchPlace (ex : Extent) (req : Subregion) : Option Place :=
  let (pre, rest) := advance (alignedStart req) [] ex.exRegions
  searchLoop ex req (relocate req pre.head?) pre rest ⟨0, ⟨0, [], ex.exRegions⟩⟩

/-- The arguments that `extent_do_alloc` does not panic on. -/
def Subregion.check (req : Subregion) (ex : Extent) : Bool :=
  !(req.substart < ex.exStart || req.substart > ex.exEnd || req.subend > ex.exEnd
      || req.subend < ex.exStart)
    && !(req.size < 1 || req.size - 1 > req.subend - req.substart)
    && !(req.alignment == 0)
    && !(req.boundary != 0 && req.boundary < req.size)
    && !(alignedStart req < ex.exStart)

def extentDoAlloc (ex : Extent) (req : Subregion) (myrp : ExtentRegion) : ExtentOutcome :=
  if !req.check ex then .panic
  else
    match searchPlace ex req with
    | some p =>
      .ret (extentInsertAndOptimize ex p.newstart req.size p.pre p.rest myrp) none
        (some p.newstart)
    | none =>
      if req.flags.waitspace then
        .sleep { ex with exfWanted := true } (.space (.allocSubregion req) myrp)
      else .ret (extentFreeRegionDescriptor ex myrp) (some .eagain) none

/-! ## Freeing -/

/-- The walk of `extent_free`: the new region list, the descriptors given back and
    whether `nrp` was used; none where no region matches. -/
def freeScan (nocoalesce : Bool) (start stop : UInt64) (nrp : Option ExtentRegion) :
    (pre rest : List ExtentRegion) → Option (List ExtentRegion × List ExtentRegion)
  | _, [] => none
  | pre, rp :: rest =>
    if rp.erEnd < start then freeScan nocoalesce start stop nrp (rp :: pre) rest
    else if rp.erStart > stop then none
    else if start == rp.erStart && stop == rp.erEnd then
      some (pre.reverse ++ rest, rp :: nrp.toList)
    else if nocoalesce then freeScan nocoalesce start stop nrp (rp :: pre) rest
    else if start == rp.erStart && stop < rp.erEnd then
      some (pre.reverse ++ { rp with erStart := stop + 1 } :: rest, nrp.toList)
    else if start > rp.erStart && stop == rp.erEnd then
      some (pre.reverse ++ { rp with erEnd := start - 1 } :: rest, nrp.toList)
    else if start > rp.erStart && stop < rp.erEnd then
      match nrp with
      | some nrp =>
        some (pre.reverse ++ { rp with erEnd := start - 1 }
          :: { nrp with erStart := stop + 1, erEnd := rp.erEnd } :: rest, [])
      | none => none
    else freeScan nocoalesce start stop nrp (rp :: pre) rest

/-- `extent_free` once it has its descriptor. -/
def extentFreeWith (ex : Extent) (start size : UInt64) (nrp : Option ExtentRegion) :
    ExtentOutcome :=
  match freeScan ex.exfNocoalesce start (start + (size - 1)) nrp [] ex.exRegions with
  | some (regions, freed) =>
    let ex := freed.foldl extentFreeRegionDescriptor { ex with exRegions := regions }
    .ret { ex with exfWanted := false } none none
  | none => .panic

/-! ## Calls and threads -/

/-- The checks of a call that come before it allocates its descriptor. -/
def ExtentCall.check (ex : Extent) : ExtentCall → Bool
  | .allocRegion start size flags =>
    !(size < 1) && !(start + (size - 1) < start) && !(flags.conflictok && flags.waitspace)
      && !(start < ex.exStart || start + (size - 1) > ex.exEnd)
  | .allocSubregion _ => true
  | .free start size _ =>
    !(start < ex.exStart || start + (size - 1) > ex.exEnd) && !(start + (size - 1) < start)

def ExtentCall.flags : ExtentCall → ExtentFlags
  | .allocRegion _ _ flags => flags
  | .allocSubregion req => req.flags
  | .free _ _ flags => flags

/-- A call that holds the descriptor `rp`. -/
def ExtentCall.withDescriptor (ex : Extent) (c : ExtentCall) (rp : ExtentRegion) : ExtentOutcome :=
  match c with
  | .allocRegion start size flags =>
    extentAllocRegionFrom ex flags rp start size (start + (size - 1)) c
  | .allocSubregion req => extentDoAlloc ex req rp
  | .free start size _ => extentFreeWith ex start size (some rp)

/-- `extent_free` takes no descriptor where coalescing is off. -/
def ExtentCall.needsDescriptor (ex : Extent) : ExtentCall → Bool
  | .free _ _ _ => !ex.exfNocoalesce
  | _ => true

/-- A call from the allocation of its descriptor on; a thread woken on the free
    list comes back here. -/
def ExtentCall.resume (ex : Extent) (c : ExtentCall) (mem : Bool) : ExtentOutcome :=
  match c, c.needsDescriptor ex with
  | .free start size _, false => extentFreeWith ex start size none
  | c, _ =>
    match extentAllocRegionDescriptor ex c.flags mem with
    | .got ex rp => c.withDescriptor ex rp
    | .null => .ret ex (some .enomem) none
    | .sleep ex => .sleep ex (.freelist c)

/-- `extent_alloc_region`, `extent_alloc_subregion` and `extent_free`. -/
def ExtentCall.run (ex : Extent) (c : ExtentCall) (mem : Bool) : ExtentOutcome :=
  if c.check ex then c.resume ex mem else .panic

/-- A thread that comes back from `tsleep`, with an error only under `EX_CATCH`. -/
def Sleeper.wake (ex : Extent) (who : Sleeper) (intr mem : Bool) : ExtentOutcome :=
  match who with
  | .freelist c =>
    if intr && c.flags.catchSignals then .ret ex (some .enomem) none else c.resume ex mem
  | .space c rp =>
    if intr && c.flags.catchSignals then .ret ex (some .eintr) none else c.withDescriptor ex rp

/-- An extent and the threads asleep in it. -/
structure ExtentSys where
  ex : Extent
  sleepers : List Sleeper
  deriving DecidableEq, Repr

/-- A thread enters a call, or the `i`th sleeper wakes up. -/
inductive ExtentEvent where
  | call (c : ExtentCall) (mem : Bool)
  | wake (i : Nat) (intr mem : Bool)
  deriving DecidableEq, Repr

/-- The state behind an outcome; none after a panic. -/
def ExtentOutcome.settle (sleepers : List Sleeper) : ExtentOutcome → Option ExtentSys
  | .ret ex _ _ => some ⟨ex, sleepers⟩
  | .sleep ex who => some ⟨ex, sleepers ++ [who]⟩
  | .panic => none

def ExtentSys.step (s : ExtentSys) : ExtentEvent → Option ExtentSys
  | .call c mem => (c.run s.ex mem).settle s.sleepers
  | .wake i intr mem =>
    match s.sleepers[i]? with
    | some who => (who.wake s.ex intr mem).settle (s.sleepers.eraseIdx i)
    | none => none

end OpenBsd.Kern
