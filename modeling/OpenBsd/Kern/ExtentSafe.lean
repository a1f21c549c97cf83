/-
  OpenBsd.Kern.ExtentSafe

  The region list of an extent map stays in order through every run of calls in
  which no address computed by a search wraps around unnoticed.  Where one does,
  an allocation can turn the list into one that no longer covers what was
  allocated.
-/

import OpenBsd.Lib.Run
import OpenBsd.Kern.ExtentSearch

namespace OpenBsd.Kern

open OpenBsd.Lib List

variable {ex' : Extent} {size : UInt64} {flags : ExtentFlags} {c : ExtentCall}

/-! ## Calls -/

/-- The extent keeps its bounds and its region list is in order. -/
structure KeepsOrder (ex ex' : Extent) : Prop where
  regions : RegionsOk ex'
  start : ex'.exStart = ex.exStart
  stop : ex'.exEnd = ex.exEnd

theorem SameRegions.keepsOrder {ex : Extent} (h : SameRegions ex ex') (hok : RegionsOk ex) :
    KeepsOrder ex ex' :=
  ⟨h.regionsOk hok, h.start, h.stop⟩

@[simp] theorem freeDescriptor_exStart (ex : Extent) (rp : ExtentRegion) :
    (extentFreeRegionDescriptor ex rp).exStart = ex.exStart :=
  (sameRegions_freeDescriptor ex rp).start

@[simp] theorem freeDescriptor_exEnd (ex : Extent) (rp : ExtentRegion) :
    (extentFreeRegionDescriptor ex rp).exEnd = ex.exEnd :=
  (sameRegions_freeDescriptor ex rp).stop

theorem insert_bounds (ex : Extent) (start size : UInt64) (pre rest : List ExtentRegion)
    (rp : ExtentRegion) :
    (extentInsertAndOptimize ex start size pre rest rp).exStart = ex.exStart ∧
      (extentInsertAndOptimize ex start size pre rest rp).exEnd = ex.exEnd := by
  have hins := regionInserted ex start size pre rest rp
  generalize extentInsertAndOptimize ex start size pre rest rp = ex' at hins ⊢
  -- every case changes the region list and frees at most two descriptors
  cases hins with
  | alone _ => exact ⟨rfl, rfl⟩
  | prepended _ _ _ _ => exact ⟨freeDescriptor_exStart .., freeDescriptor_exEnd ..⟩
  | appended _ _ _ _ => exact ⟨freeDescriptor_exStart .., freeDescriptor_exEnd ..⟩
  | joined _ _ _ _ _ =>
    rw [freeDescriptor_exStart, freeDescriptor_exStart, freeDescriptor_exEnd, freeDescriptor_exEnd]
    exact ⟨rfl, rfl⟩

theorem keepsOrder_insert {ex : Extent} {start : UInt64} {pre rest : List ExtentRegion}
    (hok : RegionsOk ex) (hf : FitsAt ex start size pre rest) (rp : ExtentRegion) :
    KeepsOrder ex (extentInsertAndOptimize ex start size pre rest rp) :=
  ⟨regionsOk_insert hok hf rp, (insert_bounds ..).1, (insert_bounds ..).2⟩

/-- The call a thread is asleep in. -/
def Sleeper.call : Sleeper → ExtentCall
  | .freelist c => c
  | .space c _ => c

/-- A call `c` on `ex` that does not panic leaves the list in order, and if it
    sleeps, it sleeps in `c`. -/
def ExtentOutcome.Ok (ex : Extent) (c : ExtentCall) : ExtentOutcome → Prop
  | .ret ex' _ _ => KeepsOrder ex ex'
  | .sleep ex' who => KeepsOrder ex ex' ∧ who.call = c
  | .panic => True

/-- The calls in question: no `EX_CONFLICTOK`, and no wrap in a search. -/
def ExtentCall.Allowed (ex : Extent) : ExtentCall → Prop
  | .allocRegion _ _ flags => flags.conflictok = false
  | .allocSubregion req => NoWrap ex req
  | .free _ _ _ => True

section

variable {ex : Extent}

theorem regionScan_clear {start stop : UInt64} {pre rest pre' rest' : List ExtentRegion}
    (h : regionScan start stop pre rest = .clear pre' rest') :
    pre'.reverse ++ rest' = pre.reverse ++ rest ∧
      ((∀ r ∈ pre, r.erEnd < start) → ∀ r ∈ pre', r.erEnd < start) ∧
      ∀ first, rest'.head? = some first → stop < first.erStart := by
  induction rest generalizing pre with
  | nil =>
    cases h
    exact ⟨rfl, id, fun first hfirst => by cases hfirst⟩
  | cons rp rest ih =>
    rw [regionScan] at h
    split at h
    · rename_i hstop
      cases h
      refine ⟨rfl, id, fun first hfirst => ?_⟩
      rw [head?_cons] at hfirst
      rw [← Option.some.inj hfirst]
      exact hstop
    · split at h
      · cases h
      · rename_i hend
        -- this region ends before the request and is passed
        obtain ⟨hsplit, hpre, hfirst⟩ := ih h
        refine ⟨?_, fun hall => hpre fun r hr => ?_, hfirst⟩
        · rw [hsplit, reverse_cons, append_assoc, singleton_append]
        · rcases mem_cons.mp hr with rfl | hr
          · exact UInt64.not_le.mp hend
          · exact hall r hr

theorem allocRegion_check {start : UInt64}
    (h : (ExtentCall.allocRegion start size flags).check ex = true) :
    1 ≤ size.toNat ∧ (start + (size - 1)).toNat = start.toNat + (size.toNat - 1) ∧
      ex.exStart.toNat ≤ start.toNat ∧ start.toNat + (size.toNat - 1) ≤ ex.exEnd.toNat := by
  simp only [ExtentCall.check, Bool.and_eq_true, Bool.not_eq_true', Bool.or_eq_false_iff,
    decide_eq_false_iff_not, UInt64.lt_iff_toNat_lt, gt_iff_lt, UInt64.toNat_one] at h
  obtain ⟨⟨⟨hsize, hwrap⟩, -⟩, hlower, hupper⟩ := h
  have hpos : 1 ≤ size.toNat := by omega
  have hone : (1 : UInt64) ≤ size := UInt64.le_iff_toNat_le.mpr hpos
  have hend := ex.exEnd.toNat_lt
  have hs := start.toNat_lt
  have hz := size.toNat_lt
  rw [UInt64.toNat_add, UInt64.toNat_sub_of_le _ _ hone, UInt64.toNat_one] at hwrap hupper ⊢
  omega

theorem allocRegionFrom_ok {start : UInt64} (hok : RegionsOk ex)
    (hcheck : (ExtentCall.allocRegion start size flags).check ex = true)
    (hflags : flags.conflictok = false) (rp : ExtentRegion) (c : ExtentCall) :
    (extentAllocRegionFrom ex flags rp start size (start + (size - 1)) c).Ok ex c := by
  obtain ⟨hpos, hlast, hlower, hupper⟩ := allocRegion_check hcheck
  rw [extentAllocRegionFrom]
  split
  · rename_i pre rest hscan
    obtain ⟨hsplit, hpre, hfirst⟩ := regionScan_clear hscan
    -- the regions passed lie below, the first one left lies above
    have hbefore := hpre fun r hr => absurd hr not_mem_nil
    refine keepsOrder_insert hok ⟨hsplit, hpos, hlower, hupper, fun r hr => ?_, ?_⟩ rp
    · exact UInt64.lt_iff_toNat_lt.mp (hbefore r hr)
    · cases rest with
      | nil => exact fun r hr => absurd hr not_mem_nil
      | cons first rest =>
        have hlt := UInt64.lt_iff_toNat_lt.mp (hfirst first rfl)
        rw [hlast] at hlt
        exact (hok.below_rest hsplit hlt).2
  · split
    · -- a conflict: the caller waits, or the descriptor goes back
      exact ⟨⟨hok, rfl, rfl⟩, rfl⟩
    · rw [if_neg (Bool.eq_false_iff.mp hflags)]
      exact (sameRegions_freeDescriptor ex rp).keepsOrder hok

theorem extentDoAlloc_ok {req : Subregion} (hok : RegionsOk ex) (hw : NoWrap ex req)
    (rp : ExtentRegion) : (extentDoAlloc ex req rp).Ok ex (.allocSubregion req) := by
  unfold extentDoAlloc
  split
  · trivial
  · rename_i hcheck
    rw [Bool.not_eq_true', Bool.not_eq_false] at hcheck
    split
    · rename_i p hp
      exact keepsOrder_insert hok (searchPlace_good hok hw hcheck hp) rp
    · split
      · exact ⟨⟨hok, rfl, rfl⟩, rfl⟩
      · exact (sameRegions_freeDescriptor ex rp).keepsOrder hok

section Cut

variable {a b g : Nat} {start stop : UInt64} {rp : ExtentRegion} {pre rest : List ExtentRegion}

theorem toNat_before (h : rp.erStart < start) : (start - 1).toNat = start.toNat - 1 := by
  have hone : (1 : UInt64) ≤ start := by
    rw [UInt64.lt_iff_toNat_lt] at h
    rw [UInt64.le_iff_toNat_le, UInt64.toNat_one]
    omega
  rw [UInt64.toNat_sub_of_le _ _ hone, UInt64.toNat_one]

theorem toNat_behind (h : stop < rp.erEnd) : (stop + 1).toNat = stop.toNat + 1 := by
  have hend := rp.erEnd.toNat_lt
  rw [UInt64.lt_iff_toNat_lt] at h
  rw [UInt64.toNat_add, UInt64.toNat_one, Nat.mod_eq_of_lt (by omega)]

section

variable (h : PlacedIn a b g (pre.reverse ++ rp :: rest))
include h

theorem PlacedIn.free_whole : PlacedIn a b g (pre.reverse ++ rest) := by
  have hmid : PlacedIn a b g (pre.reverse ++ ([rp] ++ rest)) := h
  have hnone : PlacedIn a b g [] :=
    ⟨fun r hr => absurd hr not_mem_nil, fun r hr => absurd hr not_mem_nil, .nil⟩
  exact hmid.replace hnone (fun r hr => absurd hr not_mem_nil) fun r hr => absurd hr not_mem_nil

theorem PlacedIn.free_start (hle : start.toNat ≤ stop.toNat) (hstart : start = rp.erStart)
    (hlt : stop < rp.erEnd) :
    PlacedIn a b g (pre.reverse ++ { rp with erStart := stop + 1 } :: rest) := by
  obtain ⟨⟨hin, hne, hin'⟩, hbefore, hafter⟩ := h.around
  have hmid : PlacedIn a b g (pre.reverse ++ ([rp] ++ rest)) := h
  have heq := toNat_behind hlt
  rw [UInt64.lt_iff_toNat_lt] at hlt
  -- the region starts later, so what lies below keeps its distance
  apply hmid.replace_one
  · simp only [ExtentRegion.lo, ExtentRegion.hi, heq, hstart] at *
    omega
  · intro l hl
    have := hbefore l hl
    simp only [ExtentRegion.lo, ExtentRegion.hi, heq, hstart] at *
    omega
  · exact hafter

theorem PlacedIn.free_end (hle : start.toNat ≤ stop.toNat) (hgt : rp.erStart < start)
    (hend : stop = rp.erEnd) :
    PlacedIn a b g (pre.reverse ++ { rp with erEnd := start - 1 } :: rest) := by
  obtain ⟨⟨hin, hne, hin'⟩, hbefore, hafter⟩ := h.around
  have hmid : PlacedIn a b g (pre.reverse ++ ([rp] ++ rest)) := h
  have heq := toNat_before hgt
  rw [UInt64.lt_iff_toNat_lt] at hgt
  -- the region ends earlier, so what lies above keeps its distance
  apply hmid.replace_one
  · simp only [ExtentRegion.lo, ExtentRegion.hi, heq, ← hend] at *
    omega
  · exact hbefore
  · intro n hn
    have := hafter n hn
    simp only [ExtentRegion.lo, ExtentRegion.hi, heq, ← hend] at *
    omega

theorem PlacedIn.free_middle (hg : g ≤ 1) (hle : start.toNat ≤ stop.toNat)
    (hgt : rp.erStart < start) (hlt : stop < rp.erEnd) (nrp : ExtentRegion) :
    PlacedIn a b g (pre.reverse ++ { rp with erEnd := start - 1 }
      :: { nrp with erStart := stop + 1, erEnd := rp.erEnd } :: rest) := by
  obtain ⟨⟨hin, hne, hin'⟩, hbefore, hafter⟩ := h.around
  have hmid : PlacedIn a b g (pre.reverse ++ ([rp] ++ rest)) := h
  have hloweq := toNat_before hgt
  have hhigheq := toNat_behind hlt
  rw [UInt64.lt_iff_toNat_lt] at hgt hlt
  refine hmid.replace_two ?_ ?_ ?_ hbefore hafter
  · simp only [ExtentRegion.lo, ExtentRegion.hi, hloweq] at *
    omega
  · simp only [ExtentRegion.lo, ExtentRegion.hi, hhigheq] at *
    omega
  · simp only [ExtentRegion.lo, ExtentRegion.hi, hloweq, hhigheq] at *
    omega

end

end Cut

/-- Freeing a part of one region keeps the list in order; the induction is on the
    regions the walk has not passed. -/
theorem freeScan_placed {a b g : Nat} (hg : g ≤ 1) {nocoalesce : Bool} {start stop : UInt64}
    (hle : start.toNat ≤ stop.toNat) {nrp : Option ExtentRegion}
    {pre rest regions freed : List ExtentRegion} (hplaced : PlacedIn a b g (pre.reverse ++ rest))
    (h : freeScan nocoalesce start stop nrp pre rest = some (regions, freed)) :
    PlacedIn a b g regions := by
  induction rest generalizing pre with
  | nil => cases h
  | cons rp rest ih =>
    have hpass : freeScan nocoalesce start stop nrp (rp :: pre) rest = some (regions, freed) →
        PlacedIn a b g regions := by
      intro h
      refine ih ?_ h
      rwa [reverse_cons, append_assoc, singleton_append]
    -- the tests of the loop in their order; where one fails the walk goes on or stops
    unfold freeScan at h
    split at h
    · exact hpass h
    split at h
    · cases h
    split at h
    · cases h
      exact hplaced.free_whole
    split at h
    · exact hpass h
    split at h
    · rename_i hcase
      simp only [Bool.and_eq_true, beq_iff_eq, decide_eq_true_eq] at hcase
      cases h
      exact hplaced.free_start hle hcase.1 hcase.2
    split at h
    · rename_i hcase
      simp only [Bool.and_eq_true, beq_iff_eq, decide_eq_true_eq] at hcase
      cases h
      exact hplaced.free_end hle hcase.1 hcase.2
    split at h
    · rename_i hcase
      simp only [Bool.and_eq_true, decide_eq_true_eq] at hcase
      split at h
      · rename_i new
        cases h
        exact hplaced.free_middle hg hle hcase.1 hcase.2 new
      · cases h
    · exact hpass h

theorem extentFreeWith_ok {start : UInt64} (hok : RegionsOk ex)
    (hle : start.toNat ≤ (start + (size - 1)).toNat) (nrp : Option ExtentRegion) (c : ExtentCall) :
    (extentFreeWith ex start size nrp).Ok ex c := by
  unfold extentFreeWith
  split
  · rename_i regions freed hscan
    have hgap : ex.gap ≤ 1 := by
      unfold Extent.gap
      split <;> omega
    have hplaced := freeScan_placed hgap hle (show PlacedIn _ _ _ ([].reverse ++ _) from hok) hscan
    have hsame := sameRegions_freeDescriptors freed { ex with exRegions := regions }
    exact ⟨hsame.regionsOk hplaced, hsame.start, hsame.stop⟩
  · trivial

theorem free_check {start : UInt64} (h : (ExtentCall.free start size flags).check ex = true) :
    start.toNat ≤ (start + (size - 1)).toNat := by
  simp only [ExtentCall.check, Bool.and_eq_true, Bool.not_eq_true', decide_eq_false_iff_not,
    UInt64.lt_iff_toNat_lt] at h
  omega

theorem withDescriptor_ok (hok : RegionsOk ex) (hcheck : c.check ex = true)
    (hallowed : c.Allowed ex) (rp : ExtentRegion) : (c.withDescriptor ex rp).Ok ex c := by
  cases c with
  | allocRegion start size flags => exact allocRegionFrom_ok hok hcheck hallowed rp _
  | allocSubregion req => exact extentDoAlloc_ok hok hallowed rp
  | free start size flags => exact extentFreeWith_ok hok (free_check hcheck) _ _

/-! What a call checks and what it may do depend on the bounds and the list only. -/

theorem check_congr (hstart : ex'.exStart = ex.exStart) (hstop : ex'.exEnd = ex.exEnd)
    (c : ExtentCall) : c.check ex' = c.check ex := by
  cases c <;> simp only [ExtentCall.check, hstart, hstop]

theorem SameRegions.allowed (h : SameRegions ex ex') (hallowed : c.Allowed ex) : c.Allowed ex' := by
  cases c with
  | allocRegion start size flags => exact hallowed
  | allocSubregion req =>
    have hdc : ∀ x, dontcross ex' req x = dontcross ex req x := by
      intro x
      rw [dontcross, dontcross, h.start]
    refine ⟨fun r hr => ?_, fun hb x hx => ?_⟩
    · rw [Relocates, h.regions] at hr
      exact hallowed.relocate r hr
    · rw [Tries, h.regions] at hx
      rw [hdc, h.start]
      exact hallowed.boundary hb x hx
  | free start size flags => trivial

theorem KeepsOrder.trans_same {ex'' : Extent} (h : SameRegions ex ex') (h' : KeepsOrder ex' ex'') :
    KeepsOrder ex ex'' :=
  ⟨h'.regions, h'.start.trans h.start, h'.stop.trans h.stop⟩

theorem ExtentOutcome.Ok.of_same {o : ExtentOutcome} (h : SameRegions ex ex') (ho : o.Ok ex' c) :
    o.Ok ex c := by
  cases o with
  | ret ex'' error result => exact KeepsOrder.trans_same h ho
  | sleep ex'' who => exact ⟨KeepsOrder.trans_same h ho.1, ho.2⟩
  | panic => trivial

theorem resume_ok (hok : RegionsOk ex) (hcheck : c.check ex = true) (hallowed : c.Allowed ex)
    (mem : Bool) : (c.resume ex mem).Ok ex c := by
  unfold ExtentCall.resume
  split
  · exact extentFreeWith_ok hok (free_check hcheck) _ _
  · split
    · rename_i ex' rp hgot
      have hsame := sameRegions_got hgot
      apply ExtentOutcome.Ok.of_same hsame
      refine withDescriptor_ok (hsame.regionsOk hok) ?_ (hsame.allowed hallowed) rp
      rw [check_congr hsame.start hsame.stop]
      exact hcheck
    · exact (SameRegions.refl ex).keepsOrder hok
    · rename_i ex' hsleep
      exact ⟨(sameRegions_sleep hsleep).keepsOrder hok, rfl⟩

theorem wake_ok {who : Sleeper} (hok : RegionsOk ex) (hcheck : who.call.check ex = true)
    (hallowed : who.call.Allowed ex) (intr mem : Bool) :
    (who.wake ex intr mem).Ok ex who.call := by
  have hret : ∀ error, (ExtentOutcome.ret ex error none).Ok ex who.call :=
    fun _ => (SameRegions.refl ex).keepsOrder hok
  cases who with
  | freelist c =>
    unfold Sleeper.wake
    dsimp only
    split
    · exact hret _
    · exact resume_ok hok hcheck hallowed mem
  | space c rp =>
    unfold Sleeper.wake
    dsimp only
    split
    · exact hret _
    · exact withDescriptor_ok hok hcheck hallowed rp

end

/-! ## Runs -/

/-- The region list is in order, and the calls asleep passed their checks. -/
structure ExtentSys.Inv (s : ExtentSys) : Prop where
  regions : RegionsOk s.ex
  checked : ∀ who ∈ s.sleepers, who.call.check s.ex = true

/-- The events in question: the call that runs is an allowed one. -/
def ExtentSys.EventOk (s : ExtentSys) : ExtentEvent → Prop
  | .call c _ => c.Allowed s.ex
  | .wake i _ _ => ∀ who, s.sleepers[i]? = some who → who.call.Allowed s.ex

theorem settle_inv {s s' : ExtentSys} {sleepers : List Sleeper} {o : ExtentOutcome} (hinv : s.Inv)
    (hsub : ∀ who ∈ sleepers, who ∈ s.sleepers) (hcheck : c.check s.ex = true) (ho : o.Ok s.ex c)
    (h : o.settle sleepers = some s') : s'.Inv := by
  -- the checks of a sleeper only read the bounds, which never move
  have hkept : ∀ ex', KeepsOrder s.ex ex' → ∀ who ∈ sleepers, who.call.check ex' = true := by
    intro ex' hk who hwho
    rw [check_congr hk.start hk.stop]
    exact hinv.checked who (hsub who hwho)
  cases o with
  | ret ex' error result =>
    cases h
    exact ⟨KeepsOrder.regions ho, hkept ex' ho⟩
  | sleep ex' who =>
    cases h
    obtain ⟨hk, hcall⟩ := ho
    refine ⟨hk.regions, fun x hx => ?_⟩
    rcases mem_append.mp hx with hx | hx
    · exact hkept ex' hk x hx
    · rw [mem_singleton.mp hx, hcall, check_congr hk.start hk.stop]
      exact hcheck
  | panic => cases h

theorem step_inv (s : ExtentSys) (e : ExtentEvent) (s' : ExtentSys) (hinv : s.Inv)
    (hevent : s.EventOk e) (h : s.step e = some s') : s'.Inv := by
  cases e with
  | call c mem =>
    rw [ExtentSys.step, ExtentCall.run] at h
    split at h
    · rename_i hcheck
      exact settle_inv hinv (fun _ => id) hcheck (resume_ok hinv.regions hcheck hevent mem) h
    · cases h
  | wake i intr mem =>
    rw [ExtentSys.step] at h
    split at h
    · rename_i who hwho
      -- a thread that wakes passed its checks before it slept
      have hcheck := hinv.checked who (mem_of_getElem? hwho)
      exact settle_inv hinv (fun _ => mem_of_mem_eraseIdx) hcheck
        (wake_ok hinv.regions hcheck (hevent who hwho) intr mem) h
    · cases h

theorem extentCreate_ok {start stop : UInt64} {storage : Option Nat} {mem : Bool} {ex : Extent}
    (h : extentCreate start stop storage flags mem = some ex) : RegionsOk ex := by
  have hempty : ∀ ex : Extent, ex.exRegions = [] → RegionsOk ex := by
    intro ex hnil
    rw [RegionsOk, hnil]
    exact ⟨fun r hr => absurd hr not_mem_nil, fun r hr => absurd hr not_mem_nil, .nil⟩
  -- a new extent is empty, or filled by one region
  unfold extentCreate at h
  split at h
  · cases h
  rename_i hle
  split at h
  · cases h
  split at h
  · cases h
  dsimp only at h
  split at h
  · split at h
    · rename_i ex' rp hgot
      have hsame := sameRegions_got hgot
      cases h
      rw [UInt64.lt_iff_toNat_lt] at hle
      apply PlacedIn.singleton
      · exact Nat.not_lt.mp hle
      · exact Nat.le_of_eq (congrArg UInt64.toNat hsame.start)
      · exact Nat.le_of_eq (congrArg UInt64.toNat hsame.stop).symm
    · cases h
    · cases h
  · cases h
    exact hempty _ rfl

/-- The region list is in order in every state of every run of allowed calls on a
    new extent. -/
theorem regionsOk_of_run {start stop : UInt64} {storage : Option Nat} {flags : ExtentFlags}
    {mem : Bool} {ex : Extent} (hcreate : extentCreate start stop storage flags mem = some ex)
    {events : List ExtentEvent} {s : ExtentSys}
    (hrun : Run ExtentSys.step ExtentSys.EventOk ⟨ex, []⟩ events s) : RegionsOk s.ex := by
  have hinit : ExtentSys.Inv ⟨ex, []⟩ :=
    ⟨extentCreate_ok hcreate, fun who hwho => absurd hwho not_mem_nil⟩
  exact (hrun.invariant step_inv hinit).regions

/-- A filled extent of 256 addresses out of which 64 are freed and 8 taken again,
    aligned and within a boundary of 16. -/
theorem regionsOk_of_run_filled : ∃ ex s,
    extentCreate 0 255 none { waitok := true, filled := true } true = some ex ∧
      Run ExtentSys.step ExtentSys.EventOk ⟨ex, []⟩
        [.call (.free 64 64 {}) true, .call (.allocSubregion ⟨0, 255, 8, 16, 0, 16, {}⟩) true] s ∧
      RegionsOk s.ex := by
  have hcreate : extentCreate 0 255 none { waitok := true, filled := true } true
      = some ⟨[⟨0, 255, true, false⟩], 0, 255, false, false, false, false, []⟩ := rfl
  have hfree : ExtentSys.step
      ⟨⟨[⟨0, 255, true, false⟩], 0, 255, false, false, false, false, []⟩, []⟩
      (.call (.free 64 64 {}) true)
      = some ⟨⟨[⟨0, 63, true, false⟩, ⟨128, 255, true, false⟩], 0, 255, false, false, false, false,
          []⟩, []⟩ := by
    decide
  -- `erEnd + 1` is 0 for a region that ends with the address space
  have halloc : ExtentSys.step
      ⟨⟨[⟨0, 63, true, false⟩, ⟨128, 255, true, false⟩], 0, 255, false, false, false, false, []⟩, []⟩
      (.call (.allocSubregion ⟨0, 255, 8, 16, 0, 16, {}⟩) true)
      = some ⟨⟨[⟨0, 71, true, false⟩, ⟨128, 255, true, false⟩], 0, 255, false, false, false, false,
          []⟩, []⟩ := by
    decide
  have hnowrap : NoWrap
      ⟨[⟨0, 63, true, false⟩, ⟨128, 255, true, false⟩], 0, 255, false, false, false, false, []⟩
      ⟨0, 255, 8, 16, 0, 16, {}⟩ := by
    refine ⟨fun r hr => ?_, fun hne x _ => boundaryOk_of_pow2 (k := 4) rfl x hne⟩
    -- no region starts below address 0
    exact absurd hr.2.1 UInt64.not_lt_zero
  have hrun : Run ExtentSys.step ExtentSys.EventOk _
      [.call (.free 64 64 {}) true, .call (.allocSubregion ⟨0, 255, 8, 16, 0, 16, {}⟩) true] _ :=
    .cons trivial hfree (.cons hnowrap halloc (.nil _))
  exact ⟨_, _, hcreate, hrun, regionsOk_of_run hcreate hrun⟩

/-- An extent of all addresses with `[10, 2^64 - 1]` allocated.  The search from 20
    on moves its candidate behind that region, to address 0, and the region it is
    coalesced with becomes `[10, 0]`. -/
theorem region_lost_on_wrap : ∃ ex s,
    extentCreate 0 (-1) none { waitok := true, filled := true } true = some ex ∧
      Run ExtentSys.step (fun _ _ => True) ⟨ex, []⟩
        [.call (.free 0 10 {}) true, .call (.allocSubregion ⟨20, -1, 1, 1, 0, 0, {}⟩) true] s ∧
      ¬ RegionsOk s.ex := by
  have hfree : ExtentSys.step
      ⟨⟨[⟨0, -1, true, false⟩], 0, -1, false, false, false, false, []⟩, []⟩
      (.call (.free 0 10 {}) true)
      = some ⟨⟨[⟨10, -1, true, false⟩], 0, -1, false, false, false, false, []⟩, []⟩ := by
    decide
  have halloc : ExtentSys.step
      ⟨⟨[⟨10, -1, true, false⟩], 0, -1, false, false, false, false, []⟩, []⟩
      (.call (.allocSubregion ⟨20, -1, 1, 1, 0, 0, {}⟩) true)
      = some ⟨⟨[⟨10, 0, true, false⟩], 0, -1, false, false, false, false, []⟩, []⟩ := by
    decide
  refine ⟨_, _, rfl, .cons trivial hfree (.cons trivial halloc (.nil _)), fun hok => ?_⟩
  exact absurd (hok.nonempty _ (mem_cons_self ..)) (by decide)

end OpenBsd.Kern
