/-
  OpenBsd.Kern.ExtentConflict

  `extent_alloc_region` with `EX_CONFLICTOK`.

  The request is cut down at the regions it overlaps, regions inside it are given up, and
  what is left is inserted.  A request inside a larger region leaves an empty rest, which
  coalescing turns into a cut of that region, and a region that starts at the last address
  of the request ends the call with nothing inserted.
-/

import OpenBsd.Kern.ExtentSafe

namespace OpenBsd.Kern

open OpenBsd.Lib List

/-! ## Allocated addresses -/

/-- The addresses of the regions of a list. -/
def covered (l : List ExtentRegion) : Set Nat := {x | ∃ r ∈ l, r.lo ≤ x ∧ x ≤ r.hi}

def Extent.allocated (ex : Extent) : Set Nat := covered ex.exRegions

@[simp] theorem mem_covered_cons {r : ExtentRegion} {l : List ExtentRegion} {x : Nat} :
    x ∈ covered (r :: l) ↔ (r.lo ≤ x ∧ x ≤ r.hi) ∨ x ∈ covered l := by
  constructor
  · rintro ⟨e, he, hx⟩
    rcases mem_cons.1 he with rfl | he
    · exact .inl hx
    · exact .inr ⟨e, he, hx⟩
  · rintro (hx | ⟨e, he, hx⟩)
    · exact ⟨r, mem_cons_self .., hx⟩
    · exact ⟨e, mem_cons_of_mem _ he, hx⟩

@[simp] theorem mem_covered_append {l l' : List ExtentRegion} {x : Nat} :
    x ∈ covered (l ++ l') ↔ x ∈ covered l ∨ x ∈ covered l' := by
  constructor
  · rintro ⟨e, he, hx⟩
    exact (mem_append.1 he).imp (fun he => ⟨e, he, hx⟩) fun he => ⟨e, he, hx⟩
  · rintro (⟨e, he, hx⟩ | ⟨e, he, hx⟩)
    · exact ⟨e, mem_append_left _ he, hx⟩
    · exact ⟨e, mem_append_right _ he, hx⟩

@[simp] theorem allocated_freeDescriptor (ex : Extent) (rp : ExtentRegion) :
    (extentFreeRegionDescriptor ex rp).allocated = ex.allocated :=
  congrArg covered (sameRegions_freeDescriptor ex rp).regions

theorem SameRegions.allocated_eq {ex ex' : Extent} (h : SameRegions ex ex') :
    ex'.allocated = ex.allocated :=
  congrArg covered h.regions

section

variable {ex : Extent} {start size stop : UInt64} {pre rest : List ExtentRegion}

/-- Insertion adds the addresses of the request, however it coalesces. -/
theorem allocated_insert (hok : RegionsOk ex) (hf : FitsAt ex start size pre rest)
    (rp : ExtentRegion) :
    (extentInsertAndOptimize ex start size pre rest rp).allocated
      = ex.allocated ∪ Set.Icc start.toNat (start.toNat + (size.toNat - 1)) := by
  have hlast := toNat_last hf.pos (Nat.lt_of_le_of_lt hf.upper ex.exEnd.toNat_lt)
  have hins := regionInserted ex start size pre rest rp
  have hold : ∀ x, x ∈ ex.allocated ↔ x ∈ covered pre.reverse ∨ x ∈ covered rest := by
    intro x
    rw [Extent.allocated, ← hf.split, mem_covered_append]
  have hne : ∀ r ∈ pre ++ rest, r.lo ≤ r.hi := by
    intro r hr
    apply hok.nonempty
    rw [← hf.split]
    simpa using hr
  ext x
  rw [Set.mem_union, Set.mem_Icc, hold]
  generalize extentInsertAndOptimize ex start size pre rest rp = ex' at hins ⊢
  cases hins with
  | alone h =>
    simp only [Extent.allocated, mem_covered_append, mem_covered_cons, hlast]
    rw [or_assoc, or_comm (b := x ∈ covered rest)]
  | @prepended next tail hnc hafter hrest hnext =>
    subst hrest
    have hbelow := hf.below next (mem_cons_self ..)
    have htouch := (touches_next hf.pos hbelow).1 (beq_iff_eq.2 hnext)
    have hnonempty := hne next (by simp)
    rw [allocated_freeDescriptor]
    simp only [Extent.allocated, mem_covered_append, mem_covered_cons]
    have hiff : (start.toNat ≤ x ∧ x ≤ next.hi) ↔
        (next.lo ≤ x ∧ x ≤ next.hi) ∨
          (start.toNat ≤ x ∧ x ≤ start.toNat + (size.toNat - 1)) := by
      omega
    simp only [hiff, or_assoc]
    simp only [or_left_comm, or_comm]
  | @appended after init hnc hpre hafter hnext =>
    subst hpre
    have habove := hf.above after (mem_cons_self ..)
    have htouch := (touches_after habove).1 (beq_iff_eq.2 hafter)
    have hnonempty := hne after (by simp)
    rw [allocated_freeDescriptor]
    simp only [Extent.allocated, mem_covered_append, mem_covered_cons, reverse_cons, hlast]
    have hiff : (after.lo ≤ x ∧ x ≤ start.toNat + (size.toNat - 1)) ↔
        (after.lo ≤ x ∧ x ≤ after.hi) ∨
          (start.toNat ≤ x ∧ x ≤ start.toNat + (size.toNat - 1)) := by
      omega
    have hnil : x ∉ covered [] := fun ⟨_, h, _⟩ => absurd h not_mem_nil
    simp only [hiff, hnil, or_false, or_assoc]
    simp only [or_left_comm, or_comm]
  | @joined after next init tail hnc hpre hafter hrest hnext =>
    subst hpre hrest
    have hbelow := hf.below next (mem_cons_self ..)
    have habove := hf.above after (mem_cons_self ..)
    have htouch := (touches_next hf.pos hbelow).1 (beq_iff_eq.2 hnext)
    have htouch' := (touches_after habove).1 (beq_iff_eq.2 hafter)
    have hnonempty := hne after (by simp)
    have hnonempty' := hne next (by simp)
    rw [allocated_freeDescriptor, allocated_freeDescriptor]
    simp only [Extent.allocated, mem_covered_append, mem_covered_cons, reverse_cons]
    have hiff : (after.lo ≤ x ∧ x ≤ next.hi) ↔
        (after.lo ≤ x ∧ x ≤ after.hi) ∨ (next.lo ≤ x ∧ x ≤ next.hi) ∨
          (start.toNat ≤ x ∧ x ≤ start.toNat + (size.toNat - 1)) := by
      omega
    have hnil : x ∉ covered [] := fun ⟨_, h, _⟩ => absurd h not_mem_nil
    simp only [hiff, hnil, or_false, or_assoc]
    simp only [or_left_comm, or_comm]

/-! ## The walk -/

theorem regionScan_append {l : List ExtentRegion}
    (hl : ∀ r ∈ l, r.erStart ≤ stop ∧ r.erEnd < start) :
    regionScan start stop pre (l ++ rest) = regionScan start stop (l.reverse ++ pre) rest := by
  induction l generalizing pre with
  | nil => rfl
  | cons r l ih =>
    obtain ⟨hle, hlt⟩ := hl r (mem_cons_self ..)
    rw [cons_append, regionScan, if_neg (UInt64.not_lt.2 hle), if_neg (UInt64.not_le.2 hlt),
      ih fun r hr => hl r (mem_cons_of_mem _ hr), reverse_cons, append_assoc, singleton_append]

theorem regionScan_passed {pre' rest' : List ExtentRegion} {rp : ExtentRegion}
    (h : regionScan start stop pre rest = .conflict pre' rp rest')
    (hpre : ∀ r ∈ pre, r.erEnd < start) : ∀ r ∈ pre', r.erEnd < start := by
  induction rest generalizing pre with
  | nil => cases h
  | cons r rest ih =>
    rw [regionScan] at h
    split at h
    · cases h
    · split at h
      · cases h
        exact hpre
      · rename_i hend
        refine ih h fun x hx => ?_
        rcases mem_cons.1 hx with rfl | hx
        · exact UInt64.not_le.1 hend
        · exact hpre x hx

/-- A request that has not been used up. -/
structure Request (ex : Extent) (start size stop : UInt64) : Prop where
  pos : 1 ≤ size.toNat
  last : start.toNat + (size.toNat - 1) = stop.toNat
  lower : ex.exStart.toNat ≤ start.toNat
  upper : stop.toNat ≤ ex.exEnd.toNat

theorem Request.of_range (hle : start.toNat ≤ stop.toNat)
    (hlt : stop.toNat - start.toNat < 2 ^ 64 - 1) (hlower : ex.exStart.toNat ≤ start.toNat)
    (hupper : stop.toNat ≤ ex.exEnd.toNat) :
    Request ex start (stop - start + 1) stop := by
  have hsize : (stop - start + 1).toNat = stop.toNat - start.toNat + 1 := by
    rw [UInt64.toNat_add, UInt64.toNat_sub_of_le _ _ (UInt64.le_iff_toNat_le.2 hle),
      UInt64.toNat_one, Nat.mod_eq_of_lt (by omega)]
  exact ⟨by omega, by omega, hlower, hupper⟩

/-- The first region of the list that the request overlaps. -/
structure FirstConflict (ex : Extent) (start stop : UInt64) (pre : List ExtentRegion)
    (rp : ExtentRegion) (rest : List ExtentRegion) : Prop where
  split : pre.reverse ++ rp :: rest = ex.exRegions
  starts : rp.lo ≤ stop.toNat
  ends : start.toNat ≤ rp.hi
  passed : ∀ r ∈ pre, r.hi < start.toNat

theorem firstConflict_of_scan {rp : ExtentRegion}
    (h : regionScan start stop [] ex.exRegions = .conflict pre rp rest) :
    FirstConflict ex start stop pre rp rest := by
  obtain ⟨hsplit, hstop, hstart⟩ := regionScan_conflict h
  exact ⟨hsplit.symm, UInt64.le_iff_toNat_le.1 hstop, UInt64.le_iff_toNat_le.1 hstart,
    fun r hr => UInt64.lt_iff_toNat_lt.1
      (regionScan_passed h (fun r hr => absurd hr not_mem_nil) r hr)⟩

theorem fitsAt_of_clear (hok : RegionsOk ex) (hr : Request ex start size stop)
    (h : regionScan start stop [] ex.exRegions = .clear pre rest) :
    FitsAt ex start size pre rest := by
  obtain ⟨hsplit, hpre, hfirst⟩ := regionScan_clear h
  have hbefore := hpre fun r hr => absurd hr not_mem_nil
  have hlast := hr.last
  have hupper := hr.upper
  refine ⟨hsplit, hr.pos, hr.lower, by omega, fun r hr => ?_, ?_⟩
  · exact UInt64.lt_iff_toNat_lt.mp (hbefore r hr)
  · cases rest with
    | nil => exact fun r hr => absurd hr not_mem_nil
    | cons first rest =>
      have hlt := UInt64.lt_iff_toNat_lt.mp (hfirst first rfl)
      rw [hlast]
      exact (hok.below_rest hsplit hlt).2

/-! ## Where the request is added -/

/-- No region contains the request and more behind it, up to before the end of the extent,
    unless coalescing is off; and a region that starts at the last address finds the
    addresses before it allocated. -/
structure AddsCleanly (ex : Extent) (start stop : UInt64) : Prop where
  inside : ex.exfNocoalesce = false → ∀ r ∈ ex.exRegions, r.lo ≤ start.toNat →
    stop.toNat < r.hi → ex.exEnd.toNat ≤ r.hi
  last : ∀ r ∈ ex.exRegions, r.lo = stop.toNat →
    ∀ x, start.toNat ≤ x → x < stop.toNat → x ∈ ex.allocated

/-- The allocated addresses after the request is added. -/
def Extent.plus (ex : Extent) (start stop : UInt64) : Set Nat :=
  ex.allocated ∪ Set.Icc start.toNat stop.toNat

/-- The call returns 0, with exactly the addresses `target` allocated where `good` holds. -/
def ExtentOutcome.AddsIff (o : ExtentOutcome) (target : Set Nat) (good : Prop) : Prop :=
  ∃ ex', o = .ret ex' none none ∧ (ex'.allocated = target ↔ good)

section Conflict

variable {rp : ExtentRegion}

theorem FirstConflict.mem (hf : FirstConflict ex start stop pre rp rest) : rp ∈ ex.exRegions := by
  rw [← hf.split]
  exact mem_append_right _ (mem_cons_self ..)

theorem FirstConflict.others (hok : RegionsOk ex) (hf : FirstConflict ex start stop pre rp rest)
    {r : ExtentRegion} (hr : r ∈ ex.exRegions) :
    (r.hi < start.toNat ∧ r.hi + ex.gap < rp.lo) ∨ r = rp ∨ rp.hi + ex.gap < r.lo := by
  obtain ⟨-, hbefore, hafter⟩ := hok.around hf.split
  rw [← hf.split, mem_append, mem_reverse] at hr
  rcases hr with hr | hr
  · exact .inl ⟨hf.passed r hr, hbefore r hr⟩
  · exact .inr ((mem_cons.1 hr).imp_right (hafter r))

theorem mem_allocated {r : ExtentRegion} {x : Nat} (hr : r ∈ ex.exRegions) (hlo : r.lo ≤ x)
    (hhi : x ≤ r.hi) : x ∈ ex.allocated := ⟨r, hr, hlo, hhi⟩

theorem FirstConflict.start_free (hok : RegionsOk ex)
    (hf : FirstConflict ex start stop pre rp rest) (hlt : start.toNat < rp.lo) :
    start.toNat ∉ ex.allocated := by
  rintro ⟨r, hr, hlo, hhi⟩
  have hne := hok.nonempty rp hf.mem
  rcases hf.others hok hr with ⟨h, -⟩ | rfl | h <;> omega

theorem gap_eq_one (h : ex.exfNocoalesce = false) : ex.gap = 1 := by
  rw [Extent.gap, h]
  rfl

theorem FirstConflict.cleanly_inside (hok : RegionsOk ex)
    (hf : FirstConflict ex start stop pre rp rest) (hle : start.toNat ≤ stop.toNat)
    (hlo : rp.lo ≤ start.toNat) (hhi : stop.toNat ≤ rp.hi) :
    AddsCleanly ex start stop ↔
      (ex.exfNocoalesce = false → stop.toNat < rp.hi → ex.exEnd.toNat ≤ rp.hi) := by
  constructor
  · exact fun h hnc hlt => h.inside hnc rp hf.mem hlo hlt
  · intro h
    refine ⟨fun hnc r hr hrlo hrhi => ?_, fun r hr hrlo x hx hx' => ?_⟩
    · have := hf.ends
      rcases hf.others hok hr with ⟨hbelow, -⟩ | rfl | habove
      · omega
      · exact h hnc hrhi
      · omega
    · exact mem_allocated hf.mem (by omega) (by omega)

theorem plus_inside {r : ExtentRegion} (hr : r ∈ ex.exRegions) (hlo : r.lo ≤ start.toNat)
    (hhi : stop.toNat ≤ r.hi) : ex.plus start stop = ex.allocated := by
  refine Set.union_eq_left.2 fun x hx => ?_
  rw [Set.mem_Icc] at hx
  exact mem_allocated hr (by omega) (by omega)

theorem FirstConflict.cleanly_behind {start' : UInt64} (hok : RegionsOk ex)
    (hf : FirstConflict ex start stop pre rp rest) (hlo : rp.lo ≤ start.toNat)
    (hhi : rp.hi < stop.toNat) (hstart' : start'.toNat = rp.hi + 1) :
    (AddsCleanly ex start' stop ↔ AddsCleanly ex start stop) ∧
      ex.plus start' stop = ex.plus start stop := by
  have hends := hf.ends
  have hcov : ∀ x, start.toNat ≤ x → x < start'.toNat → x ∈ ex.allocated :=
    fun x hx hx' => mem_allocated hf.mem (by omega) (by omega)
  constructor
  · constructor
    · intro h
      refine ⟨fun hnc r hr hrlo hrhi => ?_, fun r hr hrlo x hx hx' => ?_⟩
      · exact h.inside hnc r hr (by omega) hrhi
      · rcases Nat.lt_or_ge x start'.toNat with hlt | hge
        · exact hcov x hx hlt
        · exact h.last r hr hrlo x hge hx'
    · intro h
      refine ⟨fun hnc r hr hrlo hrhi => ?_, fun r hr hrlo x hx hx' => ?_⟩
      · -- with coalescing no region touches this one
        have hgap := gap_eq_one hnc
        rcases hf.others hok hr with ⟨hbelow, -⟩ | rfl | habove <;> omega
      · exact h.last r hr hrlo x (by omega) hx'
  · ext x
    simp only [Extent.plus, Set.mem_union, Set.mem_Icc]
    have := hcov x
    constructor
    · rintro (hx | hx)
      · exact .inl hx
      · exact .inr (by omega)
    · rintro (hx | hx)
      · exact .inl hx
      · rcases Nat.lt_or_ge x start'.toNat with hlt | hge
        · exact .inl (hcov x hx.1 hlt)
        · exact .inr ⟨hge, hx.2⟩

/-- A region inside the request is given up. -/
theorem FirstConflict.cleanly_removed {ex' : Extent} (hok : RegionsOk ex)
    (hf : FirstConflict ex start stop pre rp rest) (hlo : start.toNat < rp.lo)
    (hhi : rp.hi < stop.toNat) (hregions : ex'.exRegions = pre.reverse ++ rest)
    (hnc : ex'.exfNocoalesce = ex.exfNocoalesce) (hend : ex'.exEnd = ex.exEnd) :
    (AddsCleanly ex' start stop ↔ AddsCleanly ex start stop) ∧
      ex'.plus start stop = ex.plus start stop := by
  have hne := hok.nonempty rp hf.mem
  have hmem : ∀ r, r ∈ ex.exRegions ↔ r = rp ∨ r ∈ ex'.exRegions := by
    intro r
    rw [hregions, ← hf.split, mem_append, mem_append, mem_cons]
    tauto
  have hfree := hf.start_free hok hlo
  have hsub : ∀ x, x ∈ ex'.allocated → x ∈ ex.allocated :=
    fun x ⟨r, hr, hx⟩ => ⟨r, (hmem r).2 (.inr hr), hx⟩
  constructor
  · constructor
    · intro h
      refine ⟨fun hnc' r hr hrlo hrhi => ?_, fun r hr hrlo x hx hx' => ?_⟩
      · rcases (hmem r).1 hr with rfl | hr
        · omega
        · rw [← hend]
          exact h.inside (hnc.trans hnc') r hr hrlo hrhi
      · rcases (hmem r).1 hr with rfl | hr
        · omega
        · exact hsub x (h.last r hr hrlo x hx hx')
    · intro h
      refine ⟨fun hnc' r hr hrlo hrhi => ?_, fun r hr hrlo x hx hx' => ?_⟩
      · rw [hend]
        exact h.inside (hnc.symm.trans hnc') r ((hmem r).2 (.inr hr)) hrlo hrhi
      · -- the start itself is free, so no region starts at the last address
        exact absurd (h.last r ((hmem r).2 (.inr hr)) hrlo _ (Nat.le_refl _) (by omega)) hfree
  · ext x
    simp only [Extent.plus, Set.mem_union, Set.mem_Icc]
    constructor
    · exact Or.imp_left (hsub x)
    · rintro (⟨r, hr, hx⟩ | hx)
      · rcases (hmem r).1 hr with rfl | hr
        · exact .inr (by omega)
        · exact .inl ⟨r, hr, hx⟩
      · exact .inr hx

theorem FirstConflict.cleanly_before {stop' : UInt64} (hok : RegionsOk ex)
    (hf : FirstConflict ex start stop pre rp rest) (hlo : start.toNat < rp.lo)
    (hlt : rp.lo < stop.toNat) (hhi : stop.toNat ≤ rp.hi) (hstop' : stop'.toNat + 1 = rp.lo) :
    (AddsCleanly ex start stop' ↔ AddsCleanly ex start stop) ∧
      ex.plus start stop' = ex.plus start stop := by
  have hfree := hf.start_free hok hlo
  have hclean : ∀ s : UInt64, start.toNat ≤ s.toNat → (∀ r ∈ ex.exRegions, r.lo ≠ s.toNat) →
      AddsCleanly ex start s := by
    intro s hs hnone
    refine ⟨fun _ r hr hrlo hrhi => ?_, fun r hr hrlo => absurd hrlo (hnone r hr)⟩
    exact absurd (mem_allocated hr hrlo (by omega)) hfree
  constructor
  · -- no region starts at either of the two last addresses
    refine iff_of_true (hclean stop' (by omega) fun r hr => ?_)
      (hclean stop (by omega) fun r hr => ?_)
    · have := hok.nonempty r hr
      rcases hf.others hok hr with ⟨h, -⟩ | rfl | h <;> omega
    · have := hok.nonempty r hr
      rcases hf.others hok hr with ⟨-, h⟩ | rfl | h <;> omega
  · ext x
    simp only [Extent.plus, Set.mem_union, Set.mem_Icc]
    constructor
    · exact Or.imp_right fun hx => by omega
    · rintro (hx | hx)
      · exact .inl hx
      · rcases Nat.lt_or_ge x rp.lo with h | h
        · exact .inr (by omega)
        · exact .inl (mem_allocated hf.mem h (by omega))

theorem FirstConflict.not_cleanly_last (hok : RegionsOk ex)
    (hf : FirstConflict ex start stop pre rp rest) (hlo : start.toNat < rp.lo)
    (hlast : rp.lo = stop.toNat) :
    ¬ AddsCleanly ex start stop ∧ ex.allocated ≠ ex.plus start stop := by
  have hfree := hf.start_free hok hlo
  refine ⟨fun h => ?_, fun h => ?_⟩
  · exact hfree (h.last rp hf.mem hlast _ (Nat.le_refl _) (by omega))
  · rw [h] at hfree
    exact hfree (.inr ⟨Nat.le_refl _, by omega⟩)

theorem cleanly_of_clear (hok : RegionsOk ex) (hr : Request ex start size stop)
    (hf : FitsAt ex start size pre rest) : AddsCleanly ex start stop := by
  have hlast := hr.last
  have hout : ∀ r ∈ ex.exRegions, r.hi < start.toNat ∨ stop.toNat < r.lo := by
    intro r hr
    rw [← hf.split, mem_append, mem_reverse] at hr
    rw [← hlast]
    exact hr.imp (hf.above r) (hf.below r)
  refine ⟨fun _ r hr hrlo hrhi => ?_, fun r hr hrlo => ?_⟩
  · have := hout r hr
    omega
  · have := hout r hr
    have := hok.nonempty r hr
    omega

/-! ## A request that is used up -/

/-- The insertion of the empty rest `[rp.hi + 1, stop]` behind a region that contains the
    request.  With coalescing it cuts the region off at `stop`. -/
theorem allocated_insert_empty {s z : UInt64} (hok : RegionsOk ex)
    (hsplit : pre.reverse ++ rp :: rest = ex.exRegions) (hlo : rp.lo ≤ stop.toNat)
    (hhi : stop.toNat ≤ rp.hi) (hs : s.toNat = rp.hi + 1) (hz : s + z = stop + 1)
    (myrp : ExtentRegion) :
    (extentInsertAndOptimize ex s z (rp :: pre) rest myrp).allocated = ex.allocated ↔
      (ex.exfNocoalesce = false → rp.hi ≤ stop.toNat) := by
  have hend : s + (z - 1) = stop := by grind
  obtain ⟨-, hbefore, hafter⟩ := hok.around hsplit
  have hbound := s.toNat_lt
  -- what follows the region starts behind `stop + 1`
  have hnext : ¬ (ex.exfNocoalesce = false ∧ TouchesNext s z rest) := by
    rintro ⟨hnc, next, hnext, heq⟩
    have hgap := hafter next (mem_of_head? hnext)
    rw [gap_eq_one hnc] at hgap
    rw [hz] at heq
    have := congrArg UInt64.toNat heq
    rw [UInt64.toNat_add, UInt64.toNat_one, Nat.mod_eq_of_lt (by omega)] at this
    simp only [ExtentRegion.lo] at hgap
    omega
  have htouch : TouchesAfter s (rp :: pre) := by
    rw [hs] at hbound
    rw [touchesAfter_cons, ← UInt64.toNat_inj, UInt64.toNat_add, UInt64.toNat_one, hs]
    exact Nat.mod_eq_of_lt hbound
  have hold : ∀ x, x ∈ ex.allocated ↔
      x ∈ covered pre.reverse ∨ (rp.lo ≤ x ∧ x ≤ rp.hi) ∨ x ∈ covered rest := by
    intro x
    rw [Extent.allocated, ← hsplit, mem_covered_append, mem_covered_cons]
  have hins := regionInserted ex s z (rp :: pre) rest myrp
  generalize extentInsertAndOptimize ex s z (rp :: pre) rest myrp = ex' at hins ⊢
  cases hins with
  | alone h =>
    have hnc := h.resolve_right fun h => h.1 htouch
    refine iff_of_true ?_ fun h => absurd (hnc.symm.trans h) Bool.noConfusion
    ext x
    rw [hold]
    simp only [Extent.allocated, reverse_cons, append_assoc, singleton_append,
      mem_covered_append, mem_covered_cons, hend, hs]
    -- the new region is empty
    have hempty : ¬ (rp.hi + 1 ≤ x ∧ x ≤ stop.toNat) := by omega
    simp only [hempty, false_or]
  | prepended hnc hpre hrest heq =>
    exact absurd htouch hpre
  | @appended after init hnc hpre heq hrest =>
    cases hpre
    rw [allocated_freeDescriptor]
    have hnew : ∀ x, x ∈ covered (pre.reverse ++ { rp with erEnd := s + (z - 1) } :: rest) ↔
        x ∈ covered pre.reverse ∨ (rp.lo ≤ x ∧ x ≤ stop.toNat) ∨ x ∈ covered rest := by
      intro x
      rw [mem_covered_append, mem_covered_cons, hend]
    constructor
    · intro heq _
      by_contra hcut
      have hmem : rp.hi ∈ ex.allocated := (hold _).2 (.inr (.inl (by omega)))
      rw [← heq] at hmem
      rcases (hnew _).1 hmem with ⟨r, hr, -, hrhi⟩ | h | ⟨r, hr, hrlo, -⟩
      · have := hbefore r (mem_reverse.1 hr)
        omega
      · omega
      · have := hafter r hr
        omega
    · intro hle
      have hsame : rp.hi = stop.toNat := Nat.le_antisymm (hle hnc) hhi
      ext x
      rw [hold, hsame]
      exact hnew x
  | joined hnc hpre heq hrest hnext' =>
    refine absurd ⟨hnc, ?_⟩ hnext
    rw [hrest, touchesNext_cons]
    exact hnext'

theorem regionScan_behind {s : UInt64} (hok : RegionsOk ex)
    (hsplit : pre.reverse ++ rp :: rest = ex.exRegions) (hlo : rp.lo ≤ stop.toNat)
    (hhi : stop.toNat ≤ rp.hi) (hs : s.toNat = rp.hi + 1) :
    regionScan s stop [] ex.exRegions = .clear (rp :: pre) rest := by
  obtain ⟨⟨-, hne, -⟩, hbefore, hafter⟩ := hok.around hsplit
  have hpass : ∀ r ∈ pre.reverse ++ [rp], r.erStart ≤ stop ∧ r.erEnd < s := by
    intro r hr
    rw [UInt64.le_iff_toNat_le, UInt64.lt_iff_toNat_lt, hs]
    rcases mem_append.1 hr with hr | hr
    · have hr := mem_reverse.1 hr
      have := hbefore r hr
      have := hok.nonempty r (by
        rw [← hsplit]
        exact mem_append_left _ (mem_reverse.2 hr))
      simp only [ExtentRegion.lo, ExtentRegion.hi] at *
      omega
    · obtain rfl := mem_singleton.1 hr
      simp only [ExtentRegion.lo, ExtentRegion.hi] at *
      omega
  have hlist : ex.exRegions = (pre.reverse ++ [rp]) ++ rest := by
    rw [← hsplit, append_assoc, singleton_append]
  rw [hlist, regionScan_append hpass, reverse_append, reverse_reverse, append_nil]
  cases rest with
  | nil => rfl
  | cons next rest =>
    have := hafter next (mem_cons_self ..)
    rw [regionScan, if_pos]
    · rfl
    · rw [gt_iff_lt, UInt64.lt_iff_toNat_lt]
      simp only [ExtentRegion.lo] at this
      omega

end Conflict

/-! ## The loop -/

variable {flags : ExtentFlags} {myrp : ExtentRegion} {c : ExtentCall}

theorem allocRegionFrom_clear (h : regionScan start stop [] ex.exRegions = .clear pre rest) :
    extentAllocRegionFrom ex flags myrp start size stop c =
      .ret (extentInsertAndOptimize ex start size pre rest myrp) none none := by
  rw [extentAllocRegionFrom]
  split
  · rename_i h'
    rw [h] at h'
    cases h'
    rfl
  · rename_i h'
    rw [h] at h'
    cases h'

theorem allocRegionFrom_conflict {rp : ExtentRegion}
    (h : regionScan start stop [] ex.exRegions = .conflict pre rp rest)
    (hw : ¬ flags.waitspace = true) (hc : flags.conflictok = true) :
    extentAllocRegionFrom ex flags myrp start size stop c =
      if rp.erStart ≤ start then
        if rp.erEnd < ex.exEnd then
          extentAllocRegionFrom ex flags myrp (rp.erEnd + 1) (stop - (rp.erEnd + 1) + 1) stop c
        else .ret ex none none
      else if rp.erEnd < stop then
        extentAllocRegionFrom
          { extentFreeRegionDescriptor ex rp with exRegions := pre.reverse ++ rest }
          flags myrp start size stop c
      else if rp.erStart < stop then
        if rp.erStart > ex.exStart then
          extentAllocRegionFrom ex flags myrp start (rp.erStart - 1 - start + 1) (rp.erStart - 1) c
        else .ret ex none none
      else .ret ex none none := by
  rw [extentAllocRegionFrom]
  split
  · rename_i h'
    rw [h] at h'
    cases h'
  · rename_i h'
    rw [h] at h'
    cases h'
    rw [if_neg hw, if_pos hc]

theorem ExtentOutcome.AddsIff.congr {o : ExtentOutcome} {target target' : Set Nat}
    {good good' : Prop} (h : o.AddsIff target good) (ht : target = target')
    (hg : good ↔ good') : o.AddsIff target' good' := by
  subst ht
  obtain ⟨ex', ho, hiff⟩ := h
  exact ⟨ex', ho, hiff.trans hg⟩

theorem regionsOk_removed {rp : ExtentRegion} (hok : RegionsOk ex)
    (hsplit : pre.reverse ++ rp :: rest = ex.exRegions) :
    RegionsOk { extentFreeRegionDescriptor ex rp with exRegions := pre.reverse ++ rest } := by
  have hsame := sameRegions_freeDescriptor ex rp
  have hplaced : PlacedIn ex.exStart.toNat ex.exEnd.toNat ex.gap (pre.reverse ++ rp :: rest) := by
    rw [hsplit]
    exact hok
  show PlacedIn _ _ (if (extentFreeRegionDescriptor ex rp).exfNocoalesce then 0 else 1) _
  rw [hsame.start, hsame.stop, hsame.nocoalesce]
  exact hplaced.free_whole

/-- What a request that is not used up adds.  The induction follows the restarts; each of
    them keeps the addresses that should be allocated in the end, and whether they will be. -/
theorem allocRegionFrom_adds (hw : ¬ flags.waitspace = true) (hc : flags.conflictok = true)
    (hok : RegionsOk ex) (hr : Request ex start size stop) :
    (extentAllocRegionFrom ex flags myrp start size stop c).AddsIff (ex.plus start stop)
      (AddsCleanly ex start stop) := by
  induction ex, start, size, stop using extentAllocRegionFrom.induct flags with
  | case1 ex start size stop pre rest hscan =>
    have hfits := fitsAt_of_clear hok hr hscan
    refine ⟨_, allocRegionFrom_clear hscan, iff_of_true ?_ (cleanly_of_clear hok hr hfits)⟩
    rw [allocated_insert hok hfits, hr.last]
    rfl
  | case2 ex start size stop pre rp rest hscan hws => exact absurd hws hw
  | case3 ex start size stop pre rp rest hscan _ _ hlo hend ih =>
    have hf := firstConflict_of_scan hscan
    have hlo' := UInt64.le_iff_toNat_le.1 hlo
    have hend' := UInt64.lt_iff_toNat_lt.1 hend
    have hbound := ex.exEnd.toNat_lt
    have hstart' : (rp.erEnd + 1).toNat = rp.hi + 1 := by
      rw [UInt64.toNat_add, UInt64.toNat_one]
      exact Nat.mod_eq_of_lt (by omega)
    have hstart := hr.last
    have hlower := hr.lower
    have hends := hf.ends
    rw [allocRegionFrom_conflict hscan hw hc, if_pos hlo, if_pos hend]
    rcases Nat.lt_or_ge rp.hi stop.toNat with hover | hinside
    · -- the rest of the request lies behind the region
      obtain ⟨hclean, hplus⟩ := hf.cleanly_behind hok hlo' hover hstart'
      have hrest : Request ex (rp.erEnd + 1) (stop - (rp.erEnd + 1) + 1) stop := by
        have := stop.toNat_lt
        exact .of_range (by omega) (by omega) (by omega) hr.upper
      exact (ih hok hrest).congr hplus hclean
    · -- the region contains the request, whose rest is empty
      have hz : rp.erEnd + 1 + (stop - (rp.erEnd + 1) + 1) = stop + 1 := by grind
      have hscan' := regionScan_behind hok hf.split hf.starts hinside hstart'
      refine ⟨_, allocRegionFrom_clear hscan', ?_⟩
      rw [plus_inside hf.mem hlo' hinside, hf.cleanly_inside hok (by omega) hlo' hinside,
        allocated_insert_empty hok hf.split hf.starts hinside hstart' hz]
      refine imp_congr_right fun _ => ⟨fun h hlt => absurd hlt (by omega), fun h => ?_⟩
      by_contra hlt
      have := h (by omega)
      simp only [ExtentRegion.hi] at this
      omega
  | case4 ex start size stop pre rp rest hscan _ _ hlo hend =>
    have hf := firstConflict_of_scan hscan
    have hlo' := UInt64.le_iff_toNat_le.1 hlo
    have hend' := UInt64.le_iff_toNat_le.1 (UInt64.not_lt.1 hend)
    have hupper := hr.upper
    have hlast := hr.last
    have hinside : stop.toNat ≤ rp.hi := Nat.le_trans hupper hend'
    rw [allocRegionFrom_conflict hscan hw hc, if_pos hlo, if_neg hend]
    refine ⟨ex, rfl, iff_of_true (plus_inside hf.mem hlo' hinside).symm ?_⟩
    rw [hf.cleanly_inside hok (by omega) hlo' hinside]
    exact fun _ _ => hend'
  | case5 ex start size stop pre rp rest hscan _ _ hlo hhi ih =>
    have hf := firstConflict_of_scan hscan
    have hlo' := UInt64.lt_iff_toNat_lt.1 (UInt64.not_le.1 hlo)
    have hsame := sameRegions_freeDescriptor ex rp
    rw [allocRegionFrom_conflict hscan hw hc, if_neg hlo, if_pos hhi]
    obtain ⟨hclean, hplus⟩ := @FirstConflict.cleanly_removed ex start stop pre rest rp
      { extentFreeRegionDescriptor ex rp with exRegions := pre.reverse ++ rest } hok hf hlo'
      (UInt64.lt_iff_toNat_lt.1 hhi) rfl hsame.nocoalesce hsame.stop
    refine (ih (regionsOk_removed hok hf.split) ⟨hr.pos, hr.last, ?_, ?_⟩).congr hplus hclean
    · show (extentFreeRegionDescriptor ex rp).exStart.toNat ≤ _
      rw [hsame.start]
      exact hr.lower
    · show _ ≤ (extentFreeRegionDescriptor ex rp).exEnd.toNat
      rw [hsame.stop]
      exact hr.upper
  | case6 ex start size stop pre rp rest hscan _ _ hlo hhi hlt hgt ih =>
    have hf := firstConflict_of_scan hscan
    have hlo' := UInt64.lt_iff_toNat_lt.1 (UInt64.not_le.1 hlo)
    have hhi' := UInt64.le_iff_toNat_le.1 (UInt64.not_lt.1 hhi)
    have hlt' := UInt64.lt_iff_toNat_lt.1 hlt
    have hone : (1 : UInt64) ≤ rp.erStart := by
      rw [UInt64.le_iff_toNat_le, UInt64.toNat_one]
      omega
    have hstop' : (rp.erStart - 1).toNat = rp.erStart.toNat - 1 := by
      rw [UInt64.toNat_sub_of_le _ _ hone, UInt64.toNat_one]
    have hupper := hr.upper
    have hbound := rp.erStart.toNat_lt
    rw [allocRegionFrom_conflict hscan hw hc, if_neg hlo, if_neg hhi, if_pos hlt, if_pos hgt]
    obtain ⟨hclean, hplus⟩ := @FirstConflict.cleanly_before ex start stop pre rest rp
      (rp.erStart - 1) hok hf hlo' hlt' hhi' (by simp only [ExtentRegion.lo]; omega)
    have hrest : Request ex start (rp.erStart - 1 - start + 1) (rp.erStart - 1) :=
      .of_range (by omega) (by omega) hr.lower (by omega)
    exact (ih hok hrest).congr hplus hclean
  | case7 ex start size stop pre rp rest hscan _ _ hlo hhi hlt hgt =>
    -- a region behind the start of the request lies behind the start of the extent
    have hlo' := UInt64.lt_iff_toNat_lt.1 (UInt64.not_le.1 hlo)
    have hgt' := UInt64.le_iff_toNat_le.1 (UInt64.not_lt.1 hgt)
    have hlower := hr.lower
    omega
  | case8 ex start size stop pre rp rest hscan _ _ hlo hhi hlt =>
    have hf := firstConflict_of_scan hscan
    have hlo' := UInt64.lt_iff_toNat_lt.1 (UInt64.not_le.1 hlo)
    have hlast : rp.lo = stop.toNat :=
      Nat.le_antisymm hf.starts (UInt64.le_iff_toNat_le.1 (UInt64.not_lt.1 hlt))
    obtain ⟨hclean, hneq⟩ := hf.not_cleanly_last hok hlo' hlast
    rw [allocRegionFrom_conflict hscan hw hc, if_neg hlo, if_neg hhi, if_neg hlt]
    exact ⟨ex, rfl, iff_of_false hneq hclean⟩
  | case9 ex start size stop pre rp rest hscan _ hnc => exact absurd hc hnc

/-! ## The call -/

/-- `extent_alloc_region` on `ex` returns 0 and leaves `ex'`, at once or in a thread that has
    slept in it. -/
def RegionReturns (ex : Extent) (c : ExtentCall) (ex' : Extent) : Prop :=
  (∃ mem result, c.run ex mem = .ret ex' none result) ∨
    ∃ who intr mem result, Sleeper.call who = c ∧ who.wake ex intr mem = .ret ex' none result

variable {ex' : Extent}

theorem resume_descriptor {mem : Bool} {result : Option UInt64}
    (h : (ExtentCall.allocRegion start size flags).resume ex mem = .ret ex' none result) :
    ∃ ex₁ rp, SameRegions ex ex₁ ∧
      (ExtentCall.allocRegion start size flags).withDescriptor ex₁ rp = .ret ex' none result := by
  unfold ExtentCall.resume at h
  dsimp only at h
  split at h
  · rename_i ex₁ rp hgot
    exact ⟨ex₁, rp, sameRegions_got hgot, h⟩
  · cases h
  · cases h

theorem RegionReturns.descriptor (h : RegionReturns ex (.allocRegion start size flags) ex') :
    ∃ ex₁ rp result, SameRegions ex ex₁ ∧
      (ExtentCall.allocRegion start size flags).withDescriptor ex₁ rp = .ret ex' none result := by
  rcases h with ⟨mem, result, h⟩ | ⟨who, intr, mem, result, hcall, h⟩
  · unfold ExtentCall.run at h
    split at h
    · obtain ⟨ex₁, rp, hsame, h⟩ := resume_descriptor h
      exact ⟨ex₁, rp, result, hsame, h⟩
    · cases h
  · cases who with
    | freelist c =>
      obtain rfl : c = .allocRegion start size flags := hcall
      unfold Sleeper.wake at h
      dsimp only at h
      split at h
      · cases h
      · obtain ⟨ex₁, rp, hsame, h⟩ := resume_descriptor h
        exact ⟨ex₁, rp, result, hsame, h⟩
    | space c rp =>
      obtain rfl : c = .allocRegion start size flags := hcall
      unfold Sleeper.wake at h
      dsimp only at h
      split at h
      · cases h
      · exact ⟨ex, rp, result, SameRegions.refl ex, h⟩

theorem SameRegions.cleanly_iff (h : SameRegions ex ex') :
    AddsCleanly ex' start stop ↔ AddsCleanly ex start stop := by
  constructor
  · rintro ⟨hin, hlast⟩
    rw [h.regions, h.stop, h.nocoalesce] at hin
    rw [h.regions, h.allocated_eq] at hlast
    exact ⟨hin, hlast⟩
  · rintro ⟨hin, hlast⟩
    rw [← h.regions, ← h.stop, ← h.nocoalesce] at hin
    rw [← h.regions, ← h.allocated_eq] at hlast
    exact ⟨hin, hlast⟩

theorem withDescriptor_adds (hok : RegionsOk ex)
    (hcheck : (ExtentCall.allocRegion start size flags).check ex = true)
    (hc : flags.conflictok = true) (rp : ExtentRegion) :
    ((ExtentCall.allocRegion start size flags).withDescriptor ex rp).AddsIff
      (ex.plus start (start + (size - 1))) (AddsCleanly ex start (start + (size - 1))) := by
  obtain ⟨hpos, hlast, hlower, hupper⟩ := allocRegion_check hcheck
  have hw : ¬ flags.waitspace = true := by
    intro hws
    simp [ExtentCall.check, hws, hc] at hcheck
  exact allocRegionFrom_adds hw hc hok ⟨hpos, hlast.symm, hlower, by omega⟩

end

/-- With `EX_CONFLICTOK` a call that has its descriptor returns 0, and it adds exactly the
    request where the request does not end inside a larger region and does not end with the
    first address of a region. -/
theorem allocRegion_conflictok_iff {ex : Extent} {start size : UInt64} {flags : ExtentFlags}
    (hok : RegionsOk ex)
    (hcheck : (ExtentCall.allocRegion start size flags).check ex = true)
    (hc : flags.conflictok = true) :
    ((∀ rp, ∃ ex', (ExtentCall.allocRegion start size flags).withDescriptor ex rp
          = .ret ex' none none) ∧
        ∀ ex', RegionReturns ex (.allocRegion start size flags) ex' →
          ex'.allocated = ex.allocated ∪ Set.Icc start.toNat (start + (size - 1)).toNat) ↔
      AddsCleanly ex start (start + (size - 1)) := by
  constructor
  · rintro ⟨-, hall⟩
    obtain ⟨ex', hret, hiff⟩ := withDescriptor_adds hok hcheck hc ⟨0, 0, true, false⟩
    refine hiff.1 (hall ex' (.inr ⟨.space (.allocRegion start size flags) ⟨0, 0, true, false⟩,
      false, false, none, rfl, ?_⟩))
    exact hret
  · intro hclean
    refine ⟨fun rp => ?_, fun ex' hret => ?_⟩
    · obtain ⟨ex', hret, -⟩ := withDescriptor_adds hok hcheck hc rp
      exact ⟨ex', hret⟩
    · obtain ⟨ex₁, rp, result, hsame, hret⟩ := hret.descriptor
      have hcheck₁ : (ExtentCall.allocRegion start size flags).check ex₁ = true := by
        rw [check_congr hsame.start hsame.stop]
        exact hcheck
      obtain ⟨ex₂, hret₂, hiff⟩ := withDescriptor_adds (hsame.regionsOk hok) hcheck₁ hc rp
      rw [hret] at hret₂
      cases hret₂
      rw [hiff.2 (hsame.cleanly_iff.2 hclean), Extent.plus, hsame.allocated_eq]

/-- 16 addresses from 8 on, over the end of one region and the start of another. -/
theorem allocRegion_conflictok_between : ∃ ex',
    RegionReturns ⟨[⟨0, 9, true, false⟩, ⟨20, 29, true, false⟩], 0, 99, false, false, false, false,
        []⟩ (.allocRegion 8 16 { conflictok := true }) ex' ∧
      ex'.allocated = Extent.allocated ⟨[⟨0, 9, true, false⟩, ⟨20, 29, true, false⟩], 0, 99, false,
        false, false, false, []⟩ ∪ Set.Icc 8 23 := by
  have hok : RegionsOk ⟨[⟨0, 9, true, false⟩, ⟨20, 29, true, false⟩], 0, 99, false, false, false,
      false, []⟩ := ⟨by decide, by decide, pairwise_pair.2 (by decide)⟩
  have hclean : AddsCleanly ⟨[⟨0, 9, true, false⟩, ⟨20, 29, true, false⟩], 0, 99, false, false,
      false, false, []⟩ 8 (8 + (16 - 1)) := by
    refine ⟨fun _ => by decide, fun r hr hlo => absurd hlo ?_⟩
    rcases mem_pair.1 hr with rfl | rfl <;> decide
  have hadds := (@allocRegion_conflictok_iff _ 8 16 { conflictok := true } hok (by decide) rfl).2
    hclean
  obtain ⟨ex', hret⟩ := hadds.1 ⟨0, 0, true, false⟩
  have hreturns : RegionReturns ⟨[⟨0, 9, true, false⟩, ⟨20, 29, true, false⟩], 0, 99, false, false,
      false, false, []⟩ (.allocRegion 8 16 { conflictok := true }) ex' :=
    .inl ⟨true, none, hret⟩
  exact ⟨ex', hreturns, hadds.2 ex' hreturns⟩

/-- Ten addresses inside `[10, 50]`: the region is cut off at 29, so 50 is free afterwards. -/
theorem allocRegion_cuts_region : ∃ ex',
    RegionsOk ⟨[⟨10, 50, true, false⟩], 0, 99, false, false, false, false, []⟩ ∧
      (ExtentCall.allocRegion 20 10 { conflictok := true }).run
        ⟨[⟨10, 50, true, false⟩], 0, 99, false, false, false, false, []⟩ true
        = .ret ex' none none ∧
      ex'.allocated ≠ Extent.allocated ⟨[⟨10, 50, true, false⟩], 0, 99, false, false, false, false,
        []⟩ ∪ Set.Icc 20 29 := by
  refine ⟨⟨[⟨10, 29, true, false⟩], 0, 99, false, false, false, false, []⟩,
    ⟨by decide, by decide, pairwise_singleton ..⟩, ?_, fun h => ?_⟩
  · have hscan : regionScan 20 (20 + (10 - 1)) [] [⟨10, 50, true, false⟩]
        = .conflict [] ⟨10, 50, true, false⟩ [] := rfl
    -- the rest of the request is [51, 29]
    have hscan' : regionScan (50 + 1) (20 + (10 - 1)) [] [⟨10, 50, true, false⟩]
        = .clear [⟨10, 50, true, false⟩] [] := rfl
    show extentAllocRegionFrom ⟨[⟨10, 50, true, false⟩], 0, 99, false, false, false, false, []⟩ _ _
      20 10 (20 + (10 - 1)) _ = _
    rw [allocRegionFrom_conflict hscan (by decide) rfl, if_pos (by decide), if_pos (by decide),
      allocRegionFrom_clear hscan']
    decide
  · have hmem : 50 ∈ Extent.allocated ⟨[⟨10, 50, true, false⟩], 0, 99, false, false, false, false,
        []⟩ := ⟨_, mem_cons_self .., by decide, by decide⟩
    have hcut : 50 ∈ Extent.allocated ⟨[⟨10, 29, true, false⟩], 0, 99, false, false, false, false,
        []⟩ := by
      rw [h]
      exact .inl hmem
    obtain ⟨r, hr, -, hhi⟩ := hcut
    obtain rfl := mem_singleton.1 hr
    exact absurd hhi (by decide)

end OpenBsd.Kern
