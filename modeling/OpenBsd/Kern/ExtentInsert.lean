/-
  OpenBsd.Kern.ExtentInsert

  The order of the region list of an extent map, and why
  `extent_insert_and_optimize` keeps it when the request lies in the gap it is
  inserted into.
-/

import OpenBsd.Lib.Intervals
import OpenBsd.Kern.Extent

namespace OpenBsd.Kern

open OpenBsd.Lib List

variable {a b g : Nat} {mid : List ExtentRegion} {r : ExtentRegion} {ex ex' : Extent}

/-! ## The invariant -/

abbrev ExtentRegion.lo (r : ExtentRegion) : Nat := r.erStart.toNat

abbrev ExtentRegion.hi (r : ExtentRegion) : Nat := r.erEnd.toNat

/-- Regions inside `[a, b]`, none empty, in increasing order and more than `g`
    apart. -/
structure PlacedIn (a b g : Nat) (l : List ExtentRegion) : Prop where
  nonempty : ∀ r ∈ l, r.lo ≤ r.hi
  inside : ∀ r ∈ l, a ≤ r.lo ∧ r.hi ≤ b
  separated : Separated ExtentRegion.lo ExtentRegion.hi g l

/-- Neighbours may touch only where coalescing is off. -/
def Extent.gap (ex : Extent) : Nat := if ex.exfNocoalesce then 0 else 1

/-- The region list is strictly sorted, its regions are non-empty, disjoint and
    inside the extent, and without `EXF_NOCOALESCE` no two of them touch. -/
def RegionsOk (ex : Extent) : Prop :=
  PlacedIn ex.exStart.toNat ex.exEnd.toNat ex.gap ex.exRegions

theorem PlacedIn.replace {pre mid' rest : List ExtentRegion}
    (h : PlacedIn a b g (pre ++ (mid ++ rest))) (hmid : PlacedIn a b g mid')
    (hlo : ∀ r ∈ mid', ∀ l ∈ pre, l.hi + g < r.lo) (hhi : ∀ r ∈ mid', ∀ n ∈ rest, r.hi + g < n.lo) :
    PlacedIn a b g (pre ++ (mid' ++ rest)) := by
  have hmem : ∀ r ∈ pre ++ (mid' ++ rest), r ∈ mid' ∨ r ∈ pre ++ (mid ++ rest) := by
    intro r hr
    simp only [mem_append] at hr ⊢
    tauto
  refine ⟨fun r hr => ?_, fun r hr => ?_, pairwise_replace h.separated hmid.separated hlo hhi⟩
  · exact (hmem r hr).elim (hmid.nonempty r) (h.nonempty r)
  · exact (hmem r hr).elim (hmid.inside r) (h.inside r)

theorem PlacedIn.singleton (hne : r.lo ≤ r.hi) (ha : a ≤ r.lo) (hb : r.hi ≤ b) :
    PlacedIn a b g [r] := by
  refine ⟨fun x hx => ?_, fun x hx => ?_, pairwise_singleton ..⟩
  · rw [mem_singleton.mp hx]
    exact hne
  · rw [mem_singleton.mp hx]
    exact ⟨ha, hb⟩

theorem PlacedIn.replace_one {pre rest : List ExtentRegion}
    (h : PlacedIn a b g (pre ++ (mid ++ rest))) (hr : a ≤ r.lo ∧ r.lo ≤ r.hi ∧ r.hi ≤ b)
    (hlo : ∀ l ∈ pre, l.hi + g < r.lo) (hhi : ∀ n ∈ rest, r.hi + g < n.lo) :
    PlacedIn a b g (pre ++ r :: rest) := by
  apply h.replace (PlacedIn.singleton hr.2.1 hr.1 hr.2.2)
  · intro x hx
    rw [mem_singleton.mp hx]
    exact hlo
  · intro x hx
    rw [mem_singleton.mp hx]
    exact hhi

/-- Two entries in the place of `mid`, the first starting and the second ending
    where the sides allow it. -/
theorem PlacedIn.replace_two {pre rest : List ExtentRegion} {r' : ExtentRegion}
    (h : PlacedIn a b g (pre ++ (mid ++ rest))) (hr : a ≤ r.lo ∧ r.lo ≤ r.hi)
    (hr' : r'.lo ≤ r'.hi ∧ r'.hi ≤ b) (hrr' : r.hi + g < r'.lo) (hlo : ∀ l ∈ pre, l.hi + g < r.lo)
    (hhi : ∀ n ∈ rest, r'.hi + g < n.lo) : PlacedIn a b g (pre ++ r :: r' :: rest) := by
  -- the two pieces among themselves, then against both sides
  have hboth : PlacedIn a b g [r, r'] := by
    refine ⟨fun x hx => ?_, fun x hx => ?_, ?_⟩
    · rcases mem_pair.mp hx with rfl | rfl
      · exact hr.2
      · exact hr'.1
    · rcases mem_pair.mp hx with rfl | rfl
      · exact ⟨hr.1, by omega⟩
      · exact ⟨by omega, hr'.2⟩
    · exact pairwise_pair.mpr hrr'
  apply h.replace hboth
  · intro x hx l hl
    have := hlo l hl
    rcases mem_pair.mp hx with rfl | rfl <;> omega
  · intro x hx n hn
    have := hhi n hn
    rcases mem_pair.mp hx with rfl | rfl <;> omega

theorem PlacedIn.around {pre rest : List ExtentRegion} (h : PlacedIn a b g (pre ++ r :: rest)) :
    (a ≤ r.lo ∧ r.lo ≤ r.hi ∧ r.hi ≤ b) ∧ (∀ l ∈ pre, l.hi + g < r.lo) ∧
      ∀ n ∈ rest, r.hi + g < n.lo := by
  have hmem : r ∈ pre ++ r :: rest := mem_append_right _ (mem_cons_self ..)
  obtain ⟨-, hrest, hcross⟩ := separated_append.mp h.separated
  refine ⟨⟨(h.inside r hmem).1, h.nonempty r hmem, (h.inside r hmem).2⟩, fun l hl => ?_, ?_⟩
  · exact hcross l hl r (mem_cons_self ..)
  · exact (pairwise_cons.mp hrest).1

/-! ## Descriptors do not touch the list -/

/-- The fields the invariant reads. -/
structure SameRegions (ex ex' : Extent) : Prop where
  regions : ex'.exRegions = ex.exRegions
  start : ex'.exStart = ex.exStart
  stop : ex'.exEnd = ex.exEnd
  nocoalesce : ex'.exfNocoalesce = ex.exfNocoalesce

theorem SameRegions.refl (ex : Extent) : SameRegions ex ex := ⟨rfl, rfl, rfl, rfl⟩

theorem SameRegions.trans {ex'' : Extent} (h : SameRegions ex ex') (h' : SameRegions ex' ex'') :
    SameRegions ex ex'' :=
  ⟨h'.regions.trans h.regions, h'.start.trans h.start, h'.stop.trans h.stop,
    h'.nocoalesce.trans h.nocoalesce⟩

theorem SameRegions.regionsOk (h : SameRegions ex ex') (hok : RegionsOk ex) : RegionsOk ex' := by
  rw [RegionsOk, Extent.gap, h.regions, h.start, h.stop, h.nocoalesce]
  exact hok

theorem sameRegions_freeDescriptor (ex : Extent) (rp : ExtentRegion) :
    SameRegions ex (extentFreeRegionDescriptor ex rp) := by
  unfold extentFreeRegionDescriptor
  split_ifs <;> exact ⟨rfl, rfl, rfl, rfl⟩

theorem sameRegions_freeDescriptors (freed : List ExtentRegion) (ex : Extent) :
    SameRegions ex (freed.foldl extentFreeRegionDescriptor ex) := by
  induction freed generalizing ex with
  | nil => exact SameRegions.refl ex
  | cons rp freed ih => exact (sameRegions_freeDescriptor ex rp).trans (ih _)

variable {mem : Bool} {flags : ExtentFlags}

theorem sameRegions_got {rp : ExtentRegion}
    (h : extentAllocRegionDescriptor ex flags mem = .got ex' rp) : SameRegions ex ex' := by
  have hpool : ∀ ex', poolGet ex flags mem = .got ex' rp → SameRegions ex ex' := by
    intro ex' h
    unfold poolGet at h
    split at h
    · cases h
      exact SameRegions.refl ex
    · cases h
  -- a fixed extent takes from its freelist first
  unfold extentAllocRegionDescriptor at h
  split at h
  · split at h
    · split at h
      · exact hpool _ h
      · split at h <;> cases h
    · cases h
      exact ⟨rfl, rfl, rfl, rfl⟩
  · exact hpool _ h

theorem sameRegions_sleep
    (h : extentAllocRegionDescriptor ex flags mem = .sleep ex') : SameRegions ex ex' := by
  have hpool : poolGet ex flags mem ≠ .sleep ex' := by
    unfold poolGet
    split <;> exact DescriptorResult.noConfusion
  unfold extentAllocRegionDescriptor at h
  split at h
  · split at h
    · split at h
      · exact absurd h hpool
      · split at h
        · cases h
        · cases h
          exact ⟨rfl, rfl, rfl, rfl⟩
    · cases h
  · exact absurd h hpool

/-! ## Insertion -/

/-- A request `[start, start + size - 1]` in the gap between `pre` and `rest`. -/
structure FitsAt (ex : Extent) (start size : UInt64) (pre rest : List ExtentRegion) : Prop where
  split : pre.reverse ++ rest = ex.exRegions
  pos : 1 ≤ size.toNat
  lower : ex.exStart.toNat ≤ start.toNat
  upper : start.toNat + (size.toNat - 1) ≤ ex.exEnd.toNat
  above : ∀ r ∈ pre, r.hi < start.toNat
  below : ∀ r ∈ rest, start.toNat + (size.toNat - 1) < r.lo

theorem toNat_last {start size : UInt64} (hpos : 1 ≤ size.toNat)
    (hle : start.toNat + (size.toNat - 1) < 2 ^ 64) :
    (start + (size - 1)).toNat = start.toNat + (size.toNat - 1) := by
  have hone : (1 : UInt64) ≤ size := UInt64.le_iff_toNat_le.mpr hpos
  rw [UInt64.toNat_add, UInt64.toNat_sub_of_le _ _ hone, UInt64.toNat_one]
  exact Nat.mod_eq_of_lt hle

theorem touches_next {start size : UInt64} {next : ExtentRegion} (hpos : 1 ≤ size.toNat)
    (hlt : start.toNat + (size.toNat - 1) < next.lo) :
    (start + size == next.erStart) = true ↔ start.toNat + (size.toNat - 1) + 1 = next.lo := by
  have hbound := next.erStart.toNat_lt
  simp only [ExtentRegion.lo] at hlt
  rw [beq_iff_eq, ← UInt64.toNat_inj, UInt64.toNat_add, Nat.mod_eq_of_lt (by omega)]
  simp only [ExtentRegion.lo]
  omega

theorem touches_after {start : UInt64} {after : ExtentRegion} (hlt : after.hi < start.toNat) :
    (after.erEnd + 1 == start) = true ↔ after.hi + 1 = start.toNat := by
  have hbound := start.toNat_lt
  simp only [ExtentRegion.hi] at hlt
  rw [beq_iff_eq, ← UInt64.toNat_inj, UInt64.toNat_add, UInt64.toNat_one,
    Nat.mod_eq_of_lt (by omega)]

theorem FitsAt.apart_above {start size : UInt64} {after : ExtentRegion}
    {pre rest : List ExtentRegion} (hok : RegionsOk ex)
    (hf : FitsAt ex start size (after :: pre) rest) (hne : after.hi + 1 ≠ start.toNat) :
    ∀ l ∈ (after :: pre).reverse, l.hi + 1 < start.toNat := by
  have hplaced : PlacedIn ex.exStart.toNat ex.exEnd.toNat ex.gap
      (pre.reverse ++ after :: rest) := by
    have hsplit := hf.split
    rw [reverse_cons, append_assoc, singleton_append] at hsplit
    rw [hsplit]
    exact hok
  have hlast := hf.above after (mem_cons_self ..)
  obtain ⟨⟨-, hle, -⟩, hbefore, -⟩ := hplaced.around
  intro l hl
  rw [reverse_cons, mem_append, mem_singleton] at hl
  -- the nearest region below does not touch, the others are below it
  rcases hl with hl | rfl
  · have := hbefore l hl
    omega
  · omega

theorem FitsAt.apart_below {start size : UInt64} {next : ExtentRegion}
    {pre rest : List ExtentRegion} (hok : RegionsOk ex)
    (hf : FitsAt ex start size pre (next :: rest))
    (hne : start.toNat + (size.toNat - 1) + 1 ≠ next.lo) :
    ∀ n ∈ next :: rest, start.toNat + (size.toNat - 1) + 1 < n.lo := by
  have hplaced : PlacedIn ex.exStart.toNat ex.exEnd.toNat ex.gap (pre.reverse ++ next :: rest) := by
    rw [hf.split]
    exact hok
  have hfirst := hf.below next (mem_cons_self ..)
  obtain ⟨⟨-, hle, -⟩, -, hafter⟩ := hplaced.around
  intro n hn
  -- the nearest region above does not touch, the others are above it
  rcases mem_cons.mp hn with rfl | hn
  · omega
  · have := hafter n hn
    omega

section

variable {start size : UInt64} {pre rest : List ExtentRegion}

theorem FitsAt.placed_new (hok : RegionsOk ex) (hf : FitsAt ex start size pre rest)
    (rp : ExtentRegion) (hlo : ∀ l ∈ pre.reverse, l.hi + ex.gap < start.toNat)
    (hhi : ∀ n ∈ rest, start.toNat + (size.toNat - 1) + ex.gap < n.lo) :
    PlacedIn ex.exStart.toNat ex.exEnd.toNat ex.gap
      (pre.reverse ++ { rp with erStart := start, erEnd := start + (size - 1) } :: rest) := by
  have hupper := hf.upper
  have hlast := toNat_last hf.pos (Nat.lt_of_le_of_lt hf.upper ex.exEnd.toNat_lt)
  -- nothing of the list is replaced
  have hplaced : PlacedIn ex.exStart.toNat ex.exEnd.toNat ex.gap (pre.reverse ++ ([] ++ rest)) := by
    rw [nil_append, hf.split]
    exact hok
  apply hplaced.replace_one
  · simp only [ExtentRegion.lo, ExtentRegion.hi, hlast]
    exact ⟨hf.lower, Nat.le_add_right .., hf.upper⟩
  · exact hlo
  · intro n hn
    simp only [ExtentRegion.hi, hlast]
    exact hhi n hn

theorem FitsAt.placed_prepend {next : ExtentRegion} (hok : RegionsOk ex)
    (hf : FitsAt ex start size pre (next :: rest))
    (hlo : ∀ l ∈ pre.reverse, l.hi + ex.gap < start.toNat) :
    PlacedIn ex.exStart.toNat ex.exEnd.toNat ex.gap
      (pre.reverse ++ { next with erStart := start } :: rest) := by
  have hplaced : PlacedIn ex.exStart.toNat ex.exEnd.toNat ex.gap
      (pre.reverse ++ ([next] ++ rest)) := by
    rw [singleton_append, hf.split]
    exact hok
  have hbelow := hf.below next (mem_cons_self ..)
  obtain ⟨⟨-, hle, hin⟩, -, hafter⟩ := hplaced.around
  have hlower := hf.lower
  apply hplaced.replace_one
  · simp only [ExtentRegion.lo, ExtentRegion.hi] at *
    omega
  · exact hlo
  · exact hafter

theorem FitsAt.placed_append {after : ExtentRegion} (hok : RegionsOk ex)
    (hf : FitsAt ex start size (after :: pre) rest)
    (hhi : ∀ n ∈ rest, start.toNat + (size.toNat - 1) + ex.gap < n.lo) :
    PlacedIn ex.exStart.toNat ex.exEnd.toNat ex.gap
      (pre.reverse ++ { after with erEnd := start + (size - 1) } :: rest) := by
  have hlast := toNat_last hf.pos (Nat.lt_of_le_of_lt hf.upper ex.exEnd.toNat_lt)
  have hplaced : PlacedIn ex.exStart.toNat ex.exEnd.toNat ex.gap
      (pre.reverse ++ ([after] ++ rest)) := by
    have hsplit := hf.split
    rw [reverse_cons, append_assoc] at hsplit
    rw [hsplit]
    exact hok
  have habove := hf.above after (mem_cons_self ..)
  obtain ⟨⟨hin, hle, -⟩, hbefore, -⟩ := hplaced.around
  have hupper := hf.upper
  apply hplaced.replace_one
  · simp only [ExtentRegion.lo, ExtentRegion.hi, hlast] at *
    omega
  · exact hbefore
  · intro n hn
    simp only [ExtentRegion.hi, hlast]
    exact hhi n hn

theorem FitsAt.placed_join {after next : ExtentRegion} (hok : RegionsOk ex)
    (hf : FitsAt ex start size (after :: pre) (next :: rest)) :
    PlacedIn ex.exStart.toNat ex.exEnd.toNat ex.gap
      (pre.reverse ++ { after with erEnd := next.erEnd } :: rest) := by
  have hsplit : pre.reverse ++ after :: next :: rest = ex.exRegions := by
    have hsplit := hf.split
    rwa [reverse_cons, append_assoc, singleton_append] at hsplit
  have hplaced : PlacedIn ex.exStart.toNat ex.exEnd.toNat ex.gap
      (pre.reverse ++ ([after, next] ++ rest)) := by
    rw [cons_append, singleton_append, hsplit]
    exact hok
  -- the region above, seen from its own place in the list
  have hnext : PlacedIn ex.exStart.toNat ex.exEnd.toNat ex.gap
      ((after :: pre).reverse ++ next :: rest) := by
    rw [hf.split]
    exact hok
  have habove := hf.above after (mem_cons_self ..)
  have hbelow := hf.below next (mem_cons_self ..)
  obtain ⟨⟨hin, hle, -⟩, hbefore, -⟩ := hplaced.around
  obtain ⟨⟨-, hle', hin'⟩, -, hafter⟩ := hnext.around
  apply hplaced.replace_one
  · simp only [ExtentRegion.lo, ExtentRegion.hi] at *
    omega
  · exact hbefore
  · exact hafter

end

/-- The region `after` before the request ends where it starts. -/
def TouchesAfter (start : UInt64) (pre : List ExtentRegion) : Prop :=
  ∃ after ∈ pre.head?, after.erEnd + 1 = start

/-- The region behind the request starts where it ends. -/
def TouchesNext (start size : UInt64) (rest : List ExtentRegion) : Prop :=
  ∃ next ∈ rest.head?, start + size = next.erStart

/-- What `extent_insert_and_optimize` can do: one shape of the new list for each answer to
    "does the region before touch" and "does the region behind touch". -/
inductive RegionInserted (ex : Extent) (start size : UInt64) (pre rest : List ExtentRegion)
    (rp : ExtentRegion) : Extent → Prop where
  | alone
      (h : ex.exfNocoalesce = true ∨ (¬ TouchesAfter start pre ∧ ¬ TouchesNext start size rest)) :
      RegionInserted ex start size pre rest rp
        { ex with
          exRegions :=
            pre.reverse ++ { rp with erStart := start, erEnd := start + (size - 1) } :: rest }
  | prepended {next : ExtentRegion} {tail : List ExtentRegion} (hnc : ex.exfNocoalesce = false)
      (hafter : ¬ TouchesAfter start pre) (hrest : rest = next :: tail)
      (hnext : start + size = next.erStart) :
      RegionInserted ex start size pre rest rp
        (extentFreeRegionDescriptor
          { ex with exRegions := pre.reverse ++ { next with erStart := start } :: tail } rp)
  | appended {after : ExtentRegion} {init : List ExtentRegion} (hnc : ex.exfNocoalesce = false)
      (hpre : pre = after :: init) (hafter : after.erEnd + 1 = start)
      (hnext : ¬ TouchesNext start size rest) :
      RegionInserted ex start size pre rest rp
        (extentFreeRegionDescriptor
          { ex with
            exRegions := init.reverse ++ { after with erEnd := start + (size - 1) } :: rest } rp)
  | joined {after next : ExtentRegion} {init tail : List ExtentRegion}
      (hnc : ex.exfNocoalesce = false) (hpre : pre = after :: init)
      (hafter : after.erEnd + 1 = start) (hrest : rest = next :: tail)
      (hnext : start + size = next.erStart) :
      RegionInserted ex start size pre rest rp
        (extentFreeRegionDescriptor
          (extentFreeRegionDescriptor
            { ex with
              exRegions := init.reverse ++ { after with erEnd := next.erEnd } :: tail } next)
          rp)

section

variable {start size : UInt64} {after next : ExtentRegion} {pre rest : List ExtentRegion}

theorem not_touchesAfter_nil : ¬ TouchesAfter start [] := by
  rintro ⟨_, h, -⟩
  cases h

theorem not_touchesNext_nil : ¬ TouchesNext start size [] := by
  rintro ⟨_, h, -⟩
  cases h

theorem touchesAfter_cons : TouchesAfter start (after :: pre) ↔ after.erEnd + 1 = start := by
  constructor
  · rintro ⟨_, h, heq⟩
    cases h
    exact heq
  · exact fun h => ⟨after, rfl, h⟩

theorem touchesNext_cons : TouchesNext start size (next :: rest) ↔ start + size = next.erStart := by
  constructor
  · rintro ⟨_, h, heq⟩
    cases h
    exact heq
  · exact fun h => ⟨next, rfl, h⟩

end

theorem regionInserted (ex : Extent) (start size : UInt64) (pre rest : List ExtentRegion)
    (rp : ExtentRegion) :
    RegionInserted ex start size pre rest rp
      (extentInsertAndOptimize ex start size pre rest rp) := by
  -- a new list that starts with the regions before the last one passed
  have halone : ∀ after init, pre = after :: init →
      (ex.exfNocoalesce = true ∨ (¬ TouchesAfter start pre ∧ ¬ TouchesNext start size rest)) →
      RegionInserted ex start size pre rest rp
        { ex with exRegions := init.reverse ++ after
          :: { rp with erStart := start, erEnd := start + (size - 1) } :: rest } := by
    rintro after init rfl h
    have hnew := @RegionInserted.alone ex start size (after :: init) rest rp h
    rwa [reverse_cons, append_assoc, singleton_append] at hnew
  cases hnc : ex.exfNocoalesce with
  | true =>
    cases pre with
    | nil =>
      cases rest with
      | nil => exact .alone (.inl hnc)
      | cons first tail =>
        rw [extentInsertAndOptimize, if_neg (by rw [hnc]; exact Bool.noConfusion)]
        exact .alone (.inl hnc)
    | cons after init =>
      rw [extentInsertAndOptimize, if_pos hnc]
      exact halone after init rfl (.inl hnc)
  | false =>
    have hneg : ¬ ex.exfNocoalesce = true := Bool.eq_false_iff.mp hnc
    cases pre with
    | nil =>
      cases rest with
      | nil => exact .alone (.inr ⟨not_touchesAfter_nil, not_touchesNext_nil⟩)
      | cons first tail =>
        -- first in the list: only the region above can be joined
        rw [extentInsertAndOptimize]
        cases hjoin : start + size == first.erStart with
        | true =>
          rw [if_pos (by rw [hnc]; rfl)]
          exact .prepended hnc not_touchesAfter_nil rfl (beq_iff_eq.1 hjoin)
        | false =>
          rw [if_neg (by rw [Bool.and_false]; exact Bool.noConfusion)]
          refine .alone (.inr ⟨not_touchesAfter_nil, ?_⟩)
          rw [touchesNext_cons]
          exact beq_eq_false_iff_ne.1 hjoin
    | cons after init =>
      cases rest with
      | nil =>
        -- last in the list: only the region below can be joined
        simp only [extentInsertAndOptimize, if_neg hneg]
        cases happ : after.erEnd + 1 == start with
        | true => exact .appended hnc rfl (beq_iff_eq.1 happ) not_touchesNext_nil
        | false =>
          refine halone after init rfl (.inr ⟨?_, not_touchesNext_nil⟩)
          rw [touchesAfter_cons]
          exact beq_eq_false_iff_ne.1 happ
      | cons next tail =>
        -- between two regions each of the four combinations occurs
        simp only [extentInsertAndOptimize, if_neg hneg]
        cases hjoin : start + size == next.erStart with
        | true =>
          cases happ : after.erEnd + 1 == start with
          | true =>
            exact @RegionInserted.joined ex start size (after :: init) (next :: tail) rp after next
              init tail hnc rfl (beq_iff_eq.1 happ) rfl (beq_iff_eq.1 hjoin)
          | false =>
            have hpre : ¬ TouchesAfter start (after :: init) := by
              rw [touchesAfter_cons]
              exact beq_eq_false_iff_ne.1 happ
            have hnew := @RegionInserted.prepended ex start size (after :: init) (next :: tail) rp
              next tail hnc hpre rfl (beq_iff_eq.1 hjoin)
            rwa [reverse_cons, append_assoc, singleton_append] at hnew
        | false =>
          have hrest : ¬ TouchesNext start size (next :: tail) := by
            rw [touchesNext_cons]
            exact beq_eq_false_iff_ne.1 hjoin
          cases happ : after.erEnd + 1 == start with
          | true => exact .appended hnc rfl (beq_iff_eq.1 happ) hrest
          | false =>
            refine halone after init rfl (.inr ⟨?_, hrest⟩)
            rw [touchesAfter_cons]
            exact beq_eq_false_iff_ne.1 happ

section

variable {start size : UInt64} {pre rest : List ExtentRegion} (hok : RegionsOk ex)
  (hf : FitsAt ex start size pre rest)
include hok hf

theorem FitsAt.gap_above (h : ex.exfNocoalesce = true ∨ ¬ TouchesAfter start pre) :
    ∀ l ∈ pre.reverse, l.hi + ex.gap < start.toNat := by
  rcases h with hnc | htouch
  · rw [Extent.gap, if_pos hnc]
    exact fun l hl => hf.above l (mem_reverse.mp hl)
  · have hgap : ex.gap ≤ 1 := by
      unfold Extent.gap
      split <;> omega
    cases pre with
    | nil => exact fun l hl => absurd hl not_mem_nil
    | cons after pre =>
      rw [touchesAfter_cons, ← beq_iff_eq,
        touches_after (hf.above after (mem_cons_self ..))] at htouch
      intro l hl
      have := hf.apart_above hok htouch l hl
      omega

theorem FitsAt.gap_below (h : ex.exfNocoalesce = true ∨ ¬ TouchesNext start size rest) :
    ∀ n ∈ rest, start.toNat + (size.toNat - 1) + ex.gap < n.lo := by
  rcases h with hnc | htouch
  · rw [Extent.gap, if_pos hnc]
    exact hf.below
  · have hgap : ex.gap ≤ 1 := by
      unfold Extent.gap
      split <;> omega
    cases rest with
    | nil => exact fun n hn => absurd hn not_mem_nil
    | cons next rest =>
      rw [touchesNext_cons, ← beq_iff_eq,
        touches_next hf.pos (hf.below next (mem_cons_self ..))] at htouch
      intro n hn
      have := hf.apart_below hok htouch n hn
      omega

/-- `extent_insert_and_optimize` keeps the list in order when the request fits
    where it is inserted. -/
theorem regionsOk_insert (rp : ExtentRegion) :
    RegionsOk (extentInsertAndOptimize ex start size pre rest rp) := by
  have hins := regionInserted ex start size pre rest rp
  generalize extentInsertAndOptimize ex start size pre rest rp = ex' at hins ⊢
  cases hins with
  | alone h =>
    exact hf.placed_new hok rp (hf.gap_above hok (h.imp_right And.left))
      (hf.gap_below hok (h.imp_right And.right))
  | prepended hnc hafter hrest hnext =>
    subst hrest
    have hplaced := hf.placed_prepend hok (hf.gap_above hok (.inr hafter))
    apply (sameRegions_freeDescriptor _ rp).regionsOk
    exact hplaced
  | appended hnc hpre hafter hnext =>
    subst hpre
    have hplaced := hf.placed_append hok (hf.gap_below hok (.inr hnext))
    apply (sameRegions_freeDescriptor _ rp).regionsOk
    exact hplaced
  | joined hnc hpre hafter hrest hnext =>
    subst hpre hrest
    have hplaced := hf.placed_join hok
    apply (sameRegions_freeDescriptor _ rp).regionsOk
    apply (sameRegions_freeDescriptor _ _).regionsOk
    exact hplaced

end

end OpenBsd.Kern
