/-
  OpenBsd.Kern.ExtentDescriptors

  The region descriptors of a fixed extent.

  Without `EX_MALLOCOK` a fixed extent uses the descriptors of its own storage only,
  and each of them is on the free list, in the region list, or with a thread that
  waits for space.  Two ways out of a call drop the descriptor it holds: the end of
  a tolerated conflict, and a signal during the wait for space.
-/

import OpenBsd.Kern.ExtentConflict
import OpenBsd.Kern.ExtentOffers

namespace OpenBsd.Kern

open OpenBsd.Lib List

/-! ## Descriptors -/

/-- A descriptor out of the storage of the extent. -/
def ExtentRegion.Plain (rp : ExtentRegion) : Prop := rp.erAlloc = false ∧ rp.erDiscard = false

/-- A fixed extent all of whose descriptors come out of its storage. -/
structure Fixed (ex : Extent) : Prop where
  fixed : ex.exfFixed = true
  free : ∀ rp ∈ ex.fexFreelist, rp.Plain
  regions : ∀ rp ∈ ex.exRegions, rp.Plain

/-- The descriptors on the free list and in the region list. -/
def Extent.descriptors (ex : Extent) : Nat := ex.fexFreelist.length + ex.exRegions.length

/-- The descriptor of a thread that waits for space. -/
def Sleeper.held : Sleeper → List ExtentRegion
  | .freelist _ => []
  | .space _ rp => [rp]

def ExtentSys.descriptors (s : ExtentSys) : Nat :=
  s.ex.descriptors + (s.sleepers.flatMap Sleeper.held).length

/-- A call that does not take descriptors from the pool leaves `n` of them in the extent and
    with itself. -/
def ExtentOutcome.Leaves (n : Nat) (c : ExtentCall) : ExtentOutcome → Prop
  | .ret ex' _ _ => Fixed ex' ∧ ex'.descriptors = n
  | .sleep ex' who => Fixed ex' ∧ ex'.descriptors + who.held.length = n ∧
      (∀ rp ∈ who.held, rp.Plain) ∧ who.call = c
  | .panic => True

section

variable {ex : Extent} {rp : ExtentRegion}

theorem fixed_freeDescriptor (h : Fixed ex) (hrp : rp.Plain) :
    Fixed (extentFreeRegionDescriptor ex rp) ∧
      (extentFreeRegionDescriptor ex rp).descriptors = ex.descriptors + 1 := by
  obtain ⟨halloc, hdiscard⟩ := hrp
  rw [extentFreeRegionDescriptor, hdiscard, if_neg Bool.false_ne_true, if_pos h.fixed, halloc,
    if_neg Bool.false_ne_true]
  refine ⟨⟨h.fixed, fun r hr => ?_, h.regions⟩, ?_⟩
  · rcases mem_cons.1 hr with rfl | hr
    · exact ⟨rfl, rfl⟩
    · exact h.free r hr
  · simp only [Extent.descriptors, length_cons]
    omega

theorem fixed_freeDescriptors {freed : List ExtentRegion} (h : Fixed ex)
    (hfreed : ∀ rp ∈ freed, rp.Plain) :
    Fixed (freed.foldl extentFreeRegionDescriptor ex) ∧
      (freed.foldl extentFreeRegionDescriptor ex).descriptors = ex.descriptors + freed.length := by
  induction freed generalizing ex with
  | nil => exact ⟨h, rfl⟩
  | cons rp freed ih =>
    obtain ⟨hfixed, hcount⟩ := fixed_freeDescriptor h (hfreed rp (mem_cons_self ..))
    obtain ⟨hfixed', hcount'⟩ := ih hfixed fun r hr => hfreed r (mem_cons_of_mem _ hr)
    refine ⟨hfixed', ?_⟩
    rw [foldl_cons, hcount', hcount, length_cons]
    omega

theorem Fixed.setRegions {regions : List ExtentRegion} (h : Fixed ex)
    (hregions : ∀ rp ∈ regions, rp.Plain) : Fixed { ex with exRegions := regions } :=
  ⟨h.fixed, h.free, hregions⟩

theorem Fixed.setAround {pre rest : List ExtentRegion} (h : Fixed ex)
    (hpre : ∀ r ∈ pre, r.Plain) (hrp : rp.Plain) (hrest : ∀ r ∈ rest, r.Plain) :
    Fixed { ex with exRegions := pre.reverse ++ rp :: rest } := by
  refine h.setRegions fun r hr => ?_
  rcases mem_append.1 hr with hr | hr
  · exact hpre r (mem_reverse.1 hr)
  · rcases mem_cons.1 hr with rfl | hr
    · exact hrp
    · exact hrest r hr

/-- Insertion puts its descriptor into the region list, or gives back as many as the list
    loses and its own. -/
theorem fixed_insert {start size : UInt64} {pre rest : List ExtentRegion} (h : Fixed ex)
    (hrp : rp.Plain) (hsplit : pre.reverse ++ rest = ex.exRegions) :
    Fixed (extentInsertAndOptimize ex start size pre rest rp) ∧
      (extentInsertAndOptimize ex start size pre rest rp).descriptors = ex.descriptors + 1 := by
  have hlen : ex.exRegions.length = pre.length + rest.length := by
    rw [← hsplit, length_append, length_reverse]
  have hpre : ∀ r ∈ pre, r.Plain := by
    intro r hr
    apply h.regions
    rw [← hsplit]
    exact mem_append_left _ (mem_reverse.2 hr)
  have hrest : ∀ r ∈ rest, r.Plain := by
    intro r hr
    apply h.regions
    rw [← hsplit]
    exact mem_append_right _ hr
  have hins := regionInserted ex start size pre rest rp
  generalize extentInsertAndOptimize ex start size pre rest rp = ex' at hins ⊢
  cases hins with
  | alone _ =>
    refine ⟨h.setAround hpre hrp hrest, ?_⟩
    simp only [Extent.descriptors, length_append, length_reverse, length_cons, hlen]
    omega
  | @prepended next tail _ _ heq _ =>
    subst heq
    obtain ⟨hnext, htail⟩ := forall_mem_cons.1 hrest
    obtain ⟨hfixed, hcount⟩ :=
      fixed_freeDescriptor (@Fixed.setAround ex { next with erStart := start } pre tail h hpre hnext
        htail) hrp
    refine ⟨hfixed, hcount.trans ?_⟩
    simp only [Extent.descriptors, length_append, length_reverse, length_cons, hlen]
  | @appended after init _ heq _ _ =>
    subst heq
    obtain ⟨hafter, hinit⟩ := forall_mem_cons.1 hpre
    obtain ⟨hfixed, hcount⟩ :=
      fixed_freeDescriptor (@Fixed.setAround ex { after with erEnd := start + (size - 1) } init rest
        h hinit hafter hrest) hrp
    refine ⟨hfixed, hcount.trans ?_⟩
    simp only [Extent.descriptors, length_append, length_reverse, length_cons] at hlen ⊢
    omega
  | @joined after next init tail _ heq _ heq' _ =>
    subst heq heq'
    obtain ⟨hafter, hinit⟩ := forall_mem_cons.1 hpre
    obtain ⟨hnext, htail⟩ := forall_mem_cons.1 hrest
    -- the descriptor of the next region goes back as well
    obtain ⟨hfixed, hcount⟩ :=
      fixed_freeDescriptor (@Fixed.setAround ex { after with erEnd := next.erEnd } init tail h hinit
        hafter htail) hnext
    obtain ⟨hfixed', hcount'⟩ := fixed_freeDescriptor hfixed hrp
    refine ⟨hfixed', hcount'.trans ?_⟩
    rw [hcount]
    simp only [Extent.descriptors, length_append, length_reverse, length_cons] at hlen ⊢
    omega

/-! ## Allocation of a given region -/

/-- `extent_alloc_region` ends in the `return (0)` behind a tolerated conflict: on the bounds
    `[a, b]` and the region list, for the request `[start, stop]`. -/
inductive ReturnsInConflict (a b : UInt64) :
    List ExtentRegion → (start stop : UInt64) → Prop where
  | atEnd {l pre rest : List ExtentRegion} {rp : ExtentRegion} {start stop : UInt64}
      (hscan : regionScan start stop [] l = .conflict pre rp rest) (hlo : rp.erStart ≤ start)
      (hend : ¬ rp.erEnd < b) : ReturnsInConflict a b l start stop
  | behind {l pre rest : List ExtentRegion} {rp : ExtentRegion} {start stop : UInt64}
      (hscan : regionScan start stop [] l = .conflict pre rp rest) (hlo : rp.erStart ≤ start)
      (hend : rp.erEnd < b) (h : ReturnsInConflict a b l (rp.erEnd + 1) stop) :
      ReturnsInConflict a b l start stop
  | removed {l pre rest : List ExtentRegion} {rp : ExtentRegion} {start stop : UInt64}
      (hscan : regionScan start stop [] l = .conflict pre rp rest) (hlo : ¬ rp.erStart ≤ start)
      (hhi : rp.erEnd < stop) (h : ReturnsInConflict a b (pre.reverse ++ rest) start stop) :
      ReturnsInConflict a b l start stop
  | before {l pre rest : List ExtentRegion} {rp : ExtentRegion} {start stop : UInt64}
      (hscan : regionScan start stop [] l = .conflict pre rp rest) (hlo : ¬ rp.erStart ≤ start)
      (hhi : ¬ rp.erEnd < stop) (hlt : rp.erStart < stop) (hgt : rp.erStart > a)
      (h : ReturnsInConflict a b l start (rp.erStart - 1)) : ReturnsInConflict a b l start stop
  | atStart {l pre rest : List ExtentRegion} {rp : ExtentRegion} {start stop : UInt64}
      (hscan : regionScan start stop [] l = .conflict pre rp rest) (hlo : ¬ rp.erStart ≤ start)
      (hhi : ¬ rp.erEnd < stop) (hlt : rp.erStart < stop) (hgt : ¬ rp.erStart > a) :
      ReturnsInConflict a b l start stop
  | atLast {l pre rest : List ExtentRegion} {rp : ExtentRegion} {start stop : UInt64}
      (hscan : regionScan start stop [] l = .conflict pre rp rest) (hlo : ¬ rp.erStart ≤ start)
      (hhi : ¬ rp.erEnd < stop) (hlt : ¬ rp.erStart < stop) : ReturnsInConflict a b l start stop

/-- The request `[start, stop]` on an extent ends in a tolerated conflict. -/
def Extent.DropsAt (ex : Extent) (start stop : UInt64) : Prop :=
  ReturnsInConflict ex.exStart ex.exEnd ex.exRegions start stop

section

variable {start size stop : UInt64} {pre rest : List ExtentRegion}

theorem not_drops_of_clear (h : regionScan start stop [] ex.exRegions = .clear pre rest) :
    ¬ ex.DropsAt start stop := by
  rintro (⟨hscan, -, -⟩ | ⟨hscan, -, -, -⟩ | ⟨hscan, -, -, -⟩ | ⟨hscan, -, -, -, -, -⟩ |
    ⟨hscan, -, -, -, -⟩ | ⟨hscan, -, -, -⟩) <;>
  · rw [h] at hscan
    cases hscan

variable {l : List ExtentRegion}

/-- What a conflict comes to, by the four cases of the loop. -/
theorem returnsInConflict_iff {a b : UInt64}
    (hscan : regionScan start stop [] l = .conflict pre rp rest) :
    ReturnsInConflict a b l start stop ↔
      if rp.erStart ≤ start then rp.erEnd < b → ReturnsInConflict a b l (rp.erEnd + 1) stop
      else if rp.erEnd < stop then ReturnsInConflict a b (pre.reverse ++ rest) start stop
      else if rp.erStart < stop then
        rp.erStart > a → ReturnsInConflict a b l start (rp.erStart - 1)
      else True := by
  constructor
  · intro h
    cases h with
    | atEnd hscan' hlo hend =>
      rw [hscan] at hscan'
      cases hscan'
      rw [if_pos hlo]
      exact fun hlt => absurd hlt hend
    | behind hscan' hlo hend h =>
      rw [hscan] at hscan'
      cases hscan'
      rw [if_pos hlo]
      exact fun _ => h
    | removed hscan' hlo hhi h =>
      rw [hscan] at hscan'
      cases hscan'
      rw [if_neg hlo, if_pos hhi]
      exact h
    | before hscan' hlo hhi hlt hgt h =>
      rw [hscan] at hscan'
      cases hscan'
      rw [if_neg hlo, if_neg hhi, if_pos hlt]
      exact fun _ => h
    | atStart hscan' hlo hhi hlt hgt =>
      rw [hscan] at hscan'
      cases hscan'
      rw [if_neg hlo, if_neg hhi, if_pos hlt]
      exact fun h => absurd h hgt
    | atLast hscan' hlo hhi hlt =>
      rw [hscan] at hscan'
      cases hscan'
      rw [if_neg hlo, if_neg hhi, if_neg hlt]
      trivial
  · intro h
    split_ifs at h with hlo hhi hlt
    · by_cases hend : rp.erEnd < b
      · exact .behind hscan hlo hend (h hend)
      · exact .atEnd hscan hlo hend
    · exact .removed hscan hlo hhi h
    · by_cases hgt : rp.erStart > a
      · exact .before hscan hlo hhi hlt hgt (h hgt)
      · exact .atStart hscan hlo hhi hlt hgt
    · exact .atLast hscan hlo hhi hlt

/-! ### On a list in order -/

/-- The call drops its descriptor at a tolerated conflict. -/
def Drops (ex : Extent) (flags : ExtentFlags) (start stop : UInt64) : Prop :=
  flags.conflictok = true ∧ flags.waitspace = false ∧ ex.DropsAt start stop

variable {flags : ExtentFlags} {myrp : ExtentRegion} {c : ExtentCall}

theorem conflict_split (hscan : regionScan start stop [] l = .conflict pre rp rest) :
    pre.reverse ++ rp :: rest = l := (regionScan_conflict hscan).1.symm

theorem fixed_removed (h : Fixed ex) (hsplit : pre.reverse ++ rp :: rest = ex.exRegions) :
    Fixed { extentFreeRegionDescriptor ex rp with exRegions := pre.reverse ++ rest } ∧
      Extent.descriptors { extentFreeRegionDescriptor ex rp with exRegions := pre.reverse ++ rest }
        = ex.descriptors := by
  have hmem : ∀ r, r ∈ pre.reverse ∨ r ∈ rp :: rest → r.Plain := by
    intro r hr
    apply h.regions
    rw [← hsplit]
    exact mem_append.2 hr
  obtain ⟨hfixed, hcount⟩ := fixed_freeDescriptor h (hmem rp (.inr (mem_cons_self ..)))
  refine ⟨hfixed.setRegions fun r hr => ?_, ?_⟩
  · exact hmem r ((mem_append.1 hr).imp_right (mem_cons_of_mem _))
  · have hlen := congrArg List.length hsplit
    simp only [Extent.descriptors, (sameRegions_freeDescriptor ex rp).regions, length_append,
      length_reverse, length_cons] at hcount hlen ⊢
    omega

/-- The loop of `extent_alloc_region` keeps all descriptors, and its own one too unless it
    drops it.  The induction follows the restarts. -/
theorem allocRegionFrom_leaves (hfixed : Fixed ex) (hrp : myrp.Plain) :
    (¬ Drops ex flags start stop →
        (extentAllocRegionFrom ex flags myrp start size stop c).Leaves (ex.descriptors + 1) c) ∧
      (Drops ex flags start stop →
        (extentAllocRegionFrom ex flags myrp start size stop c).Leaves ex.descriptors c) := by
  induction ex, start, size, stop using extentAllocRegionFrom.induct flags with
  | case1 ex start size stop pre rest hscan =>
    rw [allocRegionFrom_clear hscan]
    refine ⟨fun _ => ?_, fun h => absurd h.2.2 (not_drops_of_clear hscan)⟩
    have hsplit := (regionScan_clear hscan).1
    exact fixed_insert hfixed hrp hsplit
  | case2 ex start size stop pre rp rest hscan hws =>
    refine ⟨fun _ => ?_, fun h => absurd (h.2.1.symm.trans hws) Bool.false_ne_true⟩
    rw [extentAllocRegionFrom]
    split
    · rename_i h
      rw [hscan] at h
      cases h
    · rw [if_pos hws]
      refine ⟨⟨hfixed.fixed, hfixed.free, hfixed.regions⟩, rfl, fun r hr => ?_, rfl⟩
      rw [mem_singleton.1 hr]
      exact hrp
  | case3 ex start size stop pre rp rest hscan hw hc hlo hend ih =>
    have hiff : Drops ex flags start stop ↔ Drops ex flags (rp.erEnd + 1) stop := by
      unfold Drops Extent.DropsAt
      rw [returnsInConflict_iff hscan, if_pos hlo]
      simp only [hend, forall_const]
    rw [allocRegionFrom_conflict hscan hw hc, if_pos hlo, if_pos hend, hiff]
    exact ih hfixed
  | case4 ex start size stop pre rp rest hscan hw hc hlo hend =>
    rw [allocRegionFrom_conflict hscan hw hc, if_pos hlo, if_neg hend]
    refine ⟨fun h => absurd ⟨hc, Bool.eq_false_iff.2 hw, ?_⟩ h, fun _ => ⟨hfixed, rfl⟩⟩
    exact .atEnd hscan hlo hend
  | case5 ex start size stop pre rp rest hscan hw hc hlo hhi ih =>
    have hsame := sameRegions_freeDescriptor ex rp
    obtain ⟨hfixed', hcount⟩ := fixed_removed hfixed (conflict_split hscan)
    have hiff : Drops ex flags start stop ↔
        Drops { extentFreeRegionDescriptor ex rp with exRegions := pre.reverse ++ rest } flags
          start stop := by
      unfold Drops Extent.DropsAt
      rw [returnsInConflict_iff hscan, if_neg hlo, if_pos hhi, hsame.start, hsame.stop]
    rw [allocRegionFrom_conflict hscan hw hc, if_neg hlo, if_pos hhi, hiff, ← hcount]
    exact ih hfixed'
  | case6 ex start size stop pre rp rest hscan hw hc hlo hhi hlt hgt ih =>
    have hiff : Drops ex flags start stop ↔ Drops ex flags start (rp.erStart - 1) := by
      unfold Drops Extent.DropsAt
      rw [returnsInConflict_iff hscan, if_neg hlo, if_neg hhi, if_pos hlt]
      simp only [hgt, forall_const]
    rw [allocRegionFrom_conflict hscan hw hc, if_neg hlo, if_neg hhi, if_pos hlt, if_pos hgt, hiff]
    exact ih hfixed
  | case7 ex start size stop pre rp rest hscan hw hc hlo hhi hlt hgt =>
    rw [allocRegionFrom_conflict hscan hw hc, if_neg hlo, if_neg hhi, if_pos hlt, if_neg hgt]
    refine ⟨fun h => absurd ⟨hc, Bool.eq_false_iff.2 hw, ?_⟩ h, fun _ => ⟨hfixed, rfl⟩⟩
    exact .atStart hscan hlo hhi hlt hgt
  | case8 ex start size stop pre rp rest hscan hw hc hlo hhi hlt =>
    rw [allocRegionFrom_conflict hscan hw hc, if_neg hlo, if_neg hhi, if_neg hlt]
    refine ⟨fun h => absurd ⟨hc, Bool.eq_false_iff.2 hw, ?_⟩ h, fun _ => ⟨hfixed, rfl⟩⟩
    exact .atLast hscan hlo hhi hlt
  | case9 ex start size stop pre rp rest hscan hw hnc =>
    refine ⟨fun _ => ?_, fun h => absurd h.1 hnc⟩
    rw [extentAllocRegionFrom]
    split
    · rename_i h
      rw [hscan] at h
      cases h
    · rw [if_neg hw, if_neg hnc]
      exact fixed_freeDescriptor hfixed hrp

end

/-! ## The other calls -/

theorem doAlloc_leaves {req : Subregion} (hfixed : Fixed ex) (hrp : rp.Plain) :
    (extentDoAlloc ex req rp).Leaves (ex.descriptors + 1) (.allocSubregion req) := by
  unfold extentDoAlloc
  rw [searchPlace_eq]
  split
  · trivial
  · cases hbest : bestOffer ex req with
    | some o =>
      rw [Option.map_some]
      exact fixed_insert hfixed hrp (offers_place (bestOffer_mem hbest)).1
    | none =>
      rw [Option.map_none]
      dsimp only
      split
      · -- the thread waits with its descriptor
        refine ⟨⟨hfixed.fixed, hfixed.free, hfixed.regions⟩, rfl, fun r hr => ?_, rfl⟩
        rw [mem_singleton.1 hr]
        exact hrp
      · exact fixed_freeDescriptor hfixed hrp

/-- What `extent_free` makes of the region list: with the descriptors given back the list is
    as long as before, and the new descriptor is one of them. -/
theorem freeScan_plain {nocoalesce : Bool} {start stop : UInt64} {nrp : Option ExtentRegion}
    {pre rest regions freed : List ExtentRegion} (hnrp : ∀ r ∈ nrp, r.Plain)
    (hl : ∀ r ∈ pre.reverse ++ rest, r.Plain)
    (h : freeScan nocoalesce start stop nrp pre rest = some (regions, freed)) :
    (∀ r ∈ regions, r.Plain) ∧ (∀ r ∈ freed, r.Plain) ∧
      regions.length + freed.length = (pre.reverse ++ rest).length + nrp.toList.length := by
  have hnrp' : ∀ r ∈ nrp.toList, r.Plain := fun r hr => hnrp r (Option.mem_toList.1 hr)
  induction rest generalizing pre with
  | nil => cases h
  | cons rp rest ih =>
    have hpre : ∀ r ∈ pre.reverse, r.Plain := fun r hr => hl r (mem_append_left _ hr)
    have hrp : rp.Plain := hl rp (mem_append_right _ (mem_cons_self ..))
    have hrest : ∀ r ∈ rest, r.Plain :=
      fun r hr => hl r (mem_append_right _ (mem_cons_of_mem _ hr))
    have hpass : freeScan nocoalesce start stop nrp (rp :: pre) rest = some (regions, freed) →
        (∀ r ∈ regions, r.Plain) ∧ (∀ r ∈ freed, r.Plain) ∧
          regions.length + freed.length = (pre.reverse ++ rp :: rest).length + nrp.toList.length := by
      intro h
      have hmove : (rp :: pre).reverse ++ rest = pre.reverse ++ rp :: rest := by
        rw [reverse_cons, append_assoc, singleton_append]
      rw [← hmove]
      exact ih (by rw [hmove]; exact hl) h
    -- a region whose bounds change keeps its flags
    have hcut : ∀ r : ExtentRegion, r.Plain →
        (∀ x ∈ pre.reverse ++ r :: rest, x.Plain) ∧ (∀ x ∈ nrp.toList, x.Plain) ∧
          (pre.reverse ++ r :: rest).length + nrp.toList.length
            = (pre.reverse ++ rp :: rest).length + nrp.toList.length := by
      intro r hr
      refine ⟨fun x hx => ?_, hnrp', by simp only [length_append, length_cons]⟩
      rcases mem_append.1 hx with hx | hx
      · exact hpre x hx
      · rcases mem_cons.1 hx with rfl | hx
        · exact hr
        · exact hrest x hx
    unfold freeScan at h
    split at h
    · exact hpass h
    split at h
    · cases h
    split at h
    · cases h
      refine ⟨fun x hx => ?_, fun x hx => ?_, ?_⟩
      · exact (mem_append.1 hx).elim (hpre x) (hrest x)
      · rcases mem_cons.1 hx with rfl | hx
        · exact hrp
        · exact hnrp' x hx
      · simp only [length_append, length_cons]
        omega
    split at h
    · exact hpass h
    split at h
    · cases h
      exact hcut _ hrp
    split at h
    · cases h
      exact hcut _ hrp
    split at h
    · -- out of the middle: the new descriptor takes the upper part
      cases nrp with
      | none => cases h
      | some new =>
        cases h
        refine ⟨fun x hx => ?_, fun x hx => absurd hx not_mem_nil, ?_⟩
        · rcases mem_append.1 hx with hx | hx
          · exact hpre x hx
          · rcases mem_cons.1 hx with rfl | hx
            · exact hrp
            · rcases mem_cons.1 hx with rfl | hx
              · exact hnrp new rfl
              · exact hrest x hx
        · simp only [length_append, length_cons, Option.toList_some, length_nil]
          omega
    · exact hpass h

theorem freeWith_leaves {start size : UInt64} {nrp : Option ExtentRegion} {c : ExtentCall}
    (hfixed : Fixed ex) (hnrp : ∀ r ∈ nrp, r.Plain) :
    (extentFreeWith ex start size nrp).Leaves (ex.descriptors + nrp.toList.length) c := by
  unfold extentFreeWith
  split
  · rename_i regions freed hscan
    obtain ⟨hregions, hfreed, hlen⟩ := freeScan_plain hnrp hfixed.regions hscan
    obtain ⟨hfixed', hcount⟩ := fixed_freeDescriptors (hfixed.setRegions hregions) hfreed
    refine ⟨⟨hfixed'.fixed, hfixed'.free, hfixed'.regions⟩, hcount.trans ?_⟩
    simp only [Extent.descriptors, reverse_nil, nil_append] at hlen ⊢
    omega
  · trivial

/-! ## Calls -/

/-- The call drops the descriptor it holds on `ex`. -/
def ExtentCall.Drops (ex : Extent) : ExtentCall → Prop
  | .allocRegion start size flags => OpenBsd.Kern.Drops ex flags start (start + (size - 1))
  | _ => False

/-- `n` descriptors are left, or one less where the call drops its own. -/
def ExtentOutcome.LeavesUnless (n : Nat) (c : ExtentCall) (drops : Prop) (o : ExtentOutcome) :
    Prop :=
  (¬ drops → o.Leaves (n + 1) c) ∧ (drops → o.Leaves n c)

theorem withDescriptor_leaves (hfixed : Fixed ex) (hrp : rp.Plain) (c : ExtentCall) :
    (c.withDescriptor ex rp).LeavesUnless ex.descriptors c (c.Drops ex) := by
  cases c with
  | allocRegion start size flags => exact allocRegionFrom_leaves hfixed hrp
  | allocSubregion req => exact ⟨fun _ => doAlloc_leaves hfixed hrp, fun h => h.elim⟩
  | free start size flags =>
    refine ⟨fun _ => @freeWith_leaves ex start size (some rp) _ hfixed fun r hr => ?_,
      fun h => h.elim⟩
    rw [← Option.some.inj hr]
    exact hrp

theorem drops_congr {ex' : Extent} (h : SameRegions ex ex') (c : ExtentCall) :
    c.Drops ex' ↔ c.Drops ex := by
  cases c with
  | allocRegion start size flags =>
    simp only [ExtentCall.Drops, OpenBsd.Kern.Drops, Extent.DropsAt, h.regions, h.start, h.stop]
  | allocSubregion req => exact Iff.rfl
  | free start size flags => exact Iff.rfl

theorem descriptor_cases {flags : ExtentFlags} (hfixed : Fixed ex)
    (hflags : flags.mallocok = false) (mem : Bool) :
    (ex.fexFreelist = [] ∧ (extentAllocRegionDescriptor ex flags mem = .null ∨
        ∃ ex', extentAllocRegionDescriptor ex flags mem = .sleep ex' ∧ Fixed ex' ∧
          ex'.descriptors = ex.descriptors)) ∨
      (ex.fexFreelist ≠ [] ∧ ∃ ex' rp, extentAllocRegionDescriptor ex flags mem = .got ex' rp ∧
        rp.Plain ∧ Fixed ex' ∧ ex'.descriptors + 1 = ex.descriptors) := by
  rw [extentAllocRegionDescriptor, if_pos hfixed.fixed, hflags, if_neg Bool.false_ne_true]
  cases hlist : ex.fexFreelist with
  | nil =>
    refine .inl ⟨rfl, ?_⟩
    cases flags.waitok with
    | false => exact .inl rfl
    | true =>
      refine .inr ⟨_, rfl, ⟨hfixed.fixed, fun r hr => absurd hr ?_, hfixed.regions⟩, ?_⟩
      · exact not_mem_nil
      · simp only [Extent.descriptors, hlist]
  | cons rp free =>
    have hfree := hfixed.free
    rw [hlist] at hfree
    obtain ⟨hrp, hfree⟩ := forall_mem_cons.1 hfree
    refine .inr ⟨cons_ne_nil _ _, _, rp, rfl, hrp, ⟨hfixed.fixed, hfree, hfixed.regions⟩, ?_⟩
    simp only [Extent.descriptors, hlist, length_cons]
    omega

theorem descriptor_got {ex' : Extent} {flags : ExtentFlags} {mem : Bool}
    (hgot : extentAllocRegionDescriptor ex flags mem = .got ex' rp) (hfixed : Fixed ex)
    (hflags : flags.mallocok = false) :
    rp.Plain ∧ Fixed ex' ∧ ex'.descriptors + 1 = ex.descriptors := by
  rcases descriptor_cases hfixed hflags mem with
    ⟨-, hnull | ⟨ex'', hsleep, -⟩⟩ | ⟨-, ex'', rp', hgot', hleft⟩
  · rw [hgot] at hnull
    cases hnull
  · rw [hgot] at hsleep
    cases hsleep
  · rw [hgot] at hgot'
    cases hgot'
    exact hleft

/-- A call from the allocation of its descriptor on: it takes one off the free list, or it
    returns or sleeps without. -/
theorem resume_leaves (hfixed : Fixed ex) {c : ExtentCall} (hc : c.flags.mallocok = false)
    (mem : Bool) :
    (¬ (ex.fexFreelist ≠ [] ∧ c.Drops ex) → (c.resume ex mem).Leaves ex.descriptors c) ∧
      (ex.fexFreelist ≠ [] ∧ c.Drops ex → ∃ n, n + 1 = ex.descriptors ∧
        (c.resume ex mem).Leaves n c) := by
  unfold ExtentCall.resume
  split
  · -- without coalescing `extent_free` takes no descriptor
    rename_i start size flags _
    refine ⟨fun _ => ?_, fun h => h.2.elim⟩
    exact @freeWith_leaves ex start size none _ hfixed fun r hr => absurd hr (Option.not_mem_none r)
  · rcases descriptor_cases hfixed hc mem with
      ⟨hnil, hnull | ⟨ex', hsleep, hfixed', hcount⟩⟩ | ⟨hne, ex', rp, hgot, hrp, hfixed', hcount⟩
    · rw [hnull]
      exact ⟨fun _ => ⟨hfixed, rfl⟩, fun h => absurd hnil h.1⟩
    · rw [hsleep]
      refine ⟨fun _ => ⟨hfixed', hcount, fun r hr => absurd hr not_mem_nil, rfl⟩, ?_⟩
      exact fun h => absurd hnil h.1
    · rw [hgot]
      have hleaves := withDescriptor_leaves hfixed' hrp
      have hiff := drops_congr (sameRegions_got hgot)
      refine ⟨fun h => ?_, fun h => ⟨_, hcount, (hleaves _).2 ((hiff _).2 h.2)⟩⟩
      rw [← hcount]
      exact (hleaves _).1 fun hd => h ⟨hne, (hiff _).1 hd⟩

/-- The thread loses a descriptor when it wakes up: the call that gets one drops it at a
    tolerated conflict, or a signal ends a wait for space. -/
def Sleeper.Loses (ex : Extent) (intr : Bool) : Sleeper → Prop
  | .freelist c => ¬ (intr && c.flags.catchSignals) = true ∧ ex.fexFreelist ≠ [] ∧ c.Drops ex
  | .space c _ => (intr && c.flags.catchSignals) = true ∨ c.Drops ex

theorem wake_leaves {who : Sleeper} (hfixed : Fixed ex) (hheld : ∀ rp ∈ who.held, rp.Plain)
    (hcall : who.call.flags.mallocok = false) (intr mem : Bool) :
    (¬ who.Loses ex intr →
        (who.wake ex intr mem).Leaves (ex.descriptors + who.held.length) who.call) ∧
      (who.Loses ex intr → ∃ n, n + 1 = ex.descriptors + who.held.length ∧
        (who.wake ex intr mem).Leaves n who.call) := by
  cases who with
  | freelist c =>
    by_cases hintr : (intr && c.flags.catchSignals) = true
    · -- without a descriptor a signal loses none
      rw [Sleeper.wake, if_pos hintr]
      exact ⟨fun _ => ⟨hfixed, rfl⟩, fun h => absurd hintr h.1⟩
    · rw [Sleeper.wake, if_neg hintr]
      obtain ⟨hkeep, hlose⟩ := resume_leaves hfixed hcall mem
      exact ⟨fun h => hkeep fun hd => h ⟨hintr, hd⟩, fun h => hlose h.2⟩
  | space c rp =>
    have hrp := hheld rp (mem_cons_self ..)
    by_cases hintr : (intr && c.flags.catchSignals) = true
    · rw [Sleeper.wake, if_pos hintr]
      exact ⟨fun h => absurd (.inl hintr) h, fun _ => ⟨_, rfl, hfixed, rfl⟩⟩
    · rw [Sleeper.wake, if_neg hintr]
      obtain ⟨hkeep, hlose⟩ := withDescriptor_leaves hfixed hrp c
      exact ⟨fun h => hkeep fun hd => h (.inr hd), fun h => ⟨_, rfl, hlose (h.resolve_left hintr)⟩⟩

end

/-! ## Runs -/

/-- All descriptors of the extent and of the threads asleep in it come out of its storage,
    and none of these threads may take one from the pool. -/
structure ExtentSys.FixedInv (s : ExtentSys) : Prop where
  fixed : Fixed s.ex
  held : ∀ who ∈ s.sleepers, ∀ rp ∈ who.held, rp.Plain
  calls : ∀ who ∈ s.sleepers, who.call.flags.mallocok = false

/-- The event is not a call with `EX_MALLOCOK`. -/
def ExtentEvent.NoMalloc : ExtentEvent → Prop
  | .call c _ => c.flags.mallocok = false
  | .wake _ _ _ => True

/-- The event loses a descriptor. -/
def ExtentSys.Loses (s : ExtentSys) : ExtentEvent → Prop
  | .call c _ => s.ex.fexFreelist ≠ [] ∧ c.Drops s.ex
  | .wake i intr _ => ∃ who ∈ s.sleepers[i]?, who.Loses s.ex intr

variable {sleepers : List Sleeper}

theorem held_eraseIdx {i : Nat} {who : Sleeper} (h : sleepers[i]? = some who) :
    ((sleepers.eraseIdx i).flatMap Sleeper.held).length + who.held.length
      = (sleepers.flatMap Sleeper.held).length := by
  induction sleepers generalizing i with
  | nil => cases h
  | cons x sleepers ih =>
    cases i with
    | zero =>
      cases h
      simp only [eraseIdx_cons_zero, flatMap_cons, length_append]
      omega
    | succ i =>
      have := ih h
      simp only [eraseIdx_cons_succ, flatMap_cons, length_append]
      omega

theorem settle_leaves {c : ExtentCall} {o : ExtentOutcome} {s' : ExtentSys} {n : Nat} (ho : o.Leaves n c) (hc : c.flags.mallocok = false)
    (hheld : ∀ who ∈ sleepers, ∀ rp ∈ who.held, rp.Plain)
    (hcalls : ∀ who ∈ sleepers, who.call.flags.mallocok = false)
    (h : o.settle sleepers = some s') :
    s'.FixedInv ∧ s'.descriptors = n + (sleepers.flatMap Sleeper.held).length := by
  cases o with
  | ret ex' error result =>
    cases h
    obtain ⟨hfixed, rfl⟩ := ho
    exact ⟨⟨hfixed, hheld, hcalls⟩, rfl⟩
  | sleep ex' who =>
    cases h
    obtain ⟨hfixed, hcount, hplain, hcall⟩ := ho
    refine ⟨⟨hfixed, fun x hx => ?_, fun x hx => ?_⟩, ?_⟩
    · rcases mem_append.1 hx with hx | hx
      · exact hheld x hx
      · rw [mem_singleton.1 hx]
        exact hplain
    · rcases mem_append.1 hx with hx | hx
      · exact hcalls x hx
      · rw [mem_singleton.1 hx, hcall]
        exact hc
    · simp only [ExtentSys.descriptors, flatMap_append, flatMap_cons, flatMap_nil,
        append_nil, length_append, ← hcount]
      omega
  | panic => cases h

/-- One event keeps the number of descriptors, or loses one. -/
theorem step_descriptors {s s' : ExtentSys} {e : ExtentEvent} (hinv : s.FixedInv)
    (he : e.NoMalloc) (h : s.step e = some s') :
    s'.FixedInv ∧ (¬ s.Loses e → s'.descriptors = s.descriptors) ∧
      (s.Loses e → s'.descriptors + 1 = s.descriptors) := by
  cases e with
  | call c mem =>
    rw [ExtentSys.step, ExtentCall.run] at h
    split at h
    · obtain ⟨hkeep, hlose⟩ := resume_leaves hinv.fixed he mem
      by_cases hl : s.Loses (.call c mem)
      · obtain ⟨n, hn, hleaves⟩ := hlose hl
        obtain ⟨hinv', hcount⟩ := settle_leaves hleaves he hinv.held hinv.calls h
        refine ⟨hinv', fun hnot => absurd hl hnot, fun _ => ?_⟩
        rw [hcount, ExtentSys.descriptors]
        omega
      · obtain ⟨hinv', hcount⟩ := settle_leaves (hkeep hl) he hinv.held hinv.calls h
        exact ⟨hinv', fun _ => hcount, fun hl' => absurd hl' hl⟩
    · cases h
  | wake i intr mem =>
    rw [ExtentSys.step] at h
    split at h
    · rename_i who hwho
      have hmem := mem_of_getElem? hwho
      have hcall := hinv.calls who hmem
      have herase := held_eraseIdx hwho
      have hsub : ∀ x ∈ s.sleepers.eraseIdx i, x ∈ s.sleepers :=
        fun _ => mem_of_mem_eraseIdx
      have hheld := fun x hx => hinv.held x (hsub x hx)
      have hcalls := fun x hx => hinv.calls x (hsub x hx)
      obtain ⟨hkeep, hlose⟩ := wake_leaves hinv.fixed (hinv.held who hmem) hcall intr mem
      by_cases hl : who.Loses s.ex intr
      · obtain ⟨n, hn, hleaves⟩ := hlose hl
        obtain ⟨hinv', hcount⟩ := settle_leaves hleaves hcall hheld hcalls h
        refine ⟨hinv', fun hnot => absurd ⟨who, hwho, hl⟩ hnot, fun _ => ?_⟩
        rw [hcount, ExtentSys.descriptors]
        omega
      · obtain ⟨hinv', hcount⟩ := settle_leaves (hkeep hl) hcall hheld hcalls h
        refine ⟨hinv', fun _ => ?_, ?_⟩
        · rw [hcount, ExtentSys.descriptors]
          omega
        · rintro ⟨who', hwho', hl'⟩
          rw [Option.mem_def, hwho] at hwho'
          cases hwho'
          exact absurd hl' hl
    · cases h

/-- A new fixed extent. -/
theorem fixed_create {start stop : UInt64} {sz : Nat} {flags : ExtentFlags} {mem : Bool}
    {ex : Extent} (h : extentCreate start stop (some sz) flags mem = some ex)
    (hflags : flags.mallocok = false) :
    Fixed ex ∧ ex.descriptors = (sz - sizeofExtentFixed) / sizeofExtentRegion := by
  have hnew : ∀ r ∈ List.replicate ((sz - sizeofExtentFixed) / sizeofExtentRegion)
      (⟨0, 0, false, false⟩ : ExtentRegion), r.Plain := by
    intro r hr
    rw [eq_of_mem_replicate hr]
    exact ⟨rfl, rfl⟩
  unfold extentCreate at h
  split at h
  · cases h
  split at h
  · cases h
  split at h
  · cases h
  dsimp only at h
  split at h
  · -- the one region of a filled extent takes a descriptor
    split at h
    · rename_i ex' rp hgot
      have hempty : ∀ r ∈ ([] : List ExtentRegion), r.Plain :=
        fun r hr => absurd hr not_mem_nil
      obtain ⟨hrp, hfixed, hcount⟩ := descriptor_got hgot ⟨rfl, hnew, hempty⟩ hflags
      cases h
      refine ⟨hfixed.setRegions fun r hr => ?_, ?_⟩
      · rw [mem_singleton.1 hr]
        exact hrp
      · have hregions := (sameRegions_got hgot).regions
        simp only [Extent.descriptors, hregions, length_replicate, length_nil,
          length_singleton] at hcount ⊢
        omega
    · cases h
    · cases h
  · cases h
    refine ⟨⟨rfl, hnew, fun r hr => absurd hr not_mem_nil⟩, ?_⟩
    simp only [Extent.descriptors, length_replicate, length_nil, Nat.add_zero]

/-- In a run without `EX_MALLOCOK` on a new fixed extent, in which no event loses one, the
    descriptors are always those of its storage: on the free list, in the region list, and
    with the threads that wait for space. -/
theorem fixed_descriptors_of_run {start stop : UInt64} {sz : Nat} {flags : ExtentFlags}
    {mem : Bool} {ex : Extent} (hcreate : extentCreate start stop (some sz) flags mem = some ex)
    (hflags : flags.mallocok = false) {events : List ExtentEvent} {s : ExtentSys}
    (hrun : Run ExtentSys.step (fun s e => e.NoMalloc ∧ ¬ s.Loses e) ⟨ex, []⟩ events s) :
    s.descriptors = (sz - sizeofExtentFixed) / sizeofExtentRegion ∧
      ((∀ who ∈ s.sleepers, who.held = []) →
        s.ex.fexFreelist.length + s.ex.exRegions.length
          = (sz - sizeofExtentFixed) / sizeofExtentRegion) := by
  obtain ⟨hfixed, hcount⟩ := fixed_create hcreate hflags
  -- one event that loses no descriptor keeps the count
  have hone : ∀ (s : ExtentSys) e s', (s.FixedInv ∧
        s.descriptors = (sz - sizeofExtentFixed) / sizeofExtentRegion) →
      (ExtentEvent.NoMalloc e ∧ ¬ s.Loses e) → s.step e = some s' →
      s'.FixedInv ∧ s'.descriptors = (sz - sizeofExtentFixed) / sizeofExtentRegion := by
    rintro s e s' ⟨hinv, hcount⟩ ⟨hmalloc, hkeep⟩ hstep
    obtain ⟨hinv', hsame, -⟩ := step_descriptors hinv hmalloc hstep
    exact ⟨hinv', (hsame hkeep).trans hcount⟩
  have hinv : s.FixedInv ∧ s.descriptors = (sz - sizeofExtentFixed) / sizeofExtentRegion := by
    apply hrun.invariant hone
    refine ⟨⟨hfixed, ?_, ?_⟩, hcount⟩
    · exact fun who hwho => absurd hwho not_mem_nil
    · exact fun who hwho => absurd hwho not_mem_nil
  refine ⟨hinv.2, fun hnone => ?_⟩
  have hheld : s.sleepers.flatMap Sleeper.held = [] := flatMap_eq_nil_iff.2 hnone
  have htotal := hinv.2
  rw [ExtentSys.descriptors, hheld] at htotal
  exact htotal

/-- Three descriptors: one region is allocated next to the start of the extent, a second one
    apart from it, and a part of the first is freed again. -/
theorem fixed_descriptors_of_run_three : ∃ ex s, extentCreate 0 99 (some 200) {} true = some ex ∧
      Run ExtentSys.step (fun s e => e.NoMalloc ∧ ¬ s.Loses e) ⟨ex, []⟩
        [.call (.allocSubregion ⟨0, 99, 10, 1, 0, 0, {}⟩) true,
          .call (.allocSubregion ⟨50, 99, 10, 1, 0, 0, {}⟩) true, .call (.free 3 4 {}) true] s ∧
      s.ex.fexFreelist.length + s.ex.exRegions.length = 3 := by
  have hcreate : extentCreate 0 99 (some 200) {} true
      = some ⟨[], 0, 99, true, false, false, false,
          [⟨0, 0, false, false⟩, ⟨0, 0, false, false⟩, ⟨0, 0, false, false⟩]⟩ := rfl
  have hfirst : ExtentSys.step ⟨⟨[], 0, 99, true, false, false, false,
          [⟨0, 0, false, false⟩, ⟨0, 0, false, false⟩, ⟨0, 0, false, false⟩]⟩, []⟩
        (.call (.allocSubregion ⟨0, 99, 10, 1, 0, 0, {}⟩) true)
      = some ⟨⟨[⟨0, 9, false, false⟩], 0, 99, true, false, false, false,
          [⟨0, 0, false, false⟩, ⟨0, 0, false, false⟩]⟩, []⟩ := by
    decide
  have hsecond : ExtentSys.step ⟨⟨[⟨0, 9, false, false⟩], 0, 99, true, false, false, false,
          [⟨0, 0, false, false⟩, ⟨0, 0, false, false⟩]⟩, []⟩
        (.call (.allocSubregion ⟨50, 99, 10, 1, 0, 0, {}⟩) true)
      = some ⟨⟨[⟨0, 9, false, false⟩, ⟨50, 59, false, false⟩], 0, 99, true, false, false, false,
          [⟨0, 0, false, false⟩]⟩, []⟩ := by
    decide
  have hthird : ExtentSys.step ⟨⟨[⟨0, 9, false, false⟩, ⟨50, 59, false, false⟩], 0, 99, true, false,
          false, false, [⟨0, 0, false, false⟩]⟩, []⟩
        (.call (.free 3 4 {}) true)
      = some ⟨⟨[⟨0, 2, false, false⟩, ⟨7, 9, false, false⟩, ⟨50, 59, false, false⟩], 0, 99, true,
          false, false, false, []⟩, []⟩ := by
    decide
  have hrun : Run ExtentSys.step (fun s e => e.NoMalloc ∧ ¬ s.Loses e) _
      [.call (.allocSubregion ⟨0, 99, 10, 1, 0, 0, {}⟩) true,
        .call (.allocSubregion ⟨50, 99, 10, 1, 0, 0, {}⟩) true, .call (.free 3 4 {}) true] _ :=
    .cons ⟨rfl, fun h => h.2⟩ hfirst (.cons ⟨rfl, fun h => h.2⟩ hsecond
      (.cons ⟨rfl, fun h => h.2⟩ hthird (.nil _)))
  exact ⟨_, _, hcreate, hrun, (fixed_descriptors_of_run hcreate rfl hrun).2
    fun who hwho => absurd hwho not_mem_nil⟩

/-- A thread that waits for space in a full extent is interrupted: of three descriptors two
    are left. -/
theorem descriptor_lost_on_signal : ∃ ex s, extentCreate 0 99 (some 200) {} true = some ex ∧
      Run ExtentSys.step (fun _ e => e.NoMalloc) ⟨ex, []⟩
        [.call (.allocSubregion ⟨0, 99, 100, 1, 0, 0, {}⟩) true,
          .call (.allocSubregion ⟨0, 99, 10, 1, 0, 0, { waitspace := true, catchSignals := true }⟩)
            true,
          .wake 0 true true] s ∧
      ex.fexFreelist.length + ex.exRegions.length = 3 ∧ s.sleepers = [] ∧
      s.ex.fexFreelist.length + s.ex.exRegions.length = 2 := by
  have hfill : ExtentSys.step ⟨⟨[], 0, 99, true, false, false, false,
          [⟨0, 0, false, false⟩, ⟨0, 0, false, false⟩, ⟨0, 0, false, false⟩]⟩, []⟩
        (.call (.allocSubregion ⟨0, 99, 100, 1, 0, 0, {}⟩) true)
      = some ⟨⟨[⟨0, 99, false, false⟩], 0, 99, true, false, false, false,
          [⟨0, 0, false, false⟩, ⟨0, 0, false, false⟩]⟩, []⟩ := by
    decide
  have hwait : ExtentSys.step ⟨⟨[⟨0, 99, false, false⟩], 0, 99, true, false, false, false,
          [⟨0, 0, false, false⟩, ⟨0, 0, false, false⟩]⟩, []⟩
        (.call (.allocSubregion ⟨0, 99, 10, 1, 0, 0, { waitspace := true, catchSignals := true }⟩)
          true)
      = some ⟨⟨[⟨0, 99, false, false⟩], 0, 99, true, false, true, false, [⟨0, 0, false, false⟩]⟩,
          [.space (.allocSubregion ⟨0, 99, 10, 1, 0, 0,
            { waitspace := true, catchSignals := true }⟩) ⟨0, 0, false, false⟩]⟩ := by
    decide
  have hsignal : ExtentSys.step ⟨⟨[⟨0, 99, false, false⟩], 0, 99, true, false, true, false,
          [⟨0, 0, false, false⟩]⟩, [.space (.allocSubregion ⟨0, 99, 10, 1, 0, 0,
            { waitspace := true, catchSignals := true }⟩) ⟨0, 0, false, false⟩]⟩
        (.wake 0 true true)
      = some ⟨⟨[⟨0, 99, false, false⟩], 0, 99, true, false, true, false,
          [⟨0, 0, false, false⟩]⟩, []⟩ := by
    decide
  exact ⟨_, _, rfl, .cons rfl hfill (.cons rfl hwait (.cons trivial hsignal (.nil _))), rfl, rfl, rfl⟩

end OpenBsd.Kern
