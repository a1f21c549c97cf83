/-
  OpenBsd.Kern.ExtentBestFit

  Without a boundary `extent_alloc_subregion` fails only when there is no place.

  The search tries the lowest aligned address of every gap.  What it returns leaves
  no more space up to the next region than the lowest place of any other gap would;
  a higher place of a gap is never tried, even where it ends at the next region.
-/

import OpenBsd.Kern.ExtentHonours

namespace OpenBsd.Kern

open OpenBsd.Lib List

/-! ## Places and gaps -/

/-- The first region behind `r`. -/
def nextRegion (ex : Extent) (r : Nat) : Option ExtentRegion :=
  ex.exRegions.find? fun e => r < e.lo

/-- The space left between the request at `r` and the next region, or the end of the
    extent. -/
def spaceBehind (ex : Extent) (req : Subregion) (r : Nat) : Nat :=
  ((nextRegion ex r).elim (ex.exEnd.toNat + 1) ExtentRegion.lo) - (r + req.size.toNat)

/-- The request can be placed at `r`. -/
structure PlaceFor (ex : Extent) (req : Subregion) (r : Nat) : Prop where
  fits : FitsFree ex req r
  aligned : req.Aligned r

/-- `r` is the lowest place of its gap: a region separates it from every lower one. -/
structure LowestPlace (ex : Extent) (req : Subregion) (r : Nat) : Prop where
  place : PlaceFor ex req r
  lowest : ∀ r' < r, PlaceFor ex req r' → ∃ e ∈ ex.exRegions, r' < e.lo ∧ e.hi < r

/-- `extent_alloc_subregion` on `ex` returns `EAGAIN`, at once or in a thread that has
    slept in it. -/
def AllocRefused (ex : Extent) (req : Subregion) : Prop :=
  (∃ mem ex' result, (ExtentCall.allocSubregion req).run ex mem = .ret ex' (some .eagain) result) ∨
    ∃ who intr mem ex' result, Sleeper.call who = .allocSubregion req ∧
      who.wake ex intr mem = .ret ex' (some .eagain) result

section

variable {ex : Extent} {req : Subregion}

variable {ex' : Extent} {result : Option UInt64}

theorem doAlloc_refused {rp : ExtentRegion}
    (h : extentDoAlloc ex req rp = .ret ex' (some .eagain) result) :
    req.check ex = true ∧ offers ex req = [] := by
  unfold extentDoAlloc at h
  rw [searchPlace_eq] at h
  split at h
  · cases h
  · rename_i hcheck
    rw [Bool.not_eq_true', Bool.not_eq_false] at hcheck
    refine ⟨hcheck, bestOffer_eq_none_iff.1 ?_⟩
    cases hbest : bestOffer ex req with
    | none => rfl
    | some o =>
      rw [hbest, Option.map_some] at h
      cases h

theorem SameRegions.offers_eq (h : SameRegions ex ex') : offers ex' req = offers ex req := by
  simp only [offers, h.regions, h.offersFrom_eq]

theorem resume_refused {mem : Bool}
    (h : (ExtentCall.allocSubregion req).resume ex mem = .ret ex' (some .eagain) result) :
    req.check ex = true ∧ offers ex req = [] := by
  unfold ExtentCall.resume at h
  dsimp only at h
  split at h
  · rename_i ex₁ rp hgot
    have hrefused := doAlloc_refused h
    rwa [(sameRegions_got hgot).offers_eq, (sameRegions_got hgot).subregionCheck_eq] at hrefused
  · cases h
  · cases h

theorem AllocRefused.offers_nil (h : AllocRefused ex req) :
    req.check ex = true ∧ offers ex req = [] := by
  rcases h with ⟨mem, ex', result, h⟩ | ⟨who, intr, mem, ex', result, hcall, h⟩
  · exact resume_refused h
  · cases who with
    | freelist c =>
      obtain rfl : c = .allocSubregion req := hcall
      unfold Sleeper.wake at h
      dsimp only at h
      split at h
      · cases h
      · exact resume_refused h
    | space c rp =>
      obtain rfl : c = .allocSubregion req := hcall
      unfold Sleeper.wake at h
      dsimp only at h
      split at h
      · cases h
      · exact doAlloc_refused h

/-! ## Every gap with a place makes an offer -/

/-- The offer lies in the gap of the place `r`, and not above it. -/
structure Offer.Covers (req : Subregion) (r : Nat) (o : Offer) : Prop where
  le : o.place.newstart.toNat ≤ r
  above : ∀ l ∈ o.place.pre, l.hi < r
  below : ∀ n ∈ o.place.rest, r + (req.size.toNat - 1) < n.lo

theorem boundaryCheck_zero (hb : req.boundary = 0) (fit : UInt64 → Bool) (c : UInt64) :
    boundaryCheck ex req fit c = .fits c := by
  rw [boundaryCheck, if_pos (beq_iff_eq.2 hb)]

theorem finalOffering_covers {exend c : UInt64} {pre rest : List ExtentRegion} {r : Nat}
    (hb : req.boundary = 0) (hpos : 1 ≤ req.size.toNat) (hle : c.toNat ≤ r)
    (hr : PlaceFor ex req r) (hpre : ∀ l ∈ pre, l.hi < r)
    (hrest : ∀ n ∈ rest, req.subend.toNat < n.lo) :
    ∃ o ∈ finalOffering ex req exend c pre rest, o.Covers req r := by
  have hone : (1 : UInt64) ≤ req.size := UInt64.le_iff_toNat_le.mpr hpos
  have hupper := hr.fits.upper
  have hfit : leOv c (req.size - 1) req.subend = true := by
    rw [leOv_iff, UInt64.toNat_sub_of_le _ _ hone, UInt64.toNat_one]
    omega
  refine ⟨⟨c, exend - c - (req.size - 1), ⟨c, pre, rest⟩⟩, ?_, hle, hpre, fun n hn => ?_⟩
  · simp only [finalOffering, hfit, if_true, boundaryCheck_zero hb, Option.mem_def]
  · have := hrest n hn
    omega

theorem chunkOffering_zero (hb : req.boundary = 0) (c : UInt64) (pre : List ExtentRegion)
    (rp : ExtentRegion) (rest : List ExtentRegion) :
    chunkOffering ex req c pre rp rest =
      if leOv c req.size rp.erStart then
        .offer ⟨c, rp.erStart - c - req.size, ⟨c, pre, rp :: rest⟩⟩
      else .skip := by
  simp only [chunkOffering, boundaryCheck_zero hb]

variable {pre rest : List ExtentRegion} {r : Nat}

/-- The search makes an offer in the gap of every place it has not passed.  The induction is
    on the regions ahead. -/
theorem offersFrom_covers {c : UInt64}
    (hok : RegionsOk ex) (hp : req.Proper) (hb : req.boundary = 0) (hpos : 1 ≤ req.size.toNat)
    (hsplit : pre.reverse ++ rest = ex.exRegions) (hr : PlaceFor ex req r)
    (hle : c.toNat ≤ r) (hpre : ∀ l ∈ pre, l.hi < r) :
    ∃ o ∈ offersFrom ex req c pre rest, o.Covers req r := by
  induction rest generalizing c pre with
  | nil =>
    obtain ⟨o, ho, hcovers⟩ := @finalOffering_covers ex req ex.exEnd c pre [] r hb hpos hle hr hpre
      fun n hn => absurd hn not_mem_nil
    exact ⟨o, Option.mem_toList.2 ho, hcovers⟩
  | cons rp rest ih =>
    rw [offersFrom]
    split
    · rename_i hpast
      have hbelow := (hok.below_rest hsplit (UInt64.lt_iff_toNat_lt.mp hpast)).2
      obtain ⟨o, ho, hcovers⟩ :=
        @finalOffering_covers ex req rp.erStart c pre (rp :: rest) r hb hpos hle hr hpre hbelow
      exact ⟨o, Option.mem_toList.2 ho, hcovers⟩
    have hmem : rp ∈ ex.exRegions := by
      rw [← hsplit]
      exact mem_append_right _ (mem_cons_self ..)
    rw [chunkOffering_zero hb]
    rcases hr.fits.free rp hmem with hbehind | hbefore
    · -- the place lies behind `rp`, where the search goes next
      obtain ⟨k, hk⟩ := hp.alignment
      have hnext : alignUp req.alignment.toNat req.skew.toNat (rp.hi + 1) ≤ r :=
        alignUp_least (hk ▸ Nat.two_pow_pos k) hbehind hr.aligned
      have hgt := le_alignUp req.alignment.toNat req.skew.toNat (rp.hi + 1)
      have hupper := hr.fits.upper
      have hbound := req.subend.toNat_lt
      have halign : (extentAlign (rp.erEnd + 1) req.alignment req.skew).toNat
          = alignUp req.alignment.toNat req.skew.toNat (rp.hi + 1) := by
        rw [extentAlign_toNat hk (add_one_mod rp.erEnd)]
        exact Nat.mod_eq_of_lt (by simp only [ExtentRegion.hi] at hnext; omega)
      have hlater : ∃ o ∈ offersFrom ex req (extentAlign (rp.erEnd + 1) req.alignment req.skew)
          (rp :: pre) rest, o.Covers req r := by
        refine ih ?_ (by omega) fun l hl => ?_
        · rw [← hsplit, reverse_cons, append_assoc, singleton_append]
        · exact (mem_cons.1 hl).elim (fun h => h ▸ hbehind) (hpre l)
      have hnot : ¬ extentAlign (rp.erEnd + 1) req.alignment req.skew < rp.erEnd := by
        rw [UInt64.lt_iff_toNat_lt, halign]
        simp only [ExtentRegion.hi] at hgt ⊢
        omega
      obtain ⟨o, ho, hcovers⟩ := hlater
      dsimp only
      rw [if_neg hnot]
      refine ⟨o, ?_, hcovers⟩
      split_ifs
      · exact mem_cons_of_mem _ ho
      · exact ho
    · -- the place lies before `rp`, and the candidate below it fits as well
      have hfit : leOv c req.size rp.erStart = true := by
        rw [leOv_iff]
        simp only [ExtentRegion.lo] at hbefore
        omega
      rw [if_pos hfit]
      refine ⟨_, mem_cons_self .., hle, hpre, ?_⟩
      exact (hok.below_rest hsplit hbefore).2

theorem offers_covers (hok : RegionsOk ex) (hp : req.Proper)
    (hb : req.boundary = 0) (hcheck : req.check ex = true) (hr : PlaceFor ex req r) :
    ∃ o ∈ offers ex req, o.Covers req r := by
  obtain ⟨hw, hstart⟩ := startsUnwrapped_of_fits hp hr.fits hr.aligned
  obtain ⟨hpos, -, -, -⟩ := check_facts hcheck
  rcases hadvance : advance (alignedStart req) [] ex.exRegions with ⟨pre, rest⟩
  have hc := alignedCandidate_first hok hp hcheck hw hadvance
  -- the regions passed start below the place, so they end below it
  have hpre : ∀ l ∈ pre, l.hi < r := by
    intro l hl
    have hlt := UInt64.lt_iff_toNat_lt.1
      ((advance_spec hadvance).2 (fun r hr => absurd hr not_mem_nil) l hl)
    have hmem : l ∈ ex.exRegions := by
      rw [← hc.split]
      exact mem_append_left _ (mem_reverse.2 hl)
    refine (hr.fits.free l hmem).resolve_right ?_
    simp only [ExtentRegion.lo]
    omega
  have hle : (relocate req pre.head?).toNat ≤ r := by
    unfold relocate
    split
    · rename_i last hlast
      split
      · obtain ⟨k, hk⟩ := hp.alignment
        have hnext : alignUp req.alignment.toNat req.skew.toNat (last.hi + 1) ≤ r :=
          alignUp_least (hk ▸ Nat.two_pow_pos k) (hpre last (mem_of_head? hlast)) hr.aligned
        rw [extentAlign_toNat hk (add_one_mod last.erEnd)]
        exact Nat.le_trans (Nat.mod_le ..) hnext
      · exact hstart
    · exact hstart
  rw [offers, hadvance]
  exact offersFrom_covers hok hp hb hpos hc.split hr hle hpre

/-! ## Overhead and space -/

theorem FitsAt.nextRegion_eq {start size : UInt64}
    (hok : RegionsOk ex) (h : FitsAt ex start size pre rest) :
    nextRegion ex start.toNat = rest.head? := by
  have hpre : pre.reverse.find? (fun e => start.toNat < e.lo) = none := by
    rw [find?_eq_none]
    intro e he
    have hlt := h.above e (mem_reverse.1 he)
    have hle := hok.nonempty e (by
      rw [← h.split]
      exact mem_append_left _ he)
    simp only [decide_eq_true_eq]
    omega
  rw [nextRegion, ← h.split, find?_append, hpre, Option.none_or]
  cases rest with
  | nil => rfl
  | cons rp rest =>
    have := h.below rp (mem_cons_self ..)
    exact find?_cons_of_pos (decide_eq_true (by omega))

/-- The next region behind `r` does not start behind the subregion. -/
def NextWithin (ex : Extent) (req : Subregion) (r : Nat) : Prop :=
  ∀ e, nextRegion ex r = some e → e.erStart ≤ req.subend

/-- The overhead is the space behind the place, or one more. -/
theorem ovh_space {p : Place} (hok : RegionsOk ex)
    (h : FitsAt ex p.newstart req.size p.pre p.rest) :
    spaceBehind ex req p.newstart.toNat ≤ (p.ovh ex req).toNat ∧
      (NextWithin ex req p.newstart.toNat →
        (p.ovh ex req).toNat = spaceBehind ex req p.newstart.toNat) := by
  have hone : (1 : UInt64) ≤ req.size := UInt64.le_iff_toNat_le.mpr h.pos
  have hlast : (req.size - 1).toNat = req.size.toNat - 1 := by
    rw [UInt64.toNat_sub_of_le _ _ hone, UInt64.toNat_one]
  have hpos := h.pos
  -- the differences of the code do not wrap
  have hsub : ∀ x y : UInt64, p.newstart.toNat + y.toNat ≤ x.toNat →
      (x - p.newstart - y).toNat = x.toNat - (p.newstart.toNat + y.toNat) := by
    intro x y hle
    have hx := x.toNat_lt
    rw [UInt64.toNat_sub, UInt64.toNat_sub]
    omega
  unfold spaceBehind NextWithin
  rw [h.nextRegion_eq hok]
  rcases hrest : p.rest with _ | ⟨rp, rest⟩
  · have hupper := h.upper
    have hovh : (p.ovh ex req).toNat = ex.exEnd.toNat + 1 - (p.newstart.toNat + req.size.toNat) := by
      rw [Place.ovh, hrest]
      rw [hsub _ _ (by omega)]
      omega
    exact ⟨Nat.le_of_eq hovh.symm, fun _ => hovh⟩
  · have hbelow := h.below rp (by rw [hrest]; exact mem_cons_self ..)
    simp only [head?_cons, Option.elim_some, ExtentRegion.lo] at hbelow ⊢
    by_cases hpast : rp.erStart > req.subend
    · refine ⟨?_, fun hin => absurd (hin rp rfl) (UInt64.not_le.2 hpast)⟩
      rw [Place.ovh, hrest]
      simp only [if_pos hpast]
      rw [hsub _ _ (by omega)]
      omega
    · have hovh : (p.ovh ex req).toNat = rp.erStart.toNat - (p.newstart.toNat + req.size.toNat) := by
        rw [Place.ovh, hrest]
        simp only [if_neg hpast]
        exact hsub _ _ (by omega)
      exact ⟨Nat.le_of_eq hovh.symm, fun _ => hovh⟩

theorem LowestPlace.eq_offer {o : Offer} (hok : RegionsOk ex)
    (hr : LowestPlace ex req r) (ho : o.Sound ex req) (hb : req.boundary = 0)
    (hcovers : o.Covers req r) : o.place.newstart.toNat = r := by
  have hplace : PlaceFor ex req o.place.newstart.toNat := by
    refine ⟨ho.fitsFree, ?_⟩
    rcases ho.start with ⟨-, hstart⟩ | ⟨hcross, -⟩
    · rw [hstart]
      exact ho.aligned
    · exact absurd hcross (not_crosses_of_zero hb)
  by_contra hne
  obtain ⟨e, he, hlo, hhi⟩ := hr.lowest _ (Nat.lt_of_le_of_ne hcovers.le hne) hplace
  have hle := hok.nonempty e he
  -- a region between the two would lie on one side of both
  rw [← ho.fits.split, mem_append, mem_reverse] at he
  rcases he with he | he
  · have := ho.fits.above e he
    omega
  · have := hcovers.below e he
    omega

theorem bestOffer_le {o o' : Offer} (hfast : req.flags.fast = false)
    (h : bestOffer ex req = some o) (h' : o' ∈ offers ex req) : o.ovh.toNat ≤ o'.ovh.toNat := by
  rw [bestOffer, hfast, if_neg Bool.false_ne_true] at h
  exact le_of_mem_argmin (f := fun o : Offer => o.ovh.toNat) h' h

theorem bestOffer_space {o : Offer} (hok : RegionsOk ex) (hp : req.Proper)
    (hb : req.boundary = 0) (hcheck : req.check ex = true) (hfast : req.flags.fast = false)
    (h : bestOffer ex req = some o) (hr : LowestPlace ex req r) (hin : NextWithin ex req r) :
    spaceBehind ex req o.place.newstart.toNat ≤ spaceBehind ex req r := by
  have hw := (startsUnwrapped_of_fits hp hr.place.fits hr.place.aligned).1
  obtain ⟨o', ho', hcovers⟩ := offers_covers hok hp hb hcheck hr.place
  have hsound := offers_sound hok hp hcheck hw (bestOffer_mem h)
  have hsound' := offers_sound hok hp hcheck hw ho'
  have heq := hr.eq_offer hok hsound' hb hcovers
  calc spaceBehind ex req o.place.newstart.toNat
      ≤ (o.place.ovh ex req).toNat := (ovh_space hok hsound.fits).1
    _ = o.ovh.toNat := by rw [(offers_place (bestOffer_mem h)).2]
    _ ≤ o'.ovh.toNat := bestOffer_le hfast h ho'
    _ = (o'.place.ovh ex req).toNat := by rw [(offers_place ho').2]
    _ = spaceBehind ex req r := by
      rw [← heq]
      exact (ovh_space hok hsound'.fits).2 (by rw [heq]; exact hin)

end

/-- Without a boundary `EAGAIN` means that there is no place, and without `EX_FAST` the
    result leaves no more space behind it than the lowest place of any gap would that ends in
    the subregion or with the extent. -/
theorem allocSubregion_best_fit {ex : Extent} {req : Subregion} (hok : RegionsOk ex)
    (hp : req.Proper) (hb : req.boundary = 0) :
    (AllocRefused ex req → ∀ r, ¬ PlaceFor ex req r) ∧
      (req.flags.fast = false → ∀ r, AllocReturns ex req r → ∀ r', LowestPlace ex req r' →
        NextWithin ex req r' → spaceBehind ex req r.toNat ≤ spaceBehind ex req r') := by
  constructor
  · intro hrefused r hr
    obtain ⟨hcheck, hnil⟩ := hrefused.offers_nil
    obtain ⟨o, ho, -⟩ := offers_covers hok hp hb hcheck hr
    rw [hnil] at ho
    exact absurd ho not_mem_nil
  · rintro hfast r hret r' hr' hin
    obtain ⟨hcheck, o, ho, rfl⟩ := allocReturns_iff.1 hret
    exact bestOffer_space hok hp hb hcheck hfast ho hr' hin

/-- Five addresses out of gaps of ten, five and seventy: the second gap is taken.  Fifteen
    addresses below 30 are refused. -/
theorem allocSubregion_best_fit_middle :
    (AllocReturns ⟨[⟨10, 19, true, false⟩, ⟨25, 29, true, false⟩], 0, 99, false, false, false,
        false, []⟩ ⟨0, 99, 5, 1, 0, 0, {}⟩ 20 ∧
      spaceBehind ⟨[⟨10, 19, true, false⟩, ⟨25, 29, true, false⟩], 0, 99, false, false, false,
          false, []⟩ ⟨0, 99, 5, 1, 0, 0, {}⟩ 20
        ≤ spaceBehind ⟨[⟨10, 19, true, false⟩, ⟨25, 29, true, false⟩], 0, 99, false, false, false,
          false, []⟩ ⟨0, 99, 5, 1, 0, 0, {}⟩ 0) ∧
      ∀ r, ¬ PlaceFor ⟨[⟨10, 19, true, false⟩, ⟨25, 29, true, false⟩], 0, 99, false, false, false,
        false, []⟩ ⟨0, 29, 15, 1, 0, 0, {}⟩ r := by
  have hok : RegionsOk ⟨[⟨10, 19, true, false⟩, ⟨25, 29, true, false⟩], 0, 99, false, false,
      false, false, []⟩ := ⟨by decide, by decide, pairwise_pair.2 (by decide)⟩
  have hret : AllocReturns ⟨[⟨10, 19, true, false⟩, ⟨25, 29, true, false⟩], 0, 99, false, false,
      false, false, []⟩ ⟨0, 99, 5, 1, 0, 0, {}⟩ 20 :=
    .inl ⟨true, ⟨[⟨10, 29, true, false⟩], 0, 99, false, false, false, false, []⟩, by decide⟩
  have hrefused : AllocRefused ⟨[⟨10, 19, true, false⟩, ⟨25, 29, true, false⟩], 0, 99, false, false,
      false, false, []⟩ ⟨0, 29, 15, 1, 0, 0, {}⟩ :=
    .inl ⟨true, ⟨[⟨10, 19, true, false⟩, ⟨25, 29, true, false⟩], 0, 99, false, false, false, false,
      []⟩, none, by decide⟩
  refine ⟨⟨hret, ?_⟩, (allocSubregion_best_fit hok ⟨⟨0, rfl⟩, by decide, .inl rfl⟩ rfl).1 hrefused⟩
  refine (allocSubregion_best_fit hok ⟨⟨0, rfl⟩, by decide, .inl rfl⟩ rfl).2 rfl 20 hret 0 ?_ ?_
  · exact ⟨⟨⟨by decide, by decide, by decide⟩, by decide⟩, fun r hr => absurd hr r.not_lt_zero⟩
  · rintro e he
    cases he
    decide

/-- Ten addresses below the region `[90, 99]`: the result 0 leaves 80 addresses free behind
    it, where 80 would leave none. -/
theorem allocSubregion_leaves_space :
    RegionsOk ⟨[⟨90, 99, true, false⟩], 0, 99, false, false, false, false, []⟩ ∧
      Subregion.Proper ⟨0, 99, 10, 1, 0, 0, {}⟩ ∧
      AllocReturns ⟨[⟨90, 99, true, false⟩], 0, 99, false, false, false, false, []⟩
        ⟨0, 99, 10, 1, 0, 0, {}⟩ 0 ∧
      PlaceFor ⟨[⟨90, 99, true, false⟩], 0, 99, false, false, false, false, []⟩
        ⟨0, 99, 10, 1, 0, 0, {}⟩ 80 ∧
      spaceBehind ⟨[⟨90, 99, true, false⟩], 0, 99, false, false, false, false, []⟩
          ⟨0, 99, 10, 1, 0, 0, {}⟩ 80
        < spaceBehind ⟨[⟨90, 99, true, false⟩], 0, 99, false, false, false, false, []⟩
          ⟨0, 99, 10, 1, 0, 0, {}⟩ 0 := by
  refine ⟨⟨by decide, by decide, pairwise_singleton ..⟩, ⟨⟨0, rfl⟩, by decide, .inl rfl⟩, ?_,
    ⟨⟨by decide, by decide, by decide⟩, by decide⟩, by decide⟩
  exact .inl ⟨true, ⟨[⟨0, 9, true, false⟩, ⟨90, 99, true, false⟩], 0, 99, false, false, false,
    false, []⟩, by decide⟩

end OpenBsd.Kern
