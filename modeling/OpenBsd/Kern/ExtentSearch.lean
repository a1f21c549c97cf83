/-
  OpenBsd.Kern.ExtentSearch

  The search of `extent_do_alloc` for a place.

  The search moves its candidate behind an allocated region with
  `extent_align(er_end + 1)` in two places and tests for overflow in only one of
  them.  `NoWrap` says that the other one does not overflow, and that a next
  boundary that overflows is recognised as such; then every place the search comes
  up with lies in the gap it names.
-/

import OpenBsd.Kern.ExtentInsert

namespace OpenBsd.Kern

open OpenBsd.Lib List

variable {x a newstart newstart' : UInt64} {pre : List ExtentRegion} {best : BestPlace} {p : Place}
  {rp : ExtentRegion}

/-! ## Alignment -/

theorem and_neg_eq (z a : UInt64) : z &&& (-a) = z - (z &&& (a - 1)) := by
  -- -a masks what a - 1 does not
  have hneg : -a = ~~~(a - 1) := by
    apply UInt64.eq_of_toBitVec_eq
    simp only [UInt64.toBitVec_neg, UInt64.toBitVec_not, UInt64.toBitVec_sub, UInt64.toBitVec_one]
    rw [BitVec.not_eq_neg_add, BitVec.neg_sub]
    bv_omega
  -- the two parts share no bit
  have hsum : (z &&& (a - 1)) + (z &&& ~~~(a - 1)) = z := by
    apply UInt64.eq_of_toBitVec_eq
    simp only [UInt64.toBitVec_add, UInt64.toBitVec_and, UInt64.toBitVec_not]
    rw [BitVec.add_eq_or_of_and_eq_zero]
    · ext i hi
      simp only [BitVec.getElem_or, BitVec.getElem_and, BitVec.getElem_not]
      cases z.toBitVec[i] <;> cases (a - 1).toBitVec[i] <;> rfl
    · ext i hi
      simp only [BitVec.getElem_and, BitVec.getElem_not, BitVec.getElem_zero]
      cases z.toBitVec[i] <;> cases (a - 1).toBitVec[i] <;> rfl
  rw [hneg]
  grind

theorem one_le_toNat (hx : x ≠ 0) : 1 ≤ x.toNat := by
  have hne : x.toNat ≠ (0 : UInt64).toNat := UInt64.toNat_inj.not.mpr hx
  rw [UInt64.toNat_zero] at hne
  omega

theorem extentAlign_eq (x s : UInt64) (ha : a ≠ 0) :
    ∃ d, d < a.toNat ∧ (extentAlign x a s).toNat = (x.toNat + d) % 2 ^ 64 := by
  have hpos := one_le_toNat ha
  have hone : (1 : UInt64) ≤ a := UInt64.le_iff_toNat_le.mpr hpos
  have hle : ((x - s + (a - 1)) &&& (a - 1)) ≤ a - 1 := UInt64.and_le_right
  refine ⟨(a - 1 - ((x - s + (a - 1)) &&& (a - 1))).toNat, ?_, ?_⟩
  · rw [UInt64.toNat_sub_of_le _ _ hle, UInt64.toNat_sub_of_le _ _ hone, UInt64.toNat_one]
    omega
  · rw [← UInt64.toNat_add]
    congr 1
    rw [extentAlign, and_neg_eq]
    grind

theorem extentAlign_pow2 (x s : UInt64) {k : Nat} (ha : a.toNat = 2 ^ k) :
    ∃ q, (extentAlign x a s).toNat = (2 ^ k * q + s.toNat) % 2 ^ 64 := by
  have hpos : 1 ≤ a.toNat := ha ▸ Nat.one_le_two_pow
  have hone : (1 : UInt64) ≤ a := UInt64.le_iff_toNat_le.mpr hpos
  refine ⟨(x - s + (a - 1)).toNat / 2 ^ k, ?_⟩
  have hmask : ((x - s + (a - 1)) &&& (a - 1)).toNat = (x - s + (a - 1)).toNat % 2 ^ k := by
    rw [UInt64.toNat_and, UInt64.toNat_sub_of_le _ _ hone, UInt64.toNat_one, ha,
      Nat.and_two_pow_sub_one_eq_mod]
  have hsub : (x - s + (a - 1)) &&& (a - 1) ≤ x - s + (a - 1) := UInt64.and_le_left
  rw [extentAlign, and_neg_eq, UInt64.toNat_add, UInt64.toNat_sub_of_le _ _ hsub, hmask]
  have hdiv := Nat.div_add_mod (x - s + (a - 1)).toNat (2 ^ k)
  congr 2
  omega

theorem above_of_not_lt {s : UInt64} (ha : a ≠ 0) (h : ¬ extentAlign (x + 1) a s < x) :
    x.toNat < (extentAlign (x + 1) a s).toNat := by
  obtain ⟨d, hd, heq⟩ := extentAlign_eq (x + 1) s ha
  have hx := x.toNat_lt
  have hbound := a.toNat_lt
  rw [UInt64.lt_iff_toNat_lt] at h
  rw [UInt64.toNat_add, UInt64.toNat_one] at heq
  omega

theorem leOv_iff {y z : UInt64} : leOv x y z = true ↔ x.toNat + y.toNat ≤ z.toNat := by
  have hx := x.toNat_lt
  have hy := y.toNat_lt
  have hz := z.toNat_lt
  simp only [leOv, Bool.and_eq_true, decide_eq_true_eq, ge_iff_le, UInt64.le_iff_toNat_le,
    UInt64.toNat_add]
  omega

/-! ## The search -/

/-- A region of the list over which the search has to move its first candidate. -/
def Relocates (ex : Extent) (req : Subregion) (r : ExtentRegion) : Prop :=
  r ∈ ex.exRegions ∧ r.erStart < alignedStart req ∧ alignedStart req ≤ r.erEnd

/-- The addresses at which the search tries to place the request. -/
def Tries (ex : Extent) (req : Subregion) (newstart : UInt64) : Prop :=
  newstart = alignedStart req ∨
    ∃ r ∈ ex.exRegions, newstart = extentAlign (r.erEnd + 1) req.alignment req.skew

/-- No address of the search wraps around unnoticed: the first candidate, moved
    behind a region, stays above it, and a next boundary that wraps is recognised
    by lying below the extent. -/
structure NoWrap (ex : Extent) (req : Subregion) : Prop where
  relocate : ∀ r, Relocates ex req r →
    r.erEnd < extentAlign (r.erEnd + 1) req.alignment req.skew
  boundary : req.boundary ≠ 0 → ∀ newstart, Tries ex req newstart →
    dontcross ex req newstart < newstart → dontcross ex req newstart < ex.exStart

section

variable {ex : Extent} {req : Subregion}

theorem boundaryRoom_fits {cross : UInt64}
    (h : boundaryRoom ex req newstart cross = .fits newstart') : newstart' = newstart := by
  unfold boundaryRoom at h
  split at h
  · cases h
  · cases h
    rfl

theorem boundaryCheck_fits (fit : UInt64 → Bool) (hfit : fit newstart = true)
    (hdc : req.boundary ≠ 0 → dontcross ex req newstart < newstart → dontcross ex req newstart < ex.exStart)
    (h : boundaryCheck ex req fit newstart = .fits newstart') :
    newstart.toNat ≤ newstart'.toNat ∧ fit newstart' = true := by
  have hkeep : newstart' = newstart → newstart.toNat ≤ newstart'.toNat ∧ fit newstart' = true := by
    rintro rfl
    exact ⟨Nat.le_refl _, hfit⟩
  unfold boundaryCheck at h
  split at h
  · cases h
    exact hkeep rfl
  rename_i hb
  split at h
  · exact hkeep (boundaryRoom_fits h)
  rename_i hge
  split at h
  · rename_i hcross
    split at h
    · cases h
    · rename_i hmoved
      rw [boundaryRoom_fits h]
      refine ⟨?_, by simpa using hmoved⟩
      -- the boundary lies at or above the old candidate, and below its last address
      have hle := mt (hdc (by simpa using hb)) hge
      have hlt := (newstart + (req.size - 1)).toNat_lt
      rw [gt_iff_lt, UInt64.lt_iff_toNat_lt] at hcross
      rw [UInt64.lt_iff_toNat_lt] at hle
      rw [UInt64.toNat_add, UInt64.toNat_one, Nat.mod_eq_of_lt (by omega)]
      omega
  · exact hkeep (boundaryRoom_fits h)

/-- The candidate `newstart` in the gap between `pre` and `rest`. -/
structure Candidate (ex : Extent) (newstart : UInt64) (pre rest : List ExtentRegion) : Prop where
  split : pre.reverse ++ rest = ex.exRegions
  lower : ex.exStart.toNat ≤ newstart.toNat
  above : ∀ r ∈ pre, r.hi < newstart.toNat

variable {rest : List ExtentRegion}

theorem Candidate.fitsAt (hc : Candidate ex newstart pre rest)
    (hle : newstart.toNat ≤ newstart'.toNat) (hpos : 1 ≤ req.size.toNat)
    (hupper : newstart'.toNat + (req.size.toNat - 1) ≤ ex.exEnd.toNat)
    (hbelow : ∀ r ∈ rest, newstart'.toNat + (req.size.toNat - 1) < r.lo) :
    FitsAt ex newstart' req.size pre rest :=
  ⟨hc.split, hpos, Nat.le_trans hc.lower hle, hupper,
    fun r hr => Nat.lt_of_lt_of_le (hc.above r hr) hle, hbelow⟩

/-- A place at which the request may be inserted. -/
def Place.Good (ex : Extent) (req : Subregion) (p : Place) : Prop :=
  FitsAt ex p.newstart req.size p.pre p.rest

/-- The best place so far, if there is one. -/
def BestPlace.Good (ex : Extent) (req : Subregion) (best : BestPlace) : Prop :=
  best.bestovh ≠ 0 → best.place.Good ex req

theorem failOrBest_good (hbest : best.Good ex req) (h : failOrBest req best = some p) :
    p.Good ex req := by
  unfold failOrBest at h
  split at h
  · rename_i hovh
    cases h
    exact hbest (by simpa using (Bool.and_eq_true_iff.mp hovh).2)
  · cases h

theorem consider_good {ovh : UInt64} (hbest : best.Good ex req) (hp : p.Good ex req) :
    (best.consider ovh p).Good ex req := by
  unfold BestPlace.consider
  split
  · exact fun _ => hp
  · exact hbest

/-- The boundary condition on one candidate. -/
def BoundaryOk (ex : Extent) (req : Subregion) (newstart : UInt64) : Prop :=
  req.boundary ≠ 0 → dontcross ex req newstart < newstart → dontcross ex req newstart < ex.exStart

/-- The boundary condition always holds of a power of two: a next boundary that
    wraps is the rest of the extent's start. -/
theorem boundaryOk_of_pow2 {k : Nat} (hb : req.boundary.toNat = 2 ^ k) (newstart : UInt64) :
    BoundaryOk ex req newstart := by
  intro hne hlt
  rw [dontcross] at hlt ⊢
  generalize hskew : (if req.flags.boundzero then 0 else ex.exStart) = skew at hlt ⊢
  have hle : skew.toNat ≤ ex.exStart.toNat := by
    rw [← hskew]
    split
    · exact Nat.zero_le _
    · exact Nat.le_refl _
  obtain ⟨d, hd, hsum⟩ := extentAlign_eq (newstart + 1) skew hne
  obtain ⟨q, hq⟩ := extentAlign_pow2 (newstart + 1) skew hb
  have hkey : (extentAlign (newstart + 1) req.boundary skew).toNat % 2 ^ k = skew.toNat % 2 ^ k := by
    have hk : k ≤ 64 := by
      have hlt := req.boundary.toNat_lt
      rw [hb] at hlt
      exact Nat.le_of_lt ((Nat.pow_lt_pow_iff_right (by omega)).mp hlt)
    rw [hq, Nat.mod_mod_of_dvd _ (Nat.pow_dvd_pow 2 hk), Nat.mul_add_mod]
  have hrest := Nat.mod_le skew.toNat (2 ^ k)
  have hn := newstart.toNat_lt
  have hbound := (extentAlign (newstart + 1) req.boundary skew).toNat_lt
  rw [UInt64.toNat_add, UInt64.toNat_one] at hsum
  rw [hb] at hd
  rw [UInt64.lt_iff_toNat_lt, UInt64.toNat_sub, UInt64.toNat_one] at hlt ⊢
  generalize (extentAlign (newstart + 1) req.boundary skew).toNat = e at *
  -- a boundary that did not wrap lies above the candidate
  have hwrap : e < 2 ^ k := by omega
  rw [Nat.mod_eq_of_lt hwrap] at hkey
  omega

theorem RegionsOk.around (hok : RegionsOk ex)
    (hsplit : pre.reverse ++ rp :: rest = ex.exRegions) :
    (ex.exStart.toNat ≤ rp.lo ∧ rp.lo ≤ rp.hi ∧ rp.hi ≤ ex.exEnd.toNat) ∧
      (∀ l ∈ pre, l.hi + ex.gap < rp.lo) ∧ ∀ n ∈ rest, rp.hi + ex.gap < n.lo := by
  have hplaced : PlacedIn ex.exStart.toNat ex.exEnd.toNat ex.gap (pre.reverse ++ rp :: rest) := by
    rw [hsplit]
    exact hok
  obtain ⟨hin, hbefore, hafter⟩ := hplaced.around
  exact ⟨hin, fun l hl => hbefore l (mem_reverse.mpr hl), hafter⟩

theorem RegionsOk.below_rest {x : Nat} (hok : RegionsOk ex)
    (hsplit : pre.reverse ++ rp :: rest = ex.exRegions) (hx : x < rp.lo) :
    x < ex.exEnd.toNat ∧ ∀ r ∈ rp :: rest, x < r.lo := by
  obtain ⟨⟨-, hle, hin⟩, -, hafter⟩ := hok.around hsplit
  refine ⟨by omega, fun r hr => ?_⟩
  rcases mem_cons.mp hr with rfl | hr
  · exact hx
  · have := hafter r hr
    omega

/-- What the check of one chunk leaves behind. -/
def ChunkCheck.Good (ex : Extent) (req : Subregion) : ChunkCheck → Prop
  | .found p => p.Good ex req
  | .fail => True
  | .next best => best.Good ex req

theorem chunkCheck_good (hok : RegionsOk ex) (hpos : 1 ≤ req.size.toNat)
    (hc : Candidate ex newstart pre (rp :: rest)) (hb : BoundaryOk ex req newstart)
    (hbest : best.Good ex req) : (chunkCheck ex req newstart pre rp rest best).Good ex req := by
  -- a start that passes the test ends before `rp`
  have hplace : ∀ newstart' : UInt64, newstart.toNat ≤ newstart'.toNat →
      leOv newstart' req.size rp.erStart = true →
      Place.Good ex req ⟨newstart', pre, rp :: rest⟩ := by
    intro newstart' hle hfit
    rw [leOv_iff] at hfit
    obtain ⟨hupper, hbelow⟩ := hok.below_rest hc.split
      (show newstart'.toNat + (req.size.toNat - 1) < rp.lo by
        simp only [ExtentRegion.lo]
        omega)
    exact hc.fitsAt hle hpos (Nat.le_of_lt hupper) hbelow
  unfold chunkCheck
  dsimp only
  split
  · rename_i hfit
    split
    · exact hbest
    · trivial
    · rename_i newstart' hcheck
      obtain ⟨hle, hfit'⟩ := boundaryCheck_fits (leOv · req.size rp.erStart) hfit hb hcheck
      have hp := hplace newstart' hle hfit'
      split
      · exact hp
      · exact consider_good hbest hp
  · exact hbest

theorem finalCheck_good {exend : UInt64} (hpos : 1 ≤ req.size.toNat)
    (hsub : req.subend.toNat ≤ ex.exEnd.toNat) (hrest : ∀ r ∈ rest, req.subend.toNat < r.lo)
    (hc : Candidate ex newstart pre rest) (hb : BoundaryOk ex req newstart)
    (hbest : best.Good ex req) (h : finalCheck ex req exend newstart pre rest best = some p) :
    p.Good ex req := by
  have hone : (1 : UInt64) ≤ req.size := UInt64.le_iff_toNat_le.mpr hpos
  -- wherever the boundary test moves the start, it fits below subend
  have hplace : ∀ newstart' : UInt64, newstart.toNat ≤ newstart'.toNat →
      leOv newstart' (req.size - 1) req.subend = true →
      Place.Good ex req ⟨newstart', pre, rest⟩ := by
    intro newstart' hle hfit
    rw [leOv_iff, UInt64.toNat_sub_of_le _ _ hone, UInt64.toNat_one] at hfit
    have hupper : newstart'.toNat + (req.size.toNat - 1) ≤ ex.exEnd.toNat := by omega
    refine hc.fitsAt hle hpos hupper fun r hr => ?_
    have := hrest r hr
    show newstart'.toNat + (req.size.toNat - 1) < r.lo
    omega
  unfold finalCheck at h
  dsimp only at h
  split at h
  · rename_i hfit
    split at h
    · exact failOrBest_good hbest h
    · exact failOrBest_good hbest h
    · rename_i newstart' hcheck
      obtain ⟨hle, hfit'⟩ := boundaryCheck_fits (leOv · (req.size - 1) req.subend) hfit hb hcheck
      have hp := hplace newstart' hle hfit'
      split at h
      · cases h
        exact hp
      · exact failOrBest_good (consider_good hbest hp) h
  · exact failOrBest_good hbest h

/-- The main loop finds a good place.  The induction is on the regions not yet
    passed; the candidate stays above those that are. -/
theorem searchLoop_good (hok : RegionsOk ex) (hpos : 1 ≤ req.size.toNat)
    (hsub : req.subend.toNat ≤ ex.exEnd.toNat) (halign : req.alignment ≠ 0)
    (hb : ∀ newstart, Tries ex req newstart → BoundaryOk ex req newstart) {rest : List ExtentRegion}
    (hc : Candidate ex newstart pre rest) (htry : Tries ex req newstart) (hbest : best.Good ex req)
    (h : searchLoop ex req newstart pre rest best = some p) : p.Good ex req := by
  induction rest generalizing newstart pre best with
  | nil =>
    exact finalCheck_good hpos hsub (fun r hr => absurd hr not_mem_nil) hc (hb _ htry) hbest h
  | cons rp rest ih =>
    rw [searchLoop] at h
    split at h
    · -- the regions left start behind the subregion
      rename_i hpast
      have hbelow := (hok.below_rest hc.split (UInt64.lt_iff_toNat_lt.mp hpast)).2
      exact finalCheck_good hpos hsub hbelow hc (hb _ htry) hbest h
    · have hgood := chunkCheck_good hok hpos hc (hb _ htry) hbest
      split at h
      · rename_i q hcheck
        cases h
        rw [hcheck] at hgood
        exact hgood
      · exact failOrBest_good hbest h
      · rename_i best' hcheck
        rw [hcheck] at hgood
        have hbest' : best'.Good ex req := hgood
        dsimp only at h
        split at h
        · exact failOrBest_good hbest' h
        · rename_i hlt
          -- behind this region the search starts at its end, aligned
          have habove := above_of_not_lt halign hlt
          obtain ⟨⟨hin, hle, -⟩, hbefore, -⟩ := hok.around hc.split
          have hmem : rp ∈ ex.exRegions := by
            rw [← hc.split]
            exact mem_append_right _ (mem_cons_self ..)
          refine ih ⟨?_, ?_, fun r hr => ?_⟩ (Or.inr ⟨rp, hmem, rfl⟩) hbest' h
          · rw [← hc.split, reverse_cons, append_assoc, singleton_append]
          · simp only [ExtentRegion.lo, ExtentRegion.hi] at hin hle
            omega
          · rcases mem_cons.mp hr with rfl | hr
            · exact habove
            · have := hbefore r hr
              simp only [ExtentRegion.lo, ExtentRegion.hi] at this hle ⊢
              omega

theorem advance_spec {pre' rest' : List ExtentRegion}
    (h : advance newstart pre rest = (pre', rest')) :
    pre'.reverse ++ rest' = pre.reverse ++ rest ∧
      ((∀ r ∈ pre, r.erStart < newstart) → ∀ r ∈ pre', r.erStart < newstart) := by
  induction rest generalizing pre with
  | nil =>
    cases h
    exact ⟨rfl, id⟩
  | cons rp rest ih =>
    rw [advance] at h
    split at h
    · cases h
      exact ⟨rfl, id⟩
    · rename_i hlt
      obtain ⟨hsplit, hpre⟩ := ih h
      refine ⟨?_, fun hall => hpre fun r hr => ?_⟩
      · rw [hsplit, reverse_cons, append_assoc, singleton_append]
      · rcases mem_cons.mp hr with rfl | hr
        · exact UInt64.not_le.mp hlt
        · exact hall r hr

theorem candidate_relocate (hok : RegionsOk ex) (hw : NoWrap ex req)
    (hstart : ex.exStart.toNat ≤ (alignedStart req).toNat)
    (h : advance (alignedStart req) [] ex.exRegions = (pre, rest)) :
    Candidate ex (relocate req pre.head?) pre rest ∧ Tries ex req (relocate req pre.head?) := by
  obtain ⟨hsplit, hpre⟩ := advance_spec h
  have hbefore := hpre fun r hr => absurd hr not_mem_nil
  cases pre with
  | nil => exact ⟨⟨hsplit, hstart, fun r hr => absurd hr not_mem_nil⟩, Or.inl rfl⟩
  | cons last pre =>
    have hsplit' : pre.reverse ++ last :: rest = ex.exRegions := by
      rwa [reverse_cons, append_assoc, singleton_append] at hsplit
    have hmem : last ∈ ex.exRegions := by
      rw [← hsplit']
      exact mem_append_right _ (mem_cons_self ..)
    obtain ⟨⟨hin, hle, -⟩, hearlier, -⟩ := hok.around hsplit'
    -- above `last` is above everything before it
    have habove : ∀ x : UInt64, last.hi < x.toNat → Candidate ex x (last :: pre) rest := by
      intro x hx
      refine ⟨hsplit, by omega, fun r hr => ?_⟩
      rcases mem_cons.mp hr with rfl | hr
      · exact hx
      · have := hearlier r hr
        omega
    simp only [head?_cons, relocate]
    split
    · rename_i hge
      have hlt := hw.relocate last ⟨hmem, hbefore last (mem_cons_self ..), hge⟩
      exact ⟨habove _ (UInt64.lt_iff_toNat_lt.mp hlt), Or.inr ⟨last, hmem, rfl⟩⟩
    · rename_i hlt
      exact ⟨habove _ (UInt64.lt_iff_toNat_lt.mp (UInt64.not_le.mp hlt)), Or.inl rfl⟩

theorem searchPlace_good (hok : RegionsOk ex) (hw : NoWrap ex req) (hcheck : req.check ex = true)
    (h : searchPlace ex req = some p) : p.Good ex req := by
  simp only [Subregion.check, Bool.and_eq_true, Bool.not_eq_true', Bool.or_eq_false_iff,
    decide_eq_false_iff_not, beq_eq_false_iff_ne] at hcheck
  obtain ⟨⟨⟨⟨⟨⟨_, hsub⟩, _⟩, hsize, _⟩, halign⟩, _⟩, hstart⟩ := hcheck
  rw [UInt64.lt_iff_toNat_lt] at hsize hstart
  rw [gt_iff_lt, UInt64.lt_iff_toNat_lt] at hsub
  rw [UInt64.toNat_one] at hsize
  rcases hadvance : advance (alignedStart req) [] ex.exRegions with ⟨pre, rest⟩
  obtain ⟨hc, htry⟩ := candidate_relocate hok hw (Nat.not_lt.mp hstart) hadvance
  have hb : ∀ newstart, Tries ex req newstart → BoundaryOk ex req newstart :=
    fun newstart htry hne => hw.boundary hne newstart htry
  rw [searchPlace, hadvance] at h
  exact searchLoop_good hok (by omega) (by omega) halign hb hc htry (fun hne => absurd rfl hne) h

end

end OpenBsd.Kern
