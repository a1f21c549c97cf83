/-
  OpenBsd.Kern.ExtentHonours

  When `extent_alloc_subregion` honours what it is asked for.

  A candidate that crosses a boundary is moved to that boundary and not aligned
  again, and neither the alignment of the start of the subregion nor the move
  behind the region that covers it is tested for overflow.  Everything else the
  search keeps to: an offer lies in the subregion, over free addresses, and
  crosses no boundary.
-/

import OpenBsd.Lib.AlignUp
import OpenBsd.Kern.ExtentOffers
import OpenBsd.Kern.ExtentSafe

namespace OpenBsd.Kern

open OpenBsd.Lib List

variable {k r : Nat} {s c : UInt64} {pre : List ExtentRegion} {o : Offer} {rp : ExtentRegion}
  {ex' : Extent}

/-! ## The constraints -/

/-- The arguments the comment on `extent_do_alloc` asks for. -/
structure Subregion.Proper (req : Subregion) : Prop where
  alignment : ∃ k, req.alignment.toNat = 2 ^ k
  skew : req.skew < req.alignment
  boundary : req.boundary = 0 ∨ ∃ k, req.boundary.toNat = 2 ^ k

/-- From where boundaries are counted. -/
def boundaryOrigin (ex : Extent) (req : Subregion) : UInt64 :=
  if req.flags.boundzero then 0 else ex.exStart

/-- The request starting at `r` lies in the subregion, over free addresses. -/
structure FitsFree (ex : Extent) (req : Subregion) (r : Nat) : Prop where
  lower : req.substart.toNat ≤ r
  upper : r + (req.size.toNat - 1) ≤ req.subend.toNat
  free : ∀ e ∈ ex.exRegions, e.hi < r ∨ r + (req.size.toNat - 1) < e.lo

/-- `r` minus the skew is a multiple of the alignment. -/
def Subregion.Aligned (req : Subregion) (r : Nat) : Prop :=
  r ≡ req.skew.toNat [MOD req.alignment.toNat]

instance (req : Subregion) (r : Nat) : Decidable (req.Aligned r) :=
  inferInstanceAs (Decidable (_ ≡ _ [MOD _]))

/-- The request starting at `r` has a boundary behind its first address. -/
def Crosses (ex : Extent) (req : Subregion) (r : Nat) : Prop :=
  req.boundary ≠ 0 ∧ ∃ k, r < k ∧ k ≤ r + (req.size.toNat - 1) ∧
    k ≡ (boundaryOrigin ex req).toNat [MOD req.boundary.toNat]

section

variable {ex : Extent} {req : Subregion}

theorem dvd_of_pow2 {a : UInt64} (ha : a.toNat = 2 ^ k) : a.toNat ∣ 2 ^ 64 := by
  have hlt := a.toNat_lt
  rw [ha] at hlt ⊢
  exact Nat.pow_dvd_pow 2 (Nat.le_of_lt ((Nat.pow_lt_pow_iff_right (by omega)).mp hlt))

theorem extentAlign_modEq {x a s : UInt64} {k : Nat} (ha : a.toNat = 2 ^ k) :
    (extentAlign x a s).toNat ≡ s.toNat [MOD a.toNat] := by
  obtain ⟨q, hq⟩ := extentAlign_pow2 x s ha
  rw [hq, ← ha]
  exact ((Nat.mod_modEq _ _).of_dvd (dvd_of_pow2 ha)).trans (Nat.mul_add_mod ..)

/-- `extent_align` goes up to the next number of the class of the skew, modulo 2^64.
    `X` is the address before it was cut to 64 bits. -/
theorem extentAlign_toNat {x a : UInt64} {X : Nat} (ha : a.toNat = 2 ^ k)
    (hX : X % 2 ^ 64 = x.toNat) :
    (extentAlign x a s).toNat = alignUp a.toNat s.toNat X % 2 ^ 64 := by
  have hpos : 0 < a.toNat := ha ▸ Nat.two_pow_pos k
  have hne : a ≠ 0 := by
    rintro rfl
    exact absurd hpos (by decide)
  obtain ⟨d, hd, hsum⟩ := extentAlign_eq x s hne
  have hcut : (X + d) % 2 ^ 64 = (extentAlign x a s).toNat := by
    rw [hsum, ← hX, Nat.mod_add_mod]
  -- modulo the alignment the cut to 64 bits does not show
  have hmod : X + d ≡ s.toNat [MOD a.toNat] := by
    have hclass := @extentAlign_modEq x a s k ha
    rw [← hcut] at hclass
    exact ((Nat.mod_modEq _ _).of_dvd (dvd_of_pow2 ha)).symm.trans hclass
  rw [← hcut, eq_alignUp (Nat.le_add_right X d) (by omega) hmod]

theorem add_one_mod (x : UInt64) : (x.toNat + 1) % 2 ^ 64 = (x + 1).toNat := by
  rw [UInt64.toNat_add, UInt64.toNat_one]

def nextBoundary (ex : Extent) (req : Subregion) (r : Nat) : Nat :=
  alignUp req.boundary.toNat (boundaryOrigin ex req).toNat (r + 1)

theorem crosses_iff {r : Nat} (hb : 0 < req.boundary.toNat) :
    Crosses ex req r ↔ nextBoundary ex req r ≤ r + (req.size.toNat - 1) := by
  have hne : req.boundary ≠ 0 := by
    rintro h
    rw [h] at hb
    exact absurd hb (by decide)
  constructor
  · rintro ⟨-, k, hlt, hle, hmod⟩
    exact Nat.le_trans (alignUp_least hb hlt hmod) hle
  · intro hle
    exact ⟨hne, _, le_alignUp .., hle, alignUp_modEq hb⟩

theorem not_crosses_of_zero (hb : req.boundary = 0) : ¬ Crosses ex req r :=
  fun h => h.1 hb

/-- `dontcross` is the last address before the next boundary, and falls below the extent
    where that boundary lies behind the last address there is. -/
theorem dontcross_cases (hb : req.boundary.toNat = 2 ^ k) (hc : ex.exStart.toNat ≤ c.toNat) :
    (nextBoundary ex req c.toNat ≤ 2 ^ 64 ∧
        (dontcross ex req c).toNat + 1 = nextBoundary ex req c.toNat) ∨
      (2 ^ 64 < nextBoundary ex req c.toNat ∧ dontcross ex req c < ex.exStart) := by
  have hpos : 0 < req.boundary.toNat := hb ▸ Nat.two_pow_pos k
  have hdc : (dontcross ex req c).toNat
      = (2 ^ 64 - 1 + nextBoundary ex req c.toNat % 2 ^ 64) % 2 ^ 64 := by
    rw [dontcross, ← boundaryOrigin, UInt64.toNat_sub, UInt64.toNat_one,
      extentAlign_toNat hb (add_one_mod c)]
    rfl
  have hge : c.toNat + 1 ≤ nextBoundary ex req c.toNat := le_alignUp ..
  have hlt : nextBoundary ex req c.toNat < c.toNat + 1 + req.boundary.toNat := alignUp_lt hpos
  have hcb := c.toNat_lt
  have hbb := req.boundary.toNat_lt
  by_cases hle : nextBoundary ex req c.toNat ≤ 2 ^ 64
  · exact .inl ⟨hle, by omega⟩
  · refine .inr ⟨by omega, ?_⟩
    have hok := @boundaryOk_of_pow2 ex req k hb c
    apply hok
    · rintro h
      rw [h] at hpos
      exact absurd hpos (by decide)
    · rw [UInt64.lt_iff_toNat_lt, hdc]
      omega

/-- The boundary check leaves a candidate that crosses no boundary alone, and moves the
    others to the boundary they cross. -/
theorem boundaryCheck_moves {fit : UInt64 → Bool} (hp : req.Proper) (hpos : 1 ≤ req.size.toNat)
    (hc : ex.exStart.toNat ≤ c.toNat) (hend : c.toNat + (req.size.toNat - 1) < 2 ^ 64)
    (h : boundaryCheck ex req fit c = .fits s) :
    (¬ Crosses ex req c.toNat ∧ s = c) ∨
      (Crosses ex req c.toNat ∧ s.toNat = nextBoundary ex req c.toNat ∧ fit s = true) := by
  unfold boundaryCheck at h
  split at h
  · rename_i hzero
    cases h
    exact .inl ⟨not_crosses_of_zero (beq_iff_eq.1 hzero), rfl⟩
  rename_i hne
  obtain ⟨k, hb⟩ := hp.boundary.resolve_left fun h => hne (beq_iff_eq.2 h)
  have hcross := @crosses_iff ex req c.toNat (hb ▸ Nat.two_pow_pos k)
  have hge : c.toNat + 1 ≤ nextBoundary ex req c.toNat := le_alignUp ..
  rcases dontcross_cases hb hc with ⟨hle, hdc⟩ | ⟨hgt, hdc⟩
  · rw [if_neg (by rw [UInt64.lt_iff_toNat_lt]; omega)] at h
    split at h
    · rename_i hover
      rw [gt_iff_lt, UInt64.lt_iff_toNat_lt, toNat_last hpos hend] at hover
      split at h
      · cases h
      · rename_i hfit
        rw [boundaryRoom_fits h]
        refine .inr ⟨hcross.2 (by omega), ?_, by simpa using hfit⟩
        rw [UInt64.toNat_add, UInt64.toNat_one, Nat.mod_eq_of_lt (by omega), hdc]
    · rename_i hunder
      rw [gt_iff_lt, UInt64.lt_iff_toNat_lt, toNat_last hpos hend] at hunder
      exact .inl ⟨fun hx => by have := hcross.1 hx; omega, boundaryRoom_fits h⟩
  · -- there is no boundary behind the candidate any more
    rw [if_pos hdc] at h
    exact .inl ⟨fun hx => by have := hcross.1 hx; omega, boundaryRoom_fits h⟩

/-! ## What an offer is -/

/-- The offer of a candidate that lies above the regions before it: the candidate itself,
    or the first boundary it crosses. -/
structure Offer.Sound (ex : Extent) (req : Subregion) (o : Offer) : Prop where
  aligned : req.Aligned o.cand.toNat
  fits : FitsAt ex o.place.newstart req.size o.place.pre o.place.rest
  lower : req.substart.toNat ≤ o.place.newstart.toNat
  upper : o.place.newstart.toNat + (req.size.toNat - 1) ≤ req.subend.toNat
  start : (¬ Crosses ex req o.cand.toNat ∧ o.place.newstart = o.cand) ∨
    (Crosses ex req o.cand.toNat ∧ o.place.newstart.toNat = nextBoundary ex req o.cand.toNat)

theorem FitsAt.free {start size : UInt64} {rest : List ExtentRegion}
    (h : FitsAt ex start size pre rest) :
    ∀ e ∈ ex.exRegions, e.hi < start.toNat ∨ start.toNat + (size.toNat - 1) < e.lo := by
  intro e he
  rw [← h.split, mem_append, mem_reverse] at he
  exact he.imp (h.above e) (h.below e)

theorem Offer.Sound.fitsFree (h : o.Sound ex req) : FitsFree ex req o.place.newstart.toNat :=
  ⟨h.lower, h.upper, h.fits.free⟩

/-- An aligned candidate above the regions before it, from the start of the subregion on. -/
structure AlignedCandidate (ex : Extent) (req : Subregion) (newstart : UInt64)
    (pre rest : List ExtentRegion) : Prop extends Candidate ex newstart pre rest where
  aligned : req.Aligned newstart.toNat
  sub : req.substart.toNat ≤ newstart.toNat
  ahead : ∀ r ∈ rest, req.substart.toNat ≤ r.lo

theorem check_facts (h : req.check ex = true) :
    1 ≤ req.size.toNat ∧ req.subend.toNat ≤ ex.exEnd.toNat ∧
      (req.boundary ≠ 0 → req.size.toNat ≤ req.boundary.toNat) ∧
      ex.exStart.toNat ≤ (alignedStart req).toNat := by
  simp only [Subregion.check, Bool.and_eq_true, Bool.not_eq_true', Bool.or_eq_false_iff,
    decide_eq_false_iff_not, Bool.and_eq_false_iff, bne_eq_false_iff_eq, gt_iff_lt,
    UInt64.lt_iff_toNat_lt, UInt64.toNat_one] at h
  obtain ⟨⟨⟨⟨⟨⟨_, hsub⟩, _⟩, hsize, _⟩, -⟩, hboundary⟩, hstart⟩ := h
  refine ⟨by omega, by omega, fun hne => ?_, by omega⟩
  have := hboundary.resolve_left hne
  omega

theorem offer_sound {ovh : UInt64} {rest : List ExtentRegion} {fit : UInt64 → Bool}
    (hp : req.Proper) (hpos : 1 ≤ req.size.toNat) (hsub : req.subend.toNat ≤ ex.exEnd.toNat)
    (hc : AlignedCandidate ex req c pre rest)
    (hrule : ∀ x, fit x = true → x.toNat + (req.size.toNat - 1) ≤ req.subend.toNat ∧ ∀ r ∈ rest, x.toNat + (req.size.toNat - 1) < r.lo)
    (hfit : fit c = true) (h : boundaryCheck ex req fit c = .fits s) :
    Offer.Sound ex req ⟨c, ovh, ⟨s, pre, rest⟩⟩ := by
  have hplace : ∀ x, c.toNat ≤ x.toNat → fit x = true →
      FitsAt ex x req.size pre rest ∧ req.substart.toNat ≤ x.toNat ∧
        x.toNat + (req.size.toNat - 1) ≤ req.subend.toNat := by
    intro x hx hfit
    obtain ⟨hupper, hbelow⟩ := hrule x hfit
    exact ⟨hc.fitsAt hx hpos (by omega) hbelow, Nat.le_trans hc.sub hx, hupper⟩
  have hend : c.toNat + (req.size.toNat - 1) < 2 ^ 64 :=
    Nat.lt_of_le_of_lt (hrule c hfit).1 req.subend.toNat_lt
  rcases boundaryCheck_moves hp hpos hc.lower hend h with ⟨hcross, rfl⟩ | ⟨hcross, hs, hfit'⟩
  · obtain ⟨hat, hlow, hupp⟩ := hplace s (Nat.le_refl _) hfit
    exact ⟨hc.aligned, hat, hlow, hupp, .inl ⟨hcross, rfl⟩⟩
  · have hge : c.toNat + 1 ≤ nextBoundary ex req c.toNat := le_alignUp ..
    obtain ⟨hat, hlow, hupp⟩ := hplace s (by omega) hfit'
    exact ⟨hc.aligned, hat, hlow, hupp, .inr ⟨hcross, hs⟩⟩

theorem finalOffering_sound {exend : UInt64} {rest : List ExtentRegion} (hp : req.Proper)
    (hpos : 1 ≤ req.size.toNat) (hsub : req.subend.toNat ≤ ex.exEnd.toNat)
    (hc : AlignedCandidate ex req c pre rest) (hrest : ∀ r ∈ rest, req.subend.toNat < r.lo)
    (h : finalOffering ex req exend c pre rest = some o) : o.Sound ex req := by
  have hone : (1 : UInt64) ≤ req.size := UInt64.le_iff_toNat_le.mpr hpos
  unfold finalOffering at h
  dsimp only at h
  split at h
  · rename_i hfit
    split at h
    · cases h
    · cases h
    · rename_i s hcheck
      cases h
      refine offer_sound hp hpos hsub hc (fun x hx => ?_) hfit hcheck
      rw [leOv_iff, UInt64.toNat_sub_of_le _ _ hone, UInt64.toNat_one] at hx
      exact ⟨hx, fun r hr => Nat.lt_of_le_of_lt hx (hrest r hr)⟩
  · cases h

section

variable {rest : List ExtentRegion} (hok : RegionsOk ex) (hp : req.Proper)
include hok hp

theorem chunkOffering_sound (hpos : 1 ≤ req.size.toNat) (hsub : req.subend.toNat ≤ ex.exEnd.toNat)
    (hc : AlignedCandidate ex req c pre (rp :: rest)) (hrp : rp.lo ≤ req.subend.toNat)
    (h : chunkOffering ex req c pre rp rest = .offer o) : o.Sound ex req := by
  unfold chunkOffering at h
  dsimp only at h
  split at h
  · rename_i hfit
    split at h
    · cases h
    · cases h
    · rename_i s hcheck
      cases h
      refine offer_sound hp hpos hsub hc (fun x hx => ?_) hfit hcheck
      rw [leOv_iff] at hx
      have hlt : x.toNat + (req.size.toNat - 1) < rp.lo := by
        simp only [ExtentRegion.lo]
        omega
      exact ⟨by omega, (hok.below_rest hc.split hlt).2⟩
  · cases h

theorem AlignedCandidate.next (hc : AlignedCandidate ex req c pre (rp :: rest))
    (hlt : ¬ extentAlign (rp.erEnd + 1) req.alignment req.skew < rp.erEnd) :
    AlignedCandidate ex req (extentAlign (rp.erEnd + 1) req.alignment req.skew) (rp :: pre)
      rest := by
  obtain ⟨k, ha⟩ := hp.alignment
  have hne : req.alignment ≠ 0 := by
    rintro hzero
    have hpow := Nat.two_pow_pos k
    rw [hzero, UInt64.toNat_zero] at ha
    omega
  have habove := above_of_not_lt hne hlt
  obtain ⟨⟨hin, hle, -⟩, hbefore, -⟩ := hok.around hc.split
  have hsub := hc.ahead rp (mem_cons_self ..)
  simp only [ExtentRegion.lo, ExtentRegion.hi] at hin hle hsub
  refine ⟨⟨?_, by omega, fun r hr => ?_⟩, extentAlign_modEq ha, by omega, fun r hr => ?_⟩
  · rw [← hc.split, reverse_cons, append_assoc, singleton_append]
  · rcases mem_cons.mp hr with rfl | hr
    · exact habove
    · have := hbefore r hr
      simp only [ExtentRegion.lo, ExtentRegion.hi] at this ⊢
      omega
  · exact hc.ahead r (mem_cons_of_mem _ hr)

theorem offersFrom_sound (hpos : 1 ≤ req.size.toNat) (hsub : req.subend.toNat ≤ ex.exEnd.toNat)
    (hc : AlignedCandidate ex req c pre rest) (h : o ∈ offersFrom ex req c pre rest) :
    o.Sound ex req := by
  refine offersFrom_forall (P := AlignedCandidate ex req) (Q := Offer.Sound ex req) ?_ ?_ ?_ ?_ hc h
  · intro c pre o hc ho
    exact finalOffering_sound hp hpos hsub hc (fun r hr => absurd hr not_mem_nil) ho
  · intro c pre rp rest o hc hpast ho
    have hbelow := (hok.below_rest hc.split (UInt64.lt_iff_toNat_lt.mp hpast)).2
    exact finalOffering_sound hp hpos hsub hc hbelow ho
  · intro c pre rp rest o hc hpast ho
    have hrp : rp.lo ≤ req.subend.toNat := UInt64.le_iff_toNat_le.1 (UInt64.not_lt.1 hpast)
    exact chunkOffering_sound hok hp hpos hsub hc hrp ho
  · intro c pre rp rest hc hlt
    exact hc.next hok hp hlt

end

theorem advance_ahead {newstart : UInt64} {rest pre' rest' : List ExtentRegion}
    (h : advance newstart pre rest = (pre', rest')) :
    ∀ first, rest'.head? = some first → newstart ≤ first.erStart := by
  induction rest generalizing pre with
  | nil =>
    cases h
    exact fun first hfirst => by cases hfirst
  | cons rp rest ih =>
    rw [advance] at h
    split at h
    · rename_i hge
      cases h
      rintro first hfirst
      cases hfirst
      exact hge
    · exact ih h

/-- No address of the search before its first chunk wraps around. -/
structure StartsUnwrapped (ex : Extent) (req : Subregion) : Prop where
  start : req.substart ≤ alignedStart req
  relocate : ∀ r, Relocates ex req r →
    r.erEnd < extentAlign (r.erEnd + 1) req.alignment req.skew

theorem StartsUnwrapped.noWrap (hw : StartsUnwrapped ex req) (hp : req.Proper) : NoWrap ex req := by
  refine ⟨hw.relocate, fun hne newstart _ => ?_⟩
  obtain ⟨k, hb⟩ := hp.boundary.resolve_left hne
  exact boundaryOk_of_pow2 hb newstart hne

theorem alignedCandidate_first {rest : List ExtentRegion} (hok : RegionsOk ex) (hp : req.Proper)
    (hcheck : req.check ex = true) (hw : StartsUnwrapped ex req)
    (h : advance (alignedStart req) [] ex.exRegions = (pre, rest)) :
    AlignedCandidate ex req (relocate req pre.head?) pre rest := by
  obtain ⟨-, -, -, hstart⟩ := check_facts hcheck
  obtain ⟨hc, -⟩ := candidate_relocate hok (hw.noWrap hp) hstart h
  obtain ⟨k, ha⟩ := hp.alignment
  have hsub := UInt64.le_iff_toNat_le.1 hw.start
  have hfirst : req.Aligned (relocate req pre.head?).toNat ∧
      req.substart.toNat ≤ (relocate req pre.head?).toNat := by
    unfold relocate
    split
    · rename_i last hlast
      split
      · rename_i hge
        -- the region moved over starts before the subregion's aligned start
        have hmem : last ∈ pre := mem_of_head? hlast
        have hrel : Relocates ex req last := by
          refine ⟨?_, ?_, hge⟩
          · rw [← hc.split]
            exact mem_append_left _ (mem_reverse.2 hmem)
          · exact (advance_spec h).2 (fun r hr => absurd hr not_mem_nil) last hmem
        have habove := UInt64.lt_iff_toNat_lt.1 (hw.relocate last hrel)
        have hge' := UInt64.le_iff_toNat_le.1 hge
        exact ⟨extentAlign_modEq ha, by omega⟩
      · exact ⟨extentAlign_modEq ha, hsub⟩
    · exact ⟨extentAlign_modEq ha, hsub⟩
  refine ⟨hc, hfirst.1, hfirst.2, fun r hr => ?_⟩
  -- the regions ahead start from there on
  cases rest with
  | nil => exact absurd hr not_mem_nil
  | cons first rest =>
    have hge := UInt64.le_iff_toNat_le.1 (advance_ahead h first rfl)
    obtain ⟨⟨-, hle, -⟩, -, hafter⟩ := hok.around hc.split
    rcases mem_cons.1 hr with rfl | hr
    · exact Nat.le_trans hsub hge
    · have := hafter r hr
      simp only [ExtentRegion.lo, ExtentRegion.hi] at this hle hge ⊢
      omega

theorem offers_sound (hok : RegionsOk ex) (hp : req.Proper) (hcheck : req.check ex = true)
    (hw : StartsUnwrapped ex req) (h : o ∈ offers ex req) : o.Sound ex req := by
  obtain ⟨hpos, hsub, -, -⟩ := check_facts hcheck
  rcases hadvance : advance (alignedStart req) [] ex.exRegions with ⟨pre, rest⟩
  rw [offers, hadvance] at h
  exact offersFrom_sound hok hp hpos hsub (alignedCandidate_first hok hp hcheck hw hadvance) h

/-! ## Which offers honour the request -/

theorem alignUp_le_of_fits (hp : req.Proper) (hf : FitsFree ex req r) (ha : req.Aligned r) :
    alignUp req.alignment.toNat req.skew.toNat req.substart.toNat ≤ r := by
  obtain ⟨k, hk⟩ := hp.alignment
  exact alignUp_least (hk ▸ Nat.two_pow_pos k) hf.lower ha

theorem alignedStart_toNat (hp : req.Proper) :
    (alignedStart req).toNat
      = alignUp req.alignment.toNat req.skew.toNat req.substart.toNat % 2 ^ 64 := by
  obtain ⟨k, hk⟩ := hp.alignment
  exact extentAlign_toNat hk (Nat.mod_eq_of_lt req.substart.toNat_lt)

theorem startsUnwrapped_of_fits (hp : req.Proper) (hf : FitsFree ex req r) (ha : req.Aligned r) :
    StartsUnwrapped ex req ∧ (alignedStart req).toNat ≤ r := by
  obtain ⟨k, hk⟩ := hp.alignment
  have hpos : 0 < req.alignment.toNat := hk ▸ Nat.two_pow_pos k
  have hstart := alignUp_le_of_fits hp hf ha
  have hupper := hf.upper
  have hbound := req.subend.toNat_lt
  have haligned : (alignedStart req).toNat
      = alignUp req.alignment.toNat req.skew.toNat req.substart.toNat := by
    rw [alignedStart_toNat hp]
    exact Nat.mod_eq_of_lt (by omega)
  have hge := le_alignUp req.alignment.toNat req.skew.toNat req.substart.toNat
  refine ⟨⟨UInt64.le_iff_toNat_le.2 (by omega), ?_⟩, by omega⟩
  rintro e ⟨hmem, hbelow, hcovers⟩
  rw [UInt64.lt_iff_toNat_lt] at hbelow
  rw [UInt64.le_iff_toNat_le] at hcovers
  -- the place lies behind the region, so there is an aligned address behind it
  have hlt : e.hi < r := (hf.free e hmem).resolve_right (by simp only [ExtentRegion.lo]; omega)
  have hnext : alignUp req.alignment.toNat req.skew.toNat (e.hi + 1) ≤ r :=
    alignUp_least hpos hlt ha
  have hgt := le_alignUp req.alignment.toNat req.skew.toNat (e.hi + 1)
  rw [UInt64.lt_iff_toNat_lt, extentAlign_toNat hk (add_one_mod e.erEnd),
    Nat.mod_eq_of_lt (by simp only [ExtentRegion.hi] at hnext; omega)]
  simp only [ExtentRegion.hi] at hgt
  omega

/-! ## The call -/

/-- `extent_alloc_subregion` on `ex` returns 0 with the result `r`, at once or in a thread
    that has slept in it. -/
def AllocReturns (ex : Extent) (req : Subregion) (r : UInt64) : Prop :=
  (∃ mem ex', (ExtentCall.allocSubregion req).run ex mem = .ret ex' none (some r)) ∨
    ∃ who intr mem ex', Sleeper.call who = .allocSubregion req ∧
      who.wake ex intr mem = .ret ex' none (some r)

/-! The search reads the region list and the bounds only. -/

theorem SameRegions.boundaryCheck_eq (h : SameRegions ex ex') (fit : UInt64 → Bool) (c : UInt64) :
    boundaryCheck ex' req fit c = boundaryCheck ex req fit c := by
  cases ex
  cases ex'
  obtain ⟨rfl, rfl, rfl, rfl⟩ := h
  rfl

theorem SameRegions.offersFrom_eq (h : SameRegions ex ex') (c : UInt64)
    (pre rest : List ExtentRegion) :
    offersFrom ex' req c pre rest = offersFrom ex req c pre rest := by
  induction rest generalizing c pre with
  | nil => simp only [offersFrom, finalOffering, h.boundaryCheck_eq, h.stop]
  | cons rp rest ih =>
    simp only [offersFrom, finalOffering, chunkOffering, h.boundaryCheck_eq, ih]

theorem SameRegions.bestOffer_eq (h : SameRegions ex ex') :
    bestOffer ex' req = bestOffer ex req := by
  simp only [bestOffer, offers, h.regions, h.offersFrom_eq]

theorem SameRegions.subregionCheck_eq (h : SameRegions ex ex') : req.check ex' = req.check ex := by
  simp only [Subregion.check, h.start, h.stop]

theorem doAlloc_returns {r : UInt64} (h : extentDoAlloc ex req rp = .ret ex' none (some r)) :
    req.check ex = true ∧ ∃ o ∈ bestOffer ex req, o.place.newstart = r := by
  unfold extentDoAlloc at h
  rw [searchPlace_eq] at h
  split at h
  · cases h
  · rename_i hcheck
    rw [Bool.not_eq_true', Bool.not_eq_false] at hcheck
    refine ⟨hcheck, ?_⟩
    cases hbest : bestOffer ex req with
    | none =>
      rw [hbest, Option.map_none] at h
      dsimp only at h
      split at h <;> cases h
    | some o =>
      rw [hbest, Option.map_some] at h
      cases h
      exact ⟨o, rfl, rfl⟩

theorem resume_returns {mem : Bool} {r : UInt64}
    (h : (ExtentCall.allocSubregion req).resume ex mem = .ret ex' none (some r)) :
    req.check ex = true ∧ ∃ o ∈ bestOffer ex req, o.place.newstart = r := by
  unfold ExtentCall.resume at h
  dsimp only at h
  split at h
  · rename_i ex₁ rp hgot
    have hret := doAlloc_returns h
    rwa [(sameRegions_got hgot).bestOffer_eq, (sameRegions_got hgot).subregionCheck_eq] at hret
  · cases h
  · cases h

theorem allocReturns_iff {r : UInt64} :
    AllocReturns ex req r ↔
      req.check ex = true ∧ ∃ o ∈ bestOffer ex req, o.place.newstart = r := by
  constructor
  · rintro (⟨mem, ex', h⟩ | ⟨who, intr, mem, ex', hcall, h⟩)
    · exact resume_returns h
    · cases who with
      | freelist c =>
        obtain rfl : c = .allocSubregion req := hcall
        unfold Sleeper.wake at h
        dsimp only at h
        split at h
        · cases h
        · exact resume_returns h
      | space c rp =>
        obtain rfl : c = .allocSubregion req := hcall
        unfold Sleeper.wake at h
        dsimp only at h
        split at h
        · cases h
        · exact doAlloc_returns h
  · rintro ⟨hcheck, o, ho, rfl⟩
    have hplace : searchPlace ex req = some o.place := by
      rw [searchPlace_eq, Option.mem_def.1 ho]
      rfl
    -- a thread that waited for space and holds its descriptor
    have hret : ∃ ex', extentDoAlloc ex req ⟨0, 0, true, false⟩
        = .ret ex' none (some o.place.newstart) := by
      rw [extentDoAlloc, hcheck, hplace]
      exact ⟨_, rfl⟩
    obtain ⟨ex', hret⟩ := hret
    exact .inr ⟨.space (.allocSubregion req) ⟨0, 0, true, false⟩, false, false, ex', rfl, hret⟩

end

end OpenBsd.Kern
