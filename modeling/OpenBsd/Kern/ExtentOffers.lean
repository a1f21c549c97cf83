/-
  OpenBsd.Kern.ExtentOffers

  The search of `extent_do_alloc` as a best fit.

  Every chunk the search looks at offers one place for the request, or none.  The
  list of these offers depends on the extent and on the request only, not on what
  the search remembers, and the search takes the first of them, or the first of
  least overhead.
-/

import OpenBsd.Lib.BestFit
import OpenBsd.Kern.ExtentSearch

namespace OpenBsd.Kern

open OpenBsd.Lib

variable {o : Offer} {best : BestPlace} {b : Option Offer} {pre : List ExtentRegion} {c : UInt64}

/-! ## Offers -/

/-- The place in a chunk whose lowest aligned address is `cand`, with what
    `extent_do_alloc` counts as its overhead. -/
structure Offer where
  cand : UInt64
  ovh : UInt64
  place : Place

/-- What one chunk comes to: a place, nothing, or the end of the search. -/
inductive Offering where
  | offer (o : Offer)
  | skip
  | stop

/-- The chunk before `rp`. -/
def chunkOffering (ex : Extent) (req : Subregion) (newstart : UInt64) (pre : List ExtentRegion)
    (rp : ExtentRegion) (rest : List ExtentRegion) : Offering :=
  let fit (s : UInt64) : Bool := leOv s req.size rp.erStart
  if fit newstart then
    match boundaryCheck ex req fit newstart with
    | .crosses => .skip
    | .fail => .stop
    | .fits s => .offer ⟨newstart, rp.erStart - s - req.size, ⟨s, pre, rp :: rest⟩⟩
  else .skip

/-- The chunk up to the end of the subregion. -/
def finalOffering (ex : Extent) (req : Subregion) (exend newstart : UInt64)
    (pre rest : List ExtentRegion) : Option Offer :=
  let fit (s : UInt64) : Bool := leOv s (req.size - 1) req.subend
  if fit newstart then
    match boundaryCheck ex req fit newstart with
    | .crosses => none
    | .fail => none
    | .fits s => some ⟨newstart, exend - s - (req.size - 1), ⟨s, pre, rest⟩⟩
  else none

/-- The offers from the candidate `newstart` on. -/
def offersFrom (ex : Extent) (req : Subregion) :
    (newstart : UInt64) → (pre rest : List ExtentRegion) → List Offer
  | newstart, pre, [] => (finalOffering ex req ex.exEnd newstart pre []).toList
  | newstart, pre, rp :: rest =>
    if rp.erStart > req.subend then
      (finalOffering ex req rp.erStart newstart pre (rp :: rest)).toList
    else
      let next := extentAlign (rp.erEnd + 1) req.alignment req.skew
      let later := if next < rp.erEnd then [] else offersFrom ex req next (rp :: pre) rest
      match chunkOffering ex req newstart pre rp rest with
      | .offer o => o :: later
      | .skip => later
      | .stop => []

/-- The offers of the whole search. -/
def offers (ex : Extent) (req : Subregion) : List Offer :=
  let (pre, rest) := advance (alignedStart req) [] ex.exRegions
  offersFrom ex req (relocate req pre.head?) pre rest

/-- The offer a best fit takes; with `EX_FAST` it is the first one. -/
def bestOffer (ex : Extent) (req : Subregion) : Option Offer :=
  if req.flags.fast then (offers ex req).head?
  else (offers ex req).argmin fun o => o.ovh.toNat

/-! ## The search takes the best offer -/

section

variable {ex : Extent} {req : Subregion}

/-- The offers that end the search. -/
def Offer.exact (req : Subregion) (o : Offer) : Bool := req.flags.fast || o.ovh == 0

/-- The search from the best offer so far. -/
def bestFrom (req : Subregion) (best : Option Offer) (l : List Offer) : Option Offer :=
  bestLoop (fun o => o.ovh.toNat) (Offer.exact req) best l

/-- `best` remembers the offer `b`: overhead 0 stands for none. -/
def BestPlace.Remembers (req : Subregion) (best : BestPlace) : Option Offer → Prop
  | none => best.bestovh = 0
  | some o => best = ⟨o.ovh, o.place⟩ ∧ o.exact req = false

theorem exact_false_iff : o.exact req = false ↔ req.flags.fast = false ∧ o.ovh ≠ 0 := by
  rw [Offer.exact, Bool.or_eq_false_iff, beq_eq_false_iff_ne]

theorem failOrBest_eq (h : best.Remembers req b) : failOrBest req best = b.map Offer.place := by
  cases b with
  | none =>
    have hzero : best.bestovh = 0 := h
    rw [failOrBest, hzero, if_neg (by simp)]
    rfl
  | some o =>
    obtain ⟨rfl, hexact⟩ := h
    obtain ⟨hfast, hne⟩ := exact_false_iff.1 hexact
    rw [failOrBest, hfast, if_pos (by simpa using hne)]
    rfl

theorem consider_remembers (h : best.Remembers req b) (ho : o.exact req = false) :
    (best.consider o.ovh o.place).Remembers req (better (fun o => o.ovh.toNat) b o) := by
  cases b with
  | none =>
    have hzero : best.bestovh = 0 := h
    rw [BestPlace.consider, hzero, if_pos (by simp)]
    exact ⟨rfl, ho⟩
  | some b =>
    obtain ⟨rfl, hexact⟩ := h
    have hne : (b.ovh == 0) = false := beq_eq_false_iff_ne.2 (exact_false_iff.1 hexact).2
    simp only [BestPlace.consider, better, hne, Bool.false_or, decide_eq_true_eq,
      UInt64.lt_iff_toNat_lt]
    split
    · exact ⟨rfl, ho⟩
    · exact ⟨rfl, hexact⟩

theorem chunkCheck_eq (newstart : UInt64) (pre : List ExtentRegion) (rp : ExtentRegion)
    (rest : List ExtentRegion) (best : BestPlace) :
    chunkCheck ex req newstart pre rp rest best =
      match chunkOffering ex req newstart pre rp rest with
      | .offer o =>
        if o.exact req then .found o.place else .next (best.consider o.ovh o.place)
      | .skip => .next best
      | .stop => .fail := by
  unfold chunkCheck chunkOffering
  dsimp only
  split
  · cases boundaryCheck ex req (fun s => leOv s req.size rp.erStart) newstart <;> rfl
  · rfl

theorem finalCheck_eq (exend newstart : UInt64) (pre rest : List ExtentRegion)
    (best : BestPlace) :
    finalCheck ex req exend newstart pre rest best =
      match finalOffering ex req exend newstart pre rest with
      | some o =>
        if o.exact req then some o.place else failOrBest req (best.consider o.ovh o.place)
      | none => failOrBest req best := by
  unfold finalCheck finalOffering
  dsimp only
  split
  · cases boundaryCheck ex req (fun s => leOv s (req.size - 1) req.subend) newstart <;> rfl
  · rfl

variable {rest : List ExtentRegion} {exend newstart : UInt64}

theorem finalCheck_best (h : best.Remembers req b) :
    finalCheck ex req exend newstart pre rest best =
      (bestFrom req b (finalOffering ex req exend newstart pre rest).toList).map Offer.place := by
  rw [finalCheck_eq]
  cases finalOffering ex req exend newstart pre rest with
  | none => exact failOrBest_eq h
  | some o =>
    dsimp only
    rw [Option.toList_some, bestFrom, bestLoop]
    split
    · rfl
    · rename_i hexact
      exact failOrBest_eq (consider_remembers h (Bool.eq_false_iff.2 hexact))

/-- The main loop takes the best of the offers left and of the one it remembers.  The
    induction is on the regions not yet passed. -/
theorem searchLoop_eq (h : best.Remembers req b) :
    searchLoop ex req newstart pre rest best =
      (bestFrom req b (offersFrom ex req newstart pre rest)).map Offer.place := by
  induction rest generalizing newstart pre best b with
  | nil => exact finalCheck_best h
  | cons rp rest ih =>
    rw [searchLoop, offersFrom]
    split
    · exact finalCheck_best h
    -- behind `rp` the search goes on, unless the address overflows
    have hlater : ∀ {best : BestPlace} {b : Option Offer}, best.Remembers req b →
        (if extentAlign (rp.erEnd + 1) req.alignment req.skew < rp.erEnd then failOrBest req best
          else searchLoop ex req (extentAlign (rp.erEnd + 1) req.alignment req.skew) (rp :: pre)
            rest best) =
          (bestFrom req b (if extentAlign (rp.erEnd + 1) req.alignment req.skew < rp.erEnd then []
            else offersFrom ex req (extentAlign (rp.erEnd + 1) req.alignment req.skew) (rp :: pre)
              rest)).map Offer.place := by
      intro best b h
      split
      · exact failOrBest_eq h
      · exact ih h
    rw [chunkCheck_eq]
    dsimp only
    cases chunkOffering ex req newstart pre rp rest with
    | skip => exact hlater h
    | stop => exact failOrBest_eq h
    | offer o =>
      dsimp only
      rw [bestFrom, bestLoop]
      by_cases hexact : o.exact req = true
      · rw [if_pos hexact, if_pos hexact]
        rfl
      · rw [if_neg hexact, if_neg hexact]
        exact hlater (consider_remembers h (Bool.eq_false_iff.2 hexact))

theorem searchPlace_eq (ex : Extent) (req : Subregion) :
    searchPlace ex req = (bestOffer ex req).map Offer.place := by
  have hloop : searchPlace ex req = (bestFrom req none (offers ex req)).map Offer.place :=
    searchLoop_eq rfl
  rw [hloop, bestFrom, bestOffer]
  split
  · rename_i hfast
    rw [bestLoop_first fun o => by rw [Offer.exact, hfast]; rfl]
  · rename_i hfast
    rw [bestLoop_eq_argmin]
    -- no overhead at all is the least there can be
    intro o
    rw [Offer.exact, Bool.eq_false_iff.2 hfast, Bool.false_or, beq_iff_eq]
    constructor
    · intro hzero b
      rw [hzero]
      exact Nat.zero_le _
    · intro hleast
      have hzero := hleast ⟨0, 0, ⟨0, [], []⟩⟩
      exact UInt64.toNat_inj.1 (Nat.le_zero.1 hzero)

/-- What holds of the offer of every chunk holds of every offer, where `P` holds of the
    chunks the search looks at: the candidate, the regions before it and those ahead. -/
theorem offersFrom_forall {P : UInt64 → List ExtentRegion → List ExtentRegion → Prop}
    {Q : Offer → Prop}
    (hnil : ∀ c pre o, P c pre [] → finalOffering ex req ex.exEnd c pre [] = some o → Q o)
    (hpast : ∀ c pre rp rest o, P c pre (rp :: rest) → rp.erStart > req.subend → finalOffering ex req rp.erStart c pre (rp :: rest) = some o → Q o)
    (hchunk : ∀ c pre rp rest o, P c pre (rp :: rest) → ¬ rp.erStart > req.subend → chunkOffering ex req c pre rp rest = .offer o → Q o)
    (hnext : ∀ c pre rp rest, P c pre (rp :: rest) → ¬ extentAlign (rp.erEnd + 1) req.alignment req.skew < rp.erEnd → P (extentAlign (rp.erEnd + 1) req.alignment req.skew) (rp :: pre) rest)
    {rest : List ExtentRegion} (h : P c pre rest) (ho : o ∈ offersFrom ex req c pre rest) :
    Q o := by
  induction rest generalizing c pre with
  | nil => exact hnil c pre o h (Option.mem_toList.1 ho)
  | cons rp rest ih =>
    rw [offersFrom] at ho
    split at ho
    · rename_i hover
      exact hpast c pre rp rest o h hover (Option.mem_toList.1 ho)
    rename_i hover
    have hlater : o ∈ (if extentAlign (rp.erEnd + 1) req.alignment req.skew < rp.erEnd then []
        else offersFrom ex req (extentAlign (rp.erEnd + 1) req.alignment req.skew) (rp :: pre)
          rest) → Q o := by
      intro ho
      split at ho
      · exact absurd ho List.not_mem_nil
      · rename_i hlt
        exact ih (hnext c pre rp rest h hlt) ho
    dsimp only at ho
    split at ho
    · rename_i o' hoffer
      rcases List.mem_cons.1 ho with rfl | ho
      · exact hchunk c pre rp rest o h hover hoffer
      · exact hlater ho
    · exact hlater ho
    · exact absurd ho List.not_mem_nil

/-! ## What an offer is made of -/

theorem finalOffering_eq (h : finalOffering ex req exend c pre rest = some o) :
    o.ovh = exend - o.place.newstart - (req.size - 1) ∧ o.place.pre = pre ∧
      o.place.rest = rest := by
  unfold finalOffering at h
  dsimp only at h
  split at h
  · split at h
    · cases h
    · cases h
    · cases h
      exact ⟨rfl, rfl, rfl⟩
  · cases h

theorem chunkOffering_eq {rp : ExtentRegion} (h : chunkOffering ex req c pre rp rest = .offer o) :
    o.ovh = rp.erStart - o.place.newstart - req.size ∧ o.place.pre = pre ∧
      o.place.rest = rp :: rest := by
  unfold chunkOffering at h
  dsimp only at h
  split at h
  · split at h
    · cases h
    · cases h
    · cases h
      exact ⟨rfl, rfl, rfl⟩
  · cases h

/-- The overhead of a place.  For a region behind the subregion the code counts one address
    too many. -/
def Place.ovh (ex : Extent) (req : Subregion) (p : Place) : UInt64 :=
  match p.rest with
  | [] => ex.exEnd - p.newstart - (req.size - 1)
  | rp :: _ =>
    if rp.erStart > req.subend then rp.erStart - p.newstart - (req.size - 1)
    else rp.erStart - p.newstart - req.size

theorem offers_place (h : o ∈ offers ex req) :
    o.place.pre.reverse ++ o.place.rest = ex.exRegions ∧ o.ovh = o.place.ovh ex req := by
  rcases hadvance : advance (alignedStart req) [] ex.exRegions with ⟨pre, rest⟩
  have hsplit := (advance_spec hadvance).1
  rw [offers, hadvance] at h
  refine offersFrom_forall (P := fun _ pre rest => pre.reverse ++ rest = ex.exRegions)
    (Q := fun o => o.place.pre.reverse ++ o.place.rest = ex.exRegions ∧ o.ovh = o.place.ovh ex req)
    ?_ ?_ ?_ ?_ hsplit h
  · intro c pre o hp ho
    obtain ⟨hovh, hpre, hrest⟩ := finalOffering_eq ho
    rw [Place.ovh, hpre, hrest]
    exact ⟨hp, hovh⟩
  · intro c pre rp rest o hp hpast ho
    obtain ⟨hovh, hpre, hrest⟩ := finalOffering_eq ho
    rw [Place.ovh, hpre, hrest]
    exact ⟨hp, hovh.trans (if_pos hpast).symm⟩
  · intro c pre rp rest o hp hpast ho
    obtain ⟨hovh, hpre, hrest⟩ := chunkOffering_eq ho
    rw [Place.ovh, hpre, hrest]
    exact ⟨hp, hovh.trans (if_neg hpast).symm⟩
  · intro c pre rp rest hp _
    rw [← hp, List.reverse_cons, List.append_assoc, List.singleton_append]

theorem bestOffer_mem (h : bestOffer ex req = some o) : o ∈ offers ex req := by
  rw [bestOffer] at h
  split at h
  · exact List.mem_of_head? h
  · exact List.argmin_mem h

theorem bestOffer_eq_none_iff : bestOffer ex req = none ↔ offers ex req = [] := by
  rw [bestOffer]
  split
  · exact List.head?_eq_none_iff
  · exact List.argmin_eq_none

end

end OpenBsd.Kern
