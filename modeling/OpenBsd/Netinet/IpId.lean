/-
  OpenBsd.Netinet.IpId

  The identifiers of `sys/netinet/ip_id.c`.

  The random values are a list of draws, one for each call of `arc4random` or
  `arc4random_buf`; a run that asks for more than there are gives no result.
-/

import Mathlib.Algebra.Group.Nat.Defs
import OpenBsd.Lib.Spaced

namespace OpenBsd.Netinet

open OpenBsd.Lib List Function Option

/-! ## Random numbers -/

/-- The loop of `arc4random_uniform`. -/
def arc4randomRetry (upperBound : BitVec 32) :
    List (BitVec 32) → Option (BitVec 32 × List (BitVec 32))
  | [] => none
  | r :: draws =>
    if -upperBound % upperBound ≤ r then some (r % upperBound, draws)
    else arc4randomRetry upperBound draws

def arc4randomUniform (upperBound : BitVec 32) (draws : List (BitVec 32)) :
    Option (BitVec 32 × List (BitVec 32)) :=
  if upperBound < 2 then some (0, draws) else arc4randomRetry upperBound draws

/-! ## Identifiers -/

def ipShuffleItems : Nat := 65536

/-- The static variables of `ip_id.c`. -/
structure IpId where
  ipShuffle : Nat → BitVec 16
  isindex : BitVec 32
  initialized : Bool

def ipIdBoot : IpId where
  ipShuffle := fun _ => 0
  isindex := 0
  initialized := false

/-- The loop that sets up `ip_shuffle`, `n` rounds of it from `i` on. -/
def ipShuffleLoop : Nat → Nat → (Nat → BitVec 16) → List (BitVec 32) →
    Option ((Nat → BitVec 16) × List (BitVec 32))
  | 0, _, ipShuffle, draws => some (ipShuffle, draws)
  | n + 1, i, ipShuffle, draws => do
    let (i2, draws) ← arc4randomUniform (BitVec.ofNat 32 (i + 1)) draws
    let ipShuffle := Function.update ipShuffle i (ipShuffle i2.toNat)
    let ipShuffle := Function.update ipShuffle i2.toNat (BitVec.ofNat 16 i)
    ipShuffleLoop n (i + 1) ipShuffle draws

def ipRandomidLoop (s : IpId) : List (BitVec 32) → Option (BitVec 16 × IpId × List (BitVec 32))
  | [] => none
  | d :: draws =>
    let si := d.setWidth 16
    let i := (s.isindex &&& 0xFFFF#32).toNat
    let i2 := ((s.isindex - (si &&& 0x7FFF#16).setWidth 32) &&& 0xFFFF#32).toNat
    let r := s.ipShuffle i
    let ipShuffle := Function.update s.ipShuffle i (s.ipShuffle i2)
    let ipShuffle := Function.update ipShuffle i2 r
    let s' := { s with ipShuffle := ipShuffle, isindex := s.isindex + 1 }
    if r = 0 then ipRandomidLoop s' draws else some (r, s', draws)

def ipRandomid (s : IpId) (draws : List (BitVec 32)) :
    Option (BitVec 16 × IpId × List (BitVec 32)) :=
  if s.initialized then ipRandomidLoop s draws
  else do
    let (ipShuffle, draws) ← ipShuffleLoop ipShuffleItems 0 s.ipShuffle draws
    ipRandomidLoop { s with ipShuffle := ipShuffle, initialized := true } draws

/-- The identifiers of `n` calls. -/
def ipRandomids : Nat → IpId → List (BitVec 32) →
    Option (List (BitVec 16) × IpId × List (BitVec 32))
  | 0, s, draws => some ([], s, draws)
  | n + 1, s, draws => do
    let (r, s, draws) ← ipRandomid s draws
    let (rs, s, draws) ← ipRandomids n s draws
    return (r :: rs, s, draws)

/-! ## The shuffle -/

section

variable {sh sh' : Nat → BitVec 16} {draws draws' : List (BitVec 32)} {n i j : Nat}

theorem arc4randomUniform_lt {ub r : BitVec 32} (hpos : 0 < ub.toNat)
    (h : arc4randomUniform ub draws = some (r, draws')) : r.toNat < ub.toNat := by
  rw [arc4randomUniform] at h
  split at h
  · obtain ⟨rfl, -⟩ := Prod.mk.inj (Option.some.inj h)
    exact hpos
  · induction draws with
    | nil => cases h
    | cons d draws ih =>
      rw [arc4randomRetry] at h
      split at h
      · obtain ⟨rfl, -⟩ := Prod.mk.inj (Option.some.inj h)
        rw [BitVec.toNat_umod]
        exact Nat.mod_lt _ hpos
      · exact ih h

/-- The first `n` cells hold the values below `n`, each of them once. -/
structure Permuted (n : Nat) (sh : Nat → BitVec 16) : Prop where
  bound : ∀ i < n, (sh i).toNat < n
  inj : ∀ i < n, ∀ j < n, sh i = sh j → i = j

theorem permuted_zero (sh : Nat → BitVec 16) : Permuted 0 sh :=
  ⟨fun i hi => absurd hi (Nat.not_lt_zero i), fun i hi => absurd hi (Nat.not_lt_zero i)⟩

/-- One round of the set up, the cell `i2` of the cells up to `i` taken out. -/
theorem Permuted.insert (h : Permuted i sh) (hi : i < ipShuffleItems) {i2 : Nat} (hi2 : i2 ≤ i) :
    Permuted (i + 1)
      (update (update sh i (sh i2)) i2 (BitVec.ofNat 16 i)) := by
  have hlast : (BitVec.ofNat 16 i).toNat = i :=
    (BitVec.toNat_ofNat ..).trans (Nat.mod_eq_of_lt hi)
  have hfresh : ∀ j < i, sh j ≠ BitVec.ofNat 16 i := by
    intro j hj heq
    have := h.bound j hj
    rw [heq, hlast] at this
    exact Nat.lt_irrefl _ this
  constructor
  · intro j hj
    rw [update_apply, update_apply]
    split
    · omega
    · split
      · have := h.bound i2 (by omega)
        omega
      · have := h.bound j (by omega)
        omega
  · intro j hj k hk heq
    rw [update_apply, update_apply, update_apply, update_apply] at heq
    by_cases hji : j = i2
    · by_cases hki : k = i2
      · exact hji.trans hki.symm
      · rw [if_pos hji, if_neg hki] at heq
        split at heq
        · exact absurd heq.symm (hfresh i2 (by omega))
        · exact absurd heq.symm (hfresh k (by omega))
    · by_cases hki : k = i2
      · rw [if_neg hji, if_pos hki] at heq
        split at heq
        · exact absurd heq (hfresh i2 (by omega))
        · exact absurd heq (hfresh j (by omega))
      · rw [if_neg hji, if_neg hki] at heq
        -- the value of the cell `i2` now stands in the cell `i`
        split at heq
        · split at heq
          · omega
          · exact absurd (h.inj i2 (by omega) k (by omega) heq).symm hki
        · split at heq
          · exact absurd (h.inj j (by omega) i2 (by omega) heq) hji
          · exact h.inj j (by omega) k (by omega) heq

theorem ipShuffleLoop_permuted (h : Permuted i sh) (hi : i + n ≤ ipShuffleItems)
    (hrun : ipShuffleLoop n i sh draws = some (sh', draws')) : Permuted (i + n) sh' := by
  induction n generalizing i sh draws with
  | zero =>
    obtain ⟨rfl, -⟩ := Prod.mk.inj (Option.some.inj hrun)
    exact h
  | succ n ih =>
    simp only [ipShuffleLoop, bind_eq_bind, bind_eq_some_iff] at hrun
    obtain ⟨⟨i2, rest⟩, huniform, hrest⟩ := hrun
    have hbound : (BitVec.ofNat 32 (i + 1)).toNat = i + 1 := by
      rw [BitVec.toNat_ofNat]
      unfold ipShuffleItems at hi
      omega
    have hlt : i2.toNat < (BitVec.ofNat 32 (i + 1)).toNat :=
      arc4randomUniform_lt (by omega) huniform
    have hle : i2.toNat ≤ i := by
      rw [hbound] at hlt
      exact Nat.le_of_lt_succ hlt
    have hnext := ih (h.insert (by omega) hle) (by omega) hrest
    rwa [show i + 1 + n = i + (n + 1) by omega] at hnext

end

/-! ## Calls -/

section

variable {s s' : IpId} {hist : List (BitVec 16)} {r : BitVec 16} {d : BitVec 32}
  {draws draws' : List (BitVec 32)}

/-- `hist` is what the rounds of the `do` loop have taken from the ring so far.  None of the
    cells that the rounds up to 32768 after it will look at holds a value of `hist`. -/
structure IdOk (hist : List (BitVec 16)) (s : IpId) : Prop where
  index : s.isindex = BitVec.ofNat 32 hist.length
  inj : ∀ i < ipShuffleItems, ∀ j < ipShuffleItems, s.ipShuffle i = s.ipShuffle j → i = j
  recent : ∀ u r v, hist = u ++ r :: v → ∀ m, hist.length ≤ m → m ≤ u.length + 32768 →
    s.ipShuffle (m % ipShuffleItems) ≠ r
  spaced : Spaced 32769 hist

theorem IdOk.cell (h : IdOk hist s) :
    (s.isindex &&& 0xFFFF#32).toNat = hist.length % ipShuffleItems := by
  rw [h.index, BitVec.toNat_and, BitVec.toNat_ofNat, BitVec.toNat_ofNat,
    show (65535 : Nat) % 2 ^ 32 = 2 ^ 16 - 1 by decide, Nat.and_two_pow_sub_one_eq_mod]
  unfold ipShuffleItems
  omega

theorem IdOk.partner (h : IdOk hist s) (d : BitVec 32) :
    ∃ back ≤ 32767, ((s.isindex - ((d.setWidth 16) &&& 0x7FFF#16).setWidth 32) &&&
      0xFFFF#32).toNat = (hist.length + ipShuffleItems - back) % ipShuffleItems := by
  refine ⟨(d.setWidth 16 &&& 0x7FFF#16).toNat, ?_, ?_⟩
  · rw [BitVec.toNat_and]
    exact Nat.and_le_right
  · have hback : (d.setWidth 16 &&& 0x7FFF#16).toNat ≤ 32767 := by
      rw [BitVec.toNat_and]
      exact Nat.and_le_right
    rw [h.index, BitVec.toNat_and, BitVec.toNat_sub, BitVec.toNat_setWidth, BitVec.toNat_ofNat,
      BitVec.toNat_ofNat, show (65535 : Nat) % 2 ^ 32 = 2 ^ 16 - 1 by decide,
      Nat.and_two_pow_sub_one_eq_mod]
    generalize (d.setWidth 16 &&& 0x7FFF#16).toNat = back at hback
    unfold ipShuffleItems
    omega

/-- One round of the `do` loop: with which cell it swaps is random. -/
theorem IdOk.round (h : IdOk hist s) (d : BitVec 32) :
    IdOk (hist ++ [s.ipShuffle (hist.length % ipShuffleItems)])
      { s with
        ipShuffle :=
          let i2 := ((s.isindex - ((d.setWidth 16) &&& 0x7FFF#16).setWidth 32) &&& 0xFFFF#32).toNat
          update (update s.ipShuffle (hist.length % ipShuffleItems)
            (s.ipShuffle i2)) i2 (s.ipShuffle (hist.length % ipShuffleItems))
        isindex := s.isindex + 1 } := by
  obtain ⟨back, hback, hi2⟩ := h.partner d
  rw [hi2]
  have hinj := h.inj
  refine ⟨?_, ?_, ?_, h.spaced.snoc ?_⟩
  · show s.isindex + 1 = _
    rw [h.index, length_append, length_singleton, BitVec.ofNat_add]
    rfl
  · intro j hj k hk heq
    simp only [update_apply] at heq
    have hcell : hist.length % ipShuffleItems < ipShuffleItems := Nat.mod_lt _ (by decide)
    have hpart : (hist.length + ipShuffleItems - back) % ipShuffleItems < ipShuffleItems :=
      Nat.mod_lt _ (by decide)
    grind
  · -- the cells ahead are not the two that change
    intro u r v hsplit m hm hm'
    rw [length_append, length_singleton] at hm
    have hu : u.length ≤ hist.length := by
      have hlen := congrArg List.length hsplit
      simp only [length_append, length_cons, length_nil] at hlen
      omega
    have hne : m % ipShuffleItems ≠ hist.length % ipShuffleItems := by
      unfold ipShuffleItems
      omega
    have hne' : m % ipShuffleItems ≠ (hist.length + ipShuffleItems - back) % ipShuffleItems := by
      unfold ipShuffleItems
      omega
    show update (update s.ipShuffle _ _) _ _ (m % ipShuffleItems) ≠ r
    rw [update_of_ne hne', update_of_ne hne]
    rcases eq_nil_or_concat v with rfl | ⟨v', c, rfl⟩
    · obtain ⟨-, hr⟩ := append_inj' hsplit rfl
      rw [← singleton_inj.1 hr]
      intro heq
      exact hne (h.inj _ (Nat.mod_lt _ (by decide)) _ (Nat.mod_lt _ (by decide)) heq)
    · rw [concat_eq_append] at hsplit
      have hassoc : hist ++ [s.ipShuffle (hist.length % ipShuffleItems)]
          = (u ++ r :: v') ++ [c] := by
        rw [hsplit, append_assoc, cons_append]
      exact h.recent u r v' (append_inj' hassoc rfl).1 m (by omega) hm'
  · intro u v hsplit
    have hlen := congrArg List.length hsplit
    simp only [length_append, length_cons] at hlen
    by_contra hclose
    exact h.recent u _ v hsplit hist.length (Nat.le_refl _) (by omega) rfl

theorem IdOk.loop (h : IdOk hist s)
    (hrun : ipRandomidLoop s draws = some (r, s', draws')) :
    ∃ k, IdOk (hist ++ (List.replicate k 0 ++ [r])) s' ∧ s'.initialized = s.initialized ∧
      r ≠ 0 := by
  induction draws generalizing hist s with
  | nil => cases hrun
  | cons d draws ih =>
    have hround := h.round d
    rw [ipRandomidLoop, h.cell] at hrun
    dsimp only at hrun hround
    split at hrun
    · next hzero =>
      obtain ⟨k, hok, hinit, hr⟩ := ih hround hrun
      refine ⟨k + 1, ?_, hinit, hr⟩
      rwa [hzero, append_assoc, singleton_append, ← cons_append, ← replicate_succ] at hok
    · next hne =>
      obtain ⟨rfl, rfl, -⟩ := Option.some.inj hrun
      exact ⟨0, hround, rfl, hne⟩

/-- Before the first call, and after it. -/
def IdStands (hist : List (BitVec 16)) (s : IpId) : Prop :=
  s.initialized = false ∧ s.isindex = 0 ∧ hist = [] ∨ s.initialized = true ∧ IdOk hist s

theorem idOk_initial {sh : Nat → BitVec 16} (h : Permuted ipShuffleItems sh) :
    IdOk [] ⟨sh, 0, true⟩ :=
  ⟨rfl, h.inj, fun _ _ _ heq => absurd heq.symm
    (append_ne_nil_of_right_ne_nil _ (cons_ne_nil _ _)), spaced_nil⟩

theorem IdStands.call (h : IdStands hist s) (hrun : ipRandomid s draws = some (r, s', draws')) :
    ∃ k, IdStands (hist ++ (List.replicate k 0 ++ [r])) s' ∧ r ≠ 0 := by
  rw [ipRandomid] at hrun
  rcases h with ⟨hinit, hindex, rfl⟩ | ⟨hinit, hok⟩
  · rw [hinit, if_neg Bool.false_ne_true] at hrun
    simp only [bind_eq_bind, bind_eq_some_iff] at hrun
    obtain ⟨⟨sh, rest⟩, hshuffle, hloop⟩ := hrun
    have hperm := ipShuffleLoop_permuted (permuted_zero s.ipShuffle)
      (Nat.le_of_eq (Nat.zero_add _)) hshuffle
    rw [Nat.zero_add] at hperm
    rw [hindex] at hloop
    obtain ⟨k, hok, hinit', hr⟩ := (idOk_initial hperm).loop hloop
    exact ⟨k, .inr ⟨hinit', hok⟩, hr⟩
  · rw [hinit, if_pos rfl] at hrun
    obtain ⟨k, hok', hinit', hr⟩ := hok.loop hrun
    exact ⟨k, .inr ⟨hinit'.trans hinit, hok'⟩, hr⟩

theorem IdStands.calls {n : Nat} {ids : List (BitVec 16)} (h : IdStands hist s)
    (hrun : ipRandomids n s draws = some (ids, s', draws')) :
    ∃ hist', IdStands (hist ++ hist') s' ∧ (hist'.filter fun r => r ≠ 0) = ids := by
  induction n generalizing hist s draws ids with
  | zero =>
    obtain ⟨rfl, rfl, -⟩ := Option.some.inj hrun
    exact ⟨[], (append_nil hist).symm ▸ h, rfl⟩
  | succ n ih =>
    simp only [ipRandomids, bind_eq_bind, bind_eq_some_iff] at hrun
    obtain ⟨⟨r, s₁, rest⟩, hcall, ⟨rs, s₂, rest'⟩, hcalls, heq⟩ := hrun
    obtain ⟨rfl, rfl, -⟩ := Option.some.inj heq
    obtain ⟨k, hstands, hr⟩ := h.call hcall
    obtain ⟨hist', hstands', rfl⟩ := ih hstands hcalls
    rw [append_assoc] at hstands'
    have hzeros : ((List.replicate k (0 : BitVec 16)).filter fun r => r ≠ 0) = [] := by
      rw [filter_eq_nil_iff]
      intro x hx
      rw [eq_of_mem_replicate hx]
      decide
    refine ⟨_, hstands', ?_⟩
    rw [filter_append, filter_append, hzeros, nil_append,
      filter_singleton, decide_eq_true hr, cond_true, singleton_append]

theorem idStands_boot : IdStands [] ipIdBoot := .inl ⟨rfl, rfl, rfl⟩

/-- The identifiers of the calls since boot are not 0, and calls that return the same one are at
    least 32768 apart. -/
theorem ipRandomids_apart {n : Nat} {ids : List (BitVec 16)}
    (hrun : ipRandomids n ipIdBoot draws = some (ids, s', draws')) :
    (∀ id ∈ ids, id ≠ 0) ∧
      ∀ j k id, j < k → ids[j]? = some id → ids[k]? = some id → j + 32768 ≤ k := by
  obtain ⟨hist, hstands, rfl⟩ := idStands_boot.calls hrun
  rw [nil_append] at hstands
  have hspaced : Spaced 32769 hist := by
    rcases hstands with ⟨-, -, rfl⟩ | ⟨-, hok⟩
    · exact spaced_nil
    · exact hok.spaced
  refine ⟨fun id hid => of_decide_eq_true (mem_filter.1 hid).2, fun j k id hjk hj hk => ?_⟩
  exact (hspaced.filter_ne 0).le_of_getElem? hjk hj hk

/-! ## Calls return -/

theorem arc4randomUniform_ones (ub : BitVec 32) (draws : List (BitVec 32)) :
    ∃ r draws', arc4randomUniform ub (BitVec.allOnes 32 :: draws) = some (r, draws') ∧
      (draws' = draws ∨ draws' = BitVec.allOnes 32 :: draws) := by
  rw [arc4randomUniform]
  split
  · exact ⟨_, _, rfl, .inr rfl⟩
  · have hle : -ub % ub ≤ BitVec.allOnes 32 := by
      rw [BitVec.le_def, BitVec.toNat_allOnes]
      exact Nat.le_sub_one_of_lt (BitVec.isLt _)
    exact ⟨_, _, if_pos hle, .inl rfl⟩

theorem ipShuffleLoop_ones (n i m : Nat) (sh : Nat → BitVec 16) :
    ∃ sh' m', ipShuffleLoop n i sh (List.replicate (n + m) (BitVec.allOnes 32))
      = some (sh', List.replicate m' (BitVec.allOnes 32)) ∧ m ≤ m' := by
  induction n generalizing i m sh with
  | zero => exact ⟨sh, m, by rw [Nat.zero_add]; rfl, Nat.le_refl m⟩
  | succ n ih =>
    obtain ⟨r, rest, huniform, hrest⟩ := arc4randomUniform_ones (BitVec.ofNat 32 (i + 1))
      (List.replicate (n + m) (BitVec.allOnes 32))
    rw [← replicate_succ] at huniform hrest
    simp only [ipShuffleLoop, show n + 1 + m = n + m + 1 by omega, huniform, bind_eq_bind,
      bind_some]
    rcases hrest with rfl | rfl
    · exact ih _ m _
    · obtain ⟨sh', m', hrun, hm⟩ := ih (i + 1) (m + 1)
        (update (update sh i (sh r.toNat)) r.toNat (BitVec.ofNat 16 i))
      exact ⟨sh', m', hrun, by omega⟩

theorem IdOk.loop_returns (h : IdOk hist s) (d d' : BitVec 32) (draws : List (BitVec 32)) :
    ∃ r s' rest, ipRandomidLoop s (d :: d' :: draws) = some (r, s', rest) ∧
      (rest = draws ∨ rest = d' :: draws) := by
  have hround := h.round d
  rw [ipRandomidLoop, h.cell]
  dsimp only at hround ⊢
  split
  · next hzero =>
    -- the next cell does not hold the value of this one
    have hnext := hround.recent hist _ [] rfl (hist.length + 1)
      (Nat.le_of_eq length_append) (by omega)
    rw [ipRandomidLoop, hround.cell]
    dsimp only at hnext ⊢
    rw [length_append, length_singleton, if_neg (hzero ▸ hnext)]
    exact ⟨_, _, _, rfl, .inl rfl⟩
  · exact ⟨_, _, _, rfl, .inr rfl⟩

theorem IdOk.calls_return (h : IdOk hist s) (hinit : s.initialized = true) (n m : Nat) :
    ∃ ids s' rest, ipRandomids n s (List.replicate (2 * n + m) (BitVec.allOnes 32))
      = some (ids, s', rest) := by
  induction n generalizing hist s m with
  | zero => exact ⟨_, _, _, rfl⟩
  | succ n ih =>
    obtain ⟨r, s₁, rest, hrun, hrest⟩ := h.loop_returns (BitVec.allOnes 32) (BitVec.allOnes 32)
      (List.replicate (2 * n + m) (BitVec.allOnes 32))
    obtain ⟨k, hok, hinit₁, -⟩ := h.loop hrun
    have hcalls : ∃ ids s' rest', ipRandomids n s₁ rest = some (ids, s', rest') := by
      rcases hrest with rfl | rfl
      · exact ih hok (hinit₁.trans hinit) m
      · exact ih hok (hinit₁.trans hinit) (m + 1)
    obtain ⟨ids, s', rest', hids⟩ := hcalls
    refine ⟨r :: ids, s', rest', ?_⟩
    simp only [ipRandomids, ipRandomid, hinit, if_true, show 2 * (n + 1) + m = 2 * n + m + 1 + 1
      by omega, replicate_succ, hrun, hids, bind_eq_bind, bind_some, Option.pure_def]

theorem exists_ipRandomids (n : Nat) :
    ∃ draws ids s' rest, ipRandomids (n + 1) ipIdBoot draws = some (ids, s', rest) := by
  obtain ⟨sh, m, hshuffle, hm⟩ := ipShuffleLoop_ones ipShuffleItems 0 (2 * (n + 1)) (fun _ => 0)
  have hperm := ipShuffleLoop_permuted (permuted_zero _) (Nat.le_of_eq (Nat.zero_add _)) hshuffle
  rw [Nat.zero_add] at hperm
  obtain ⟨ids, s', rest, hcalls⟩ := (idOk_initial hperm).calls_return rfl (n + 1) (m - 2 * (n + 1))
  rw [show 2 * (n + 1) + (m - 2 * (n + 1)) = m by omega] at hcalls
  refine ⟨List.replicate (ipShuffleItems + 2 * (n + 1)) (BitVec.allOnes 32), ids, s', rest, ?_⟩
  rw [ipRandomids, ipRandomid, if_pos rfl] at hcalls
  rw [ipRandomids, ipRandomid, ipIdBoot, if_neg Bool.false_ne_true]
  dsimp only
  rw [hshuffle]
  exact hcalls

/-- A run of 40000 calls. -/
theorem ipRandomids_apart_run :
    ∃ draws ids s' rest, ipRandomids 40000 ipIdBoot draws = some (ids, s', rest) ∧
      (∀ id ∈ ids, id ≠ 0) ∧
      ∀ j k id, j < k → ids[j]? = some id → ids[k]? = some id → j + 32768 ≤ k := by
  obtain ⟨draws, ids, s', rest, hrun⟩ := exists_ipRandomids 39999
  exact ⟨draws, ids, s', rest, hrun, ipRandomids_apart hrun⟩

end

end OpenBsd.Netinet
