/-
  OpenBsd.Ufs.FfsAllocSafe

  The cluster summary of a cylinder group under allocation and release of blocks.  Both loops
  of `ffs_clusteracct` count set bits next to the block, as far as the largest size that is
  kept, which is enough to account for the runs that are joined or split.
-/

import OpenBsd.Lib.BitRuns
import OpenBsd.Lib.Run
import OpenBsd.Ufs.FfsAlloc

namespace OpenBsd.Ufs

open OpenBsd.Lib Function

/-! ## The loops -/

section

variable {m : Bitmap 8}

theorem and_bit_eq_zero_iff (i : Nat) : m (i / 8) &&& (1#8 <<< (i % 8)) = 0 ↔ m.test i = false := by
  have hlt : i % 8 < 8 := Nat.mod_lt i (by decide)
  rw [eq_zero_iff_getLsbD]
  constructor
  · intro h
    have hi := h (i % 8) hlt
    rw [BitVec.getLsbD_and, getLsbD_bit hlt, decide_eq_true rfl, Bool.and_true] at hi
    exact hi
  · intro h k hk
    rw [BitVec.getLsbD_and, getLsbD_bit hlt]
    by_cases hki : k = i % 8
    · rw [hki, decide_eq_true rfl, Bool.and_true]
      exact h
    · rw [decide_eq_false hki, Bool.and_false]

theorem forwLoop_eq (left i : Nat) :
    forwLoop m left i (i / 8 + 1) (m (i / 8)) (1#8 <<< (i % 8)) = i + forwLen m.test i left := by
  induction left generalizing i with
  | zero => rfl
  | succ left ih =>
    rw [forwLoop, forwLen]
    by_cases hbit : m.test i = true
    · have hrest := ih (i + 1)
      rw [if_neg (by rw [and_bit_eq_zero_iff, hbit]; exact Bool.noConfusion), if_pos hbit]
      split
      · -- the next bit of the same byte
        rename_i h7
        rw [show (i + 1) / 8 = i / 8 by omega, show (i + 1) % 8 = i % 8 + 1 by omega,
          BitVec.shiftLeft_add] at hrest
        rw [hrest, Nat.add_right_comm]
        rfl
      · rename_i h7
        rw [show (i + 1) / 8 = i / 8 + 1 by omega, show (i + 1) % 8 = 0 by omega] at hrest
        rw [← BitVec.shiftLeft_zero 1#8, hrest, Nat.add_right_comm]
        rfl
    · rw [if_pos ((and_bit_eq_zero_iff i).2 (Bool.eq_false_iff.2 hbit)), if_neg hbit]
      rfl

theorem bit_shiftRight {k : Nat} (h0 : k ≠ 0) (h8 : k < 8) :
    (1#8 <<< k) >>> 1 = 1#8 <<< (k - 1) := by
  have hall : ∀ k : Nat, k < 8 → k ≠ 0 → (1#8 <<< k) >>> 1 = 1#8 <<< (k - 1) := by decide
  exact hall k h8 h0

/-- Going backward, the place in the map is that of the block `p - 1`. -/
theorem backLoop_eq {left p : Nat} (hle : left ≤ p) {mapp : Int} {map bit : BitVec 8}
    (hmapp : 0 < p → mapp = ((p - 1) / 8 : Nat) - 1)
    (hmap : 0 < p → map = m ((p - 1) / 8)) (hbit : 0 < p → bit = 1#8 <<< ((p - 1) % 8)) :
    backLoop m left ((p : Int) - 1) mapp map bit = (p : Int) - 1 - backLen m.test p left := by
  induction left generalizing p mapp map bit with
  | zero =>
    rw [backLoop, backLen]
    exact (Int.sub_zero _).symm
  | succ left ih =>
    obtain ⟨q, rfl⟩ : ∃ q, p = q + 1 := ⟨p - 1, by omega⟩
    have hmapp' := hmapp (Nat.succ_pos q)
    have hmap' := hmap (Nat.succ_pos q)
    have hbit' := hbit (Nat.succ_pos q)
    rw [Nat.add_sub_cancel] at hmapp' hmap' hbit'
    subst hmapp' hmap' hbit'
    have hq : ((q + 1 : Nat) : Int) - 1 = q := by omega
    rw [hq, backLoop, backLen]
    by_cases hset : m.test q = true
    · rw [if_neg (by rw [and_bit_eq_zero_iff, hset]; exact Bool.noConfusion), if_pos hset]
      split
      · rename_i h0
        rw [ih (by omega)]
        · push_cast
          omega
        · intro hpos
          omega
        · intro hpos
          rw [show (q - 1) / 8 = q / 8 by omega]
        · intro hpos
          rw [bit_shiftRight (by omega) (by omega), show q % 8 - 1 = (q - 1) % 8 by omega]
      · -- the last bit of the byte in front
        rename_i h0
        rw [ih (by omega)]
        · push_cast
          omega
        · intro hpos
          omega
        · intro hpos
          rw [show ((q / 8 : Nat) : Int) - 1 = ((q - 1) / 8 : Nat) by omega, Int.toNat_natCast]
        · intro hpos
          rw [show (q - 1) % 8 = 7 by omega]
    · rw [if_pos ((and_bit_eq_zero_iff q).2 (Bool.eq_false_iff.2 hset)), if_neg hset]
      exact (Int.sub_zero _).symm

theorem maxLoop_spec (sump : Nat → Int) (c : Nat) :
    maxLoop sump c ≤ c ∧ (maxLoop sump c ≠ 0 → 0 < sump (maxLoop sump c)) ∧
      ∀ k, maxLoop sump c < k → k ≤ c → sump k ≤ 0 := by
  induction c with
  | zero => exact ⟨Nat.le_refl 0, fun h => absurd rfl h, fun k hk hk0 => by omega⟩
  | succ c ih =>
    rw [maxLoop]
    split
    · rename_i hpos
      exact ⟨Nat.le_refl _, fun _ => hpos, fun k hk hkc => by omega⟩
    · rename_i hpos
      obtain ⟨hle, hmax, hrest⟩ := ih
      refine ⟨Nat.le_succ_of_le hle, hmax, ?_⟩
      intro k hk hkc
      rcases Nat.lt_or_eq_of_le hkc with hlt | rfl
      · exact hrest k hk (Nat.le_of_lt_succ hlt)
      · exact Int.not_lt.1 hpos

end

/-! ## One block -/

/-- The free blocks next to the block, as far as they are counted. -/
def forwOf (c : Nat) (m : Bitmap 8) (n blkno : Nat) : Nat :=
  min (forwLen m.test (blkno + 1) (n - (blkno + 1))) c

def backOf (c : Nat) (m : Bitmap 8) (blkno : Nat) : Nat := min (backLen m.test blkno blkno) c

/-- The counts behind one call. -/
def sumAcct (c : Nat) (m : Bitmap 8) (n blkno : Nat) (sum : Nat → Int) (cnt : Int) : Nat → Int :=
  fun k => sum k + (if k = min (backOf c m blkno + forwOf c m n blkno + 1) c then cnt else 0)
    - (if k = backOf c m blkno ∧ 0 < k then cnt else 0)
    - (if k = forwOf c m n blkno ∧ 0 < k then cnt else 0)

variable {blkno c n : Nat}

theorem forwLoop_forwOf {m : Bitmap 8} (hlt : blkno < n) :
    forwLoop m ((if blkno + 1 + c ≥ n then n else blkno + 1 + c) - (blkno + 1)) (blkno + 1)
        ((blkno + 1) / 8 + 1) (m ((blkno + 1) / 8)) (1#8 <<< ((blkno + 1) % 8)) - (blkno + 1)
      = forwOf c m n blkno := by
  have hleft : (if blkno + 1 + c ≥ n then n else blkno + 1 + c) - (blkno + 1)
      = min (n - (blkno + 1)) c := by
    split <;> omega
  rw [forwLoop_eq, hleft, forwLen_min, Nat.add_sub_cancel_left]
  rfl

theorem backLoop_backOf {m : Bitmap 8} :
    (((blkno : Int) - 1) - backLoop m
        (((blkno : Int) - 1) - (if ((blkno : Int) - 1) - c < 0 then -1 else ((blkno : Int) - 1) - c)).toNat
        ((blkno : Int) - 1) (((blkno : Int) - 1).tdiv 8 - 1) (m (((blkno : Int) - 1).tdiv 8).toNat)
        (1#8 <<< (((blkno : Int) - 1).tmod 8).toNat)).toNat
      = backOf c m blkno := by
  have hleft : (((blkno : Int) - 1)
      - (if ((blkno : Int) - 1) - c < 0 then -1 else ((blkno : Int) - 1) - c)).toNat
      = min blkno c := by
    split <;> omega
  have hdiv : 0 < blkno → ((blkno : Int) - 1).tdiv 8 = ((blkno - 1) / 8 : Nat) := by
    intro hpos
    rw [show ((blkno : Int) - 1) = (blkno - 1 : Nat) by omega]
    rfl
  have hmod : 0 < blkno → ((blkno : Int) - 1).tmod 8 = ((blkno - 1) % 8 : Nat) := by
    intro hpos
    rw [show ((blkno : Int) - 1) = (blkno - 1 : Nat) by omega]
    rfl
  rw [hleft, backLoop_eq (Nat.min_le_left blkno c) (fun hpos => by rw [hdiv hpos])
    (fun hpos => by rw [hdiv hpos, Int.toNat_natCast])
    (fun hpos => by rw [hmod hpos, Int.toNat_natCast]), backLen_min]
  show _ = min (backLen m.test blkno blkno) c
  omega

theorem update_add_apply (f : Nat → Int) (i : Nat) (d : Int) (k : Nat) :
    update f i (f i + d) k = f k + if k = i then d else 0 := by
  by_cases hk : k = i
  · subst hk
    rw [update_self, if_pos rfl]
  · rw [update_of_ne hk, if_neg hk, Int.add_zero]

theorem if_update_apply (f : Nat → Int) (i : Nat) (d : Int) (k : Nat) :
    (if i > 0 then update f i (f i - d) else f) k
      = f k - if k = i ∧ 0 < k then d else 0 := by
  by_cases hi : i > 0
  · rw [if_pos hi, Int.sub_eq_add_neg, update_add_apply]
    by_cases hk : k = i
    · rw [if_pos hk, if_pos ⟨hk, hk ▸ hi⟩]
      rfl
    · rw [if_neg hk, if_neg fun h => hk h.1]
      omega
  · rw [if_neg hi, if_neg (fun h : k = i ∧ 0 < k => hi (h.1 ▸ h.2)), Int.sub_zero]

theorem ffsClusteracct_eq (hc : 0 < c) (cg : Clusters) {blkno : Nat} (cnt : Int)
    (hlt : blkno < cg.cgNclusterblks) {m : Bitmap 8}
    (hm : m = if cnt > 0 then cg.cgClustersfree.set blkno else cg.cgClustersfree.clear blkno) :
    ffsClusteracct c cg blkno cnt =
      { cg with
        cgClustersfree := m
        cgClustersum := sumAcct c m cg.cgNclusterblks blkno cg.cgClustersum cnt
        fsMaxcluster :=
          maxLoop (sumAcct c m cg.cgNclusterblks blkno cg.cgClustersum cnt) c } := by
  have hsize : (if backOf c m blkno + forwOf c m cg.cgNclusterblks blkno + 1 > c then c
      else backOf c m blkno + forwOf c m cg.cgNclusterblks blkno + 1)
      = min (backOf c m blkno + forwOf c m cg.cgNclusterblks blkno + 1) c := by
    split <;> omega
  unfold ffsClusteracct
  simp only [Int.toNat_natCast, ← hm, forwLoop_forwOf hlt, backLoop_backOf, hsize]
  rw [if_neg (by omega)]
  congr 2 <;> funext k <;>
    rw [if_update_apply, if_update_apply, update_add_apply, sumAcct]

/-! ## Runs of calls -/

/-- The counts are those of the maximal runs of free blocks, where the longest ones count as of
    length `c`. -/
structure SummaryOk (c : Nat) (cg : Clusters) : Prop where
  exact : ∀ k, 0 < k → k < c → cg.cgClustersum k = ((Finset.range cg.cgNclusterblks).filter fun s =>
        IsRun cg.cgClustersfree.test cg.cgNclusterblks s k).card
  longest : cg.cgClustersum c
    = ((Finset.range cg.cgNclusterblks).filter fun s =>
        ∃ len ≤ cg.cgNclusterblks, c ≤ len ∧
          IsRun cg.cgClustersfree.test cg.cgNclusterblks s len).card

/-- `fs_maxcluster` is the largest size of a cluster, or zero. -/
structure MaxOk (c : Nat) (cg : Clusters) : Prop where
  le : cg.fsMaxcluster ≤ c
  ne_zero : cg.fsMaxcluster ≠ 0 → cg.cgClustersum cg.fsMaxcluster ≠ 0
  none_above : ∀ k, cg.fsMaxcluster < k → k ≤ c → cg.cgClustersum k = 0

/-- An allocation takes a free block, a release one that is allocated. -/
def AcctOk (cg : Clusters) (call : Nat × Int) : Prop :=
  call.1 < cg.cgNclusterblks ∧
    (call.2 = -1 ∧ cg.cgClustersfree.test call.1 = true ∨
      call.2 = 1 ∧ cg.cgClustersfree.test call.1 = false)

/-- One call of `ffs_clusteracct`. -/
def acctStep (c : Nat) (cg : Clusters) (call : Nat × Int) : Option Clusters :=
  some (ffsClusteracct c cg call.1 call.2)

theorem summaryOk_iff (hc : 0 < c) {cg : Clusters} :
    SummaryOk c cg ↔ ∀ k, 0 < k → k ≤ c → cg.cgClustersum k
      = (runStarts cg.cgClustersfree.test cg.cgNclusterblks c k).card := by
  have hshort : ∀ k, 0 < k → k < c → runStarts cg.cgClustersfree.test cg.cgNclusterblks c k
      = (Finset.range cg.cgNclusterblks).filter fun s =>
        IsRun cg.cgClustersfree.test cg.cgNclusterblks s k := by
    intro k hk hkc
    ext s
    rw [mem_runStarts, Finset.mem_filter, Finset.mem_range]
    constructor
    · rintro ⟨len, hrun, hmin⟩
      have hlen : len = k := by omega
      have hpos := hrun.1
      have hle := hrun.2.1
      subst hlen
      exact ⟨by omega, hrun⟩
    · rintro ⟨-, hrun⟩
      exact ⟨k, hrun, by omega⟩
  have hlong : runStarts cg.cgClustersfree.test cg.cgNclusterblks c c
      = (Finset.range cg.cgNclusterblks).filter fun s => ∃ len ≤ cg.cgNclusterblks, c ≤ len ∧
        IsRun cg.cgClustersfree.test cg.cgNclusterblks s len := by
    ext s
    rw [runStarts, Finset.mem_filter, Finset.mem_filter]
    refine and_congr_right fun _ => exists_congr fun len => and_congr_right fun _ => ?_
    rw [and_comm, min_eq_right_iff]
  constructor
  · rintro ⟨hexact, hlongest⟩ k hk hkc
    rcases Nat.lt_or_eq_of_le hkc with hlt | rfl
    · rw [hshort k hk hlt]
      exact hexact k hk hlt
    · rw [hlong]
      exact hlongest
  · intro h
    refine ⟨?_, ?_⟩
    · intro k hk hkc
      rw [h k hk (Nat.le_of_lt hkc), hshort k hk hkc]
    · rw [h c hc (Nat.le_refl c), hlong]

theorem gap_clear {m : Bitmap 8} (hlt : blkno < n) :
    Gap (update m.test blkno false) n blkno (backLen m.test blkno blkno)
      (forwLen m.test (blkno + 1) (n - (blkno + 1))) := by
  have hgap := gap_lens (b := update m.test blkno false) hlt (update_self ..)
  rwa [backLen_update (Nat.le_refl _), forwLen_update (Nat.lt_succ_self _)] at hgap

theorem test_set_eq (m : Bitmap 8) (blkno : Nat) :
    (m.set blkno).test = update m.test blkno true := by
  funext i
  rw [Bitmap.test_set (by decide), update_apply]
  by_cases hi : i = blkno
  · rw [if_pos hi, decide_eq_true hi, Bool.true_or]
  · rw [if_neg hi, decide_eq_false hi, Bool.false_or]

theorem test_clear_eq (m : Bitmap 8) (blkno : Nat) :
    (m.clear blkno).test = update m.test blkno false := by
  funext i
  rw [Bitmap.test_clear (by decide), update_apply]
  by_cases hi : i = blkno
  · rw [if_pos hi, decide_eq_true hi]
    rfl
  · rw [if_neg hi, decide_eq_false hi]
    rfl

theorem sumAcct_apply {m : Bitmap 8} {k : Nat} (hk : 0 < k) (sum : Nat → Int)
    (cnt : Int) :
    sumAcct c m n blkno sum cnt k = sum k
      + (if min (backLen m.test blkno blkno + forwLen m.test (blkno + 1) (n - (blkno + 1)) + 1) c
          = k then cnt else 0)
      - (if 0 < backLen m.test blkno blkno ∧ min (backLen m.test blkno blkno) c = k then cnt
          else 0)
      - (if 0 < forwLen m.test (blkno + 1) (n - (blkno + 1)) ∧
            min (forwLen m.test (blkno + 1) (n - (blkno + 1))) c = k then cnt else 0) := by
  unfold sumAcct backOf forwOf
  generalize backLen m.test blkno blkno = back
  generalize forwLen m.test (blkno + 1) (n - (blkno + 1)) = forw
  have hjoin : k = min (min back c + min forw c + 1) c ↔ min (back + forw + 1) c = k := by omega
  have hback : k = min back c ∧ 0 < k ↔ 0 < back ∧ min back c = k := by omega
  have hforw : k = min forw c ∧ 0 < k ↔ 0 < forw ∧ min forw c = k := by omega
  simp only [hjoin, hback, hforw]

/-- A call keeps the counts. -/
theorem SummaryOk.step (hc : 0 < c) {cg : Clusters} (h : SummaryOk c cg)
    {call : Nat × Int} (hok : AcctOk cg call) :
    SummaryOk c (ffsClusteracct c cg call.1 call.2) ∧
      MaxOk c (ffsClusteracct c cg call.1 call.2) := by
  obtain ⟨blkno, cnt⟩ := call
  obtain ⟨hlt, hcnt⟩ := hok
  have hsum : SummaryOk c (ffsClusteracct c cg blkno cnt) := by
    rw [summaryOk_iff hc] at h ⊢
    intro k hk hkc
    have hk' := h k hk hkc
    dsimp only at hlt hcnt
    rcases hcnt with ⟨rfl, hfree⟩ | ⟨rfl, halloc⟩
    · -- a run is split
      have hold : update cg.cgClustersfree.test blkno true = cg.cgClustersfree.test :=
        update_eq_self_iff.2 hfree.symm
      have hjoined := card_runStarts_update (gap_clear (m := cg.cgClustersfree.clear blkno) hlt) c k
      simp only [update_idem, test_clear_eq, hold] at hjoined
      rw [← test_clear_eq] at hjoined
      rw [ffsClusteracct_eq hc cg (-1) hlt (if_neg (by decide)).symm]
      dsimp only
      rw [sumAcct_apply hk, hk']
      split_ifs at hjoined ⊢ <;> omega
    · -- two runs are joined
      have hold : update cg.cgClustersfree.test blkno false = cg.cgClustersfree.test :=
        update_eq_self_iff.2 halloc.symm
      have hjoined := card_runStarts_update (gap_clear (m := cg.cgClustersfree.set blkno) hlt) c k
      simp only [update_idem, test_set_eq, hold] at hjoined
      rw [← test_set_eq] at hjoined
      rw [ffsClusteracct_eq hc cg 1 hlt (if_pos (by decide)).symm]
      dsimp only
      rw [sumAcct_apply hk, hk']
      split_ifs at hjoined ⊢ <;> omega
  refine ⟨hsum, ?_⟩
  -- counts are not negative, so a count of at most zero is zero
  have hcount := (summaryOk_iff hc).1 hsum
  dsimp only at hlt
  rw [ffsClusteracct_eq hc cg cnt hlt rfl] at hcount ⊢
  obtain ⟨hle, hmax, hrest⟩ := maxLoop_spec (sumAcct c (if cnt > 0 then cg.cgClustersfree.set blkno
    else cg.cgClustersfree.clear blkno) cg.cgNclusterblks blkno cg.cgClustersum cnt) c
  refine ⟨hle, fun hne => (hmax hne).ne', ?_⟩
  intro k hk hkc
  have hk0 := hrest k hk hkc
  have hknat := hcount k (Nat.zero_lt_of_lt hk) hkc
  dsimp only at hknat ⊢
  omega

/-- The cluster summary stays exact in every run of allocations and releases. -/
theorem clusterSummary_of_run {c : Nat} (hc : 0 < c) {cg cg' : Clusters}
    {calls : List (Nat × Int)} (hrun : Run (acctStep c) AcctOk cg calls cg')
    (hstart : SummaryOk c cg) :
    SummaryOk c cg' ∧ (calls ≠ [] ∨ MaxOk c cg → MaxOk c cg') := by
  induction hrun with
  | nil cg => exact ⟨hstart, fun h => h.resolve_left fun hne => hne rfl⟩
  | cons hok hstep hrest ih =>
    have hnext := Option.some_inj.1 hstep
    obtain ⟨hsum, hmax⟩ := hstart.step hc hok
    rw [hnext] at hsum hmax
    obtain ⟨hsum', hmax'⟩ := ih hsum
    exact ⟨hsum', fun _ => hmax' (Or.inr hmax)⟩

/-- A group of twelve blocks, none of them free. -/
def fullGroup : Clusters := ⟨12, fun _ => 0, fun _ => 0, 0⟩

/-- Two blocks next to each other, in different bytes of the map, are freed. -/
theorem clusterSummary_of_run_two :
    SummaryOk 2 (ffsClusteracct 2 (ffsClusteracct 2 fullGroup 7 1) 8 1) ∧
      MaxOk 2 (ffsClusteracct 2 (ffsClusteracct 2 fullGroup 7 1) 8 1) := by
  have hstart : SummaryOk 2 fullGroup := by
    refine ⟨fun k hk hkc => ?_, by decide⟩
    have hone : k = 1 := by omega
    subst hone
    decide
  have hrun : Run (acctStep 2) AcctOk fullGroup [(7, 1), (8, 1)]
      (ffsClusteracct 2 (ffsClusteracct 2 fullGroup 7 1) 8 1) :=
    .cons ⟨by decide, Or.inr (by decide)⟩ rfl
      (.cons ⟨by decide, Or.inr (by decide)⟩ rfl (.nil _))
  obtain ⟨hsum, hmax⟩ := clusterSummary_of_run (by decide) hrun hstart
  exact ⟨hsum, hmax (Or.inl (List.cons_ne_nil _ _))⟩

end OpenBsd.Ufs
