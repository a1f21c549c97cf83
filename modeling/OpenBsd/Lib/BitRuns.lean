/-
  OpenBsd.Lib.BitRuns

  The maximal runs of set bits among the first ones of a map, and what becomes of them when
  one bit changes: a clear bit stands between the run in front of it and the run behind it,
  and a set bit joins them.
-/

import Mathlib.Order.Interval.Finset.Nat

namespace OpenBsd.Lib

open Function

variable {b : Nat → Bool} {n : Nat}

/-! ## Set bits from a place on and in front of it -/

/-- The set bits from `i` on without a gap, at most `k` of them. -/
@[simp] def forwLen (b : Nat → Bool) : (i k : Nat) → Nat
  | _, 0 => 0
  | i, k + 1 => if b i then forwLen b (i + 1) k + 1 else 0

/-- The set bits in front of `i` without a gap, at most `k` of them. -/
@[simp] def backLen (b : Nat → Bool) : (i k : Nat) → Nat
  | _, 0 => 0
  | 0, _ => 0
  | i + 1, k + 1 => if b i then backLen b i k + 1 else 0

theorem forwLen_min (i k c : Nat) : forwLen b i (min k c) = min (forwLen b i k) c := by
  induction k generalizing i c with
  | zero => simp [forwLen]
  | succ k ih =>
    cases c with
    | zero => simp [forwLen]
    | succ c =>
      rw [Nat.succ_min_succ, forwLen, forwLen]
      split
      · rw [ih, Nat.succ_min_succ]
      · rw [Nat.zero_min]

theorem backLen_min (i k c : Nat) : backLen b i (min k c) = min (backLen b i k) c := by
  induction k generalizing i c with
  | zero => simp [backLen]
  | succ k ih =>
    cases c with
    | zero => simp [backLen]
    | succ c =>
      cases i with
      | zero => simp [backLen]
      | succ i =>
        rw [Nat.succ_min_succ, backLen, backLen]
        split
        · rw [ih, Nat.succ_min_succ]
        · rw [Nat.zero_min]

/-- The bit itself is not looked at. -/
theorem forwLen_update {x i : Nat} (h : x < i) (v : Bool) (k : Nat) :
    forwLen (update b x v) i k = forwLen b i k := by
  induction k generalizing i with
  | zero => rfl
  | succ k ih => rw [forwLen, forwLen, update_of_ne (by omega), ih (by omega)]

theorem backLen_update {x i : Nat} (h : i ≤ x) (v : Bool) (k : Nat) :
    backLen (update b x v) i k = backLen b i k := by
  induction k generalizing i with
  | zero => cases i <;> rfl
  | succ k ih =>
    cases i with
    | zero => rfl
    | succ i => rw [backLen, backLen, update_of_ne (by omega), ih (by omega)]

theorem forwLen_spec (i k : Nat) :
    forwLen b i k ≤ k ∧ (∀ j < forwLen b i k, b (i + j) = true) ∧
      (forwLen b i k = k ∨ b (i + forwLen b i k) = false) := by
  induction k generalizing i with
  | zero => exact ⟨Nat.le_refl 0, fun j hj => absurd hj (Nat.not_lt_zero j), Or.inl rfl⟩
  | succ k ih =>
    rw [forwLen]
    split
    · rename_i hi
      obtain ⟨hle, hset, hend⟩ := ih (i + 1)
      refine ⟨Nat.succ_le_succ hle, ?_, ?_⟩
      · intro j hj
        cases j with
        | zero => exact hi
        | succ j =>
          rw [← Nat.add_assoc, Nat.add_right_comm]
          exact hset j (Nat.lt_of_succ_lt_succ hj)
      · rw [← Nat.add_assoc, Nat.add_right_comm, Nat.add_left_inj]
        exact hend
    · rename_i hi
      exact ⟨Nat.zero_le _, fun j hj => absurd hj (Nat.not_lt_zero j),
        Or.inr (Bool.eq_false_iff.2 hi)⟩

theorem backLen_spec (i : Nat) :
    backLen b i i ≤ i ∧ (∀ j, i - backLen b i i ≤ j → j < i → b j = true) ∧
      (backLen b i i = i ∨ b (i - backLen b i i - 1) = false) := by
  induction i with
  | zero => exact ⟨Nat.le_refl 0, fun j _ hj => absurd hj (Nat.not_lt_zero j), Or.inl rfl⟩
  | succ i ih =>
    rw [backLen]
    split
    · rename_i hi
      obtain ⟨hle, hset, hend⟩ := ih
      rw [Nat.succ_sub_succ]
      refine ⟨Nat.succ_le_succ hle, ?_, ?_⟩
      · intro j hj hji
        rcases Nat.lt_succ_iff_lt_or_eq.1 hji with hlt | rfl
        · exact hset j hj hlt
        · exact hi
      · rw [Nat.add_left_inj]
        exact hend
    · rename_i hi
      refine ⟨Nat.zero_le _, fun j hj hji => by omega, Or.inr ?_⟩
      rw [Nat.sub_zero, Nat.add_sub_cancel]
      exact Bool.eq_false_iff.2 hi

/-! ## Maximal runs -/

/-- The `len` bits from `s` on are set and cannot be extended within the first `n`. -/
def IsRun (b : Nat → Bool) (n s len : Nat) : Prop :=
  0 < len ∧ s + len ≤ n ∧ (∀ i < len, b (s + i) = true) ∧ (s = 0 ∨ b (s - 1) = false) ∧
    (s + len = n ∨ b (s + len) = false)

instance (b : Nat → Bool) (n s len : Nat) : Decidable (IsRun b n s len) :=
  inferInstanceAs (Decidable (_ ∧ _))

theorem IsRun.unique {s len len' : Nat} (h : IsRun b n s len) (h' : IsRun b n s len') :
    len = len' := by
  -- the shorter one could be extended
  have hle : ∀ {l l' : Nat}, IsRun b n s l → IsRun b n s l' → ¬ l < l' := by
    rintro l l' ⟨-, -, -, -, hend⟩ ⟨-, hle', hset', -, -⟩ hlt
    rcases hend with hend | hend
    · omega
    · rw [hset' l hlt] at hend
      cases hend
  have := hle h h'
  have := hle h' h
  omega

/-- A bit that is clear, with the set bits in front of it and behind it. -/
structure Gap (b : Nat → Bool) (n x back forw : Nat) : Prop where
  clear : b x = false
  back_le : back ≤ x
  back_set : ∀ j, x - back ≤ j → j < x → b j = true
  back_end : back = x ∨ b (x - back - 1) = false
  forw_le : x + 1 + forw ≤ n
  forw_set : ∀ j < forw, b (x + 1 + j) = true
  forw_end : x + 1 + forw = n ∨ b (x + 1 + forw) = false

theorem gap_lens {x : Nat} (hx : x < n) (hclear : b x = false) :
    Gap b n x (backLen b x x) (forwLen b (x + 1) (n - (x + 1))) := by
  obtain ⟨hback, hbset, hbend⟩ := backLen_spec (b := b) x
  obtain ⟨hforw, hfset, hfend⟩ := forwLen_spec (b := b) (x + 1) (n - (x + 1))
  exact ⟨hclear, hback, hbset, hbend, by omega, hfset, hfend.imp_left fun h => by omega⟩

namespace Gap

variable {x back forw s len : Nat}

/-- The run in front of the clear bit. -/
theorem isRun_back (h : Gap b n x back forw) :
    IsRun b n (x - back) len ↔ 0 < back ∧ len = back := by
  have hle := h.back_le
  have hfle := h.forw_le
  have hrun : 0 < back → IsRun b n (x - back) back := by
    intro hpos
    refine ⟨hpos, by omega, fun i hi => h.back_set _ (by omega) (by omega), ?_, ?_⟩
    · exact h.back_end.imp_left fun heq => by omega
    · rw [Nat.sub_add_cancel hle]
      exact Or.inr h.clear
  constructor
  · intro hr
    by_cases hpos : 0 < back
    · exact ⟨hpos, hr.unique (hrun hpos)⟩
    · -- a run cannot start at the clear bit
      have hfirst := hr.2.2.1 0 hr.1
      rw [show x - back + 0 = x by omega, h.clear] at hfirst
      cases hfirst
  · rintro ⟨hpos, rfl⟩
    exact hrun hpos

/-- The run behind it. -/
theorem isRun_forw (h : Gap b n x back forw) : IsRun b n (x + 1) len ↔ 0 < forw ∧ len = forw := by
  have hrun : 0 < forw → IsRun b n (x + 1) forw := fun hpos =>
    ⟨hpos, h.forw_le, h.forw_set, Or.inr (by rw [Nat.add_sub_cancel]; exact h.clear), h.forw_end⟩
  constructor
  · intro hr
    by_cases hpos : 0 < forw
    · exact ⟨hpos, hr.unique (hrun hpos)⟩
    · have hzero : forw = 0 := by omega
      have hend := h.forw_end
      have hfirst := hr.2.2.1 0 hr.1
      have hlen := hr.1
      have hle := hr.2.1
      subst hzero
      rcases hend with hend | hend
      · omega
      · rw [hend] at hfirst
        cases hfirst
  · rintro ⟨hpos, rfl⟩
    exact hrun hpos

/-- The run that takes their places when the bit is set. -/
theorem isRun_update (h : Gap b n x back forw) :
    IsRun (update b x true) n (x - back) len ↔ len = back + forw + 1 := by
  have hle := h.back_le
  have hfle := h.forw_le
  have hrun : IsRun (update b x true) n (x - back) (back + forw + 1) := by
    refine ⟨Nat.succ_pos _, by omega, ?_, ?_, ?_⟩
    · intro i hi
      by_cases hx : x - back + i = x
      · rw [hx, update_self]
      · rw [update_of_ne hx]
        by_cases hlt : x - back + i < x
        · exact h.back_set _ (by omega) hlt
        · have hset := h.forw_set (i - back - 1) (by omega)
          rwa [show x + 1 + (i - back - 1) = x - back + i by omega] at hset
    · by_cases hb : back = x
      · exact Or.inl (by omega)
      · rw [update_of_ne (by omega)]
        exact h.back_end.imp_left fun heq => absurd heq hb
    · have hend : x - back + (back + forw + 1) = x + 1 + forw := by omega
      rw [hend, update_of_ne (by omega)]
      exact h.forw_end
  constructor
  · intro hr
    exact hr.unique hrun
  · rintro rfl
    exact hrun

theorem not_isRun_update_forw (_h : Gap b n x back forw) :
    ¬ IsRun (update b x true) n (x + 1) len := by
  rintro ⟨-, -, -, hstart, -⟩
  rw [Nat.add_sub_cancel, update_self] at hstart
  rcases hstart with h0 | hfalse
  · omega
  · cases hfalse

/-- The bits from `s` up to the clear one are the run in front of it. -/
theorem eq_sub_back (h : Gap b n x back forw) (hsx : s ≤ x)
    (hset : ∀ j, s ≤ j → j < x → b j = true) (hstart : s = 0 ∨ b (s - 1) = false) :
    s = x - back := by
  have hle := h.back_le
  by_contra hne
  rcases Nat.lt_or_gt_of_ne hne with hlt | hgt
  · -- the run in front would go on
    rcases h.back_end with hend | hend
    · omega
    · rw [hset (x - back - 1) (by omega) (by omega)] at hend
      cases hend
  · rcases hstart with hstart | hstart
    · omega
    · rw [h.back_set (s - 1) (by omega) (by omega)] at hstart
      cases hstart

/-- All other runs stay. -/
theorem isRun_update_of_ne (h : Gap b n x back forw) (hback : s ≠ x - back) (hforw : s ≠ x + 1) :
    IsRun (update b x true) n s len ↔ IsRun b n s len := by
  constructor
  · rintro ⟨hpos, hle, hset, hstart, hend⟩
    have hstart' : s = 0 ∨ b (s - 1) = false := by
      by_cases hx : s = 0
      · exact Or.inl hx
      · rwa [update_of_ne (by omega)] at hstart
    -- it does not reach over the changed bit
    have hout : ¬ (s ≤ x ∧ x < s + len) := by
      rintro ⟨hsx, hxl⟩
      refine hback (h.eq_sub_back hsx ?_ hstart')
      intro j hj hjx
      have hj' := hset (j - s) (by omega)
      rwa [Nat.add_sub_cancel' hj, update_of_ne (by omega)] at hj'
    refine ⟨hpos, hle, ?_, hstart', ?_⟩
    · intro i hi
      have hi' := hset i hi
      rwa [update_of_ne (by omega)] at hi'
    · by_cases hx : s + len = x
      · rw [hx]
        exact Or.inr h.clear
      · rwa [update_of_ne hx] at hend
  · rintro ⟨hpos, hle, hset, hstart, hend⟩
    have hclear := h.clear
    have hne : ∀ i < len, s + i ≠ x := by
      intro i hi heq
      rw [← heq, hset i hi] at hclear
      cases hclear
    have hend' : s + len ≠ x := by
      intro heq
      refine hback (h.eq_sub_back (by omega) ?_ hstart)
      intro j hj hjx
      have hj' := hset (j - s) (by omega)
      rwa [Nat.add_sub_cancel' hj] at hj'
    refine ⟨hpos, hle, ?_, ?_, ?_⟩
    · intro i hi
      rw [update_of_ne (hne i hi)]
      exact hset i hi
    · by_cases hs : s = 0
      · exact Or.inl hs
      · rwa [update_of_ne (by omega)]
    · rwa [update_of_ne hend']

end Gap

/-! ## Counting runs -/

/-- The places where a run starts that counts as one of length `k`: those longer than `c`
    count as of length `c`. -/
def runStarts (b : Nat → Bool) (n c k : Nat) : Finset Nat :=
  (Finset.range n).filter fun s => ∃ len ≤ n, IsRun b n s len ∧ min len c = k

theorem mem_runStarts {c k s : Nat} :
    s ∈ runStarts b n c k ↔ ∃ len, IsRun b n s len ∧ min len c = k := by
  rw [runStarts, Finset.mem_filter, Finset.mem_range]
  constructor
  · rintro ⟨-, len, -, h⟩
    exact ⟨len, h⟩
  · rintro ⟨len, hrun, hk⟩
    have hpos := hrun.1
    have hle := hrun.2.1
    exact ⟨by omega, len, by omega, hrun, hk⟩

theorem card_eq_erase_add (t : Finset Nat) (a : Nat) :
    t.card = (t.erase a).card + if a ∈ t then 1 else 0 := by
  split
  · rename_i h
    exact (Finset.card_erase_add_one h).symm
  · rename_i h
    rw [Finset.erase_eq_of_notMem h, Nat.add_zero]

/-- A set bit in place of a clear one: the two runs next to it become one. -/
theorem card_runStarts_update {x back forw : Nat} (h : Gap b n x back forw) (c k : Nat) :
    (runStarts (update b x true) n c k).card
        + ((if 0 < back ∧ min back c = k then 1 else 0)
          + if 0 < forw ∧ min forw c = k then 1 else 0)
      = (runStarts b n c k).card + if min (back + forw + 1) c = k then 1 else 0 := by
  have hne : x + 1 ≠ x - back := by omega
  have hback : x - back ∈ runStarts b n c k ↔ 0 < back ∧ min back c = k := by
    simp only [mem_runStarts, h.isRun_back, and_assoc, exists_and_left, exists_eq_left]
  have hforw : x + 1 ∈ runStarts b n c k ↔ 0 < forw ∧ min forw c = k := by
    simp only [mem_runStarts, h.isRun_forw, and_assoc, exists_and_left, exists_eq_left]
  have hjoin : x - back ∈ runStarts (update b x true) n c k ↔ min (back + forw + 1) c = k := by
    simp only [mem_runStarts, h.isRun_update, exists_eq_left]
  have hgone : x + 1 ∉ runStarts (update b x true) n c k := by
    simp only [mem_runStarts, h.not_isRun_update_forw, false_and, exists_false, not_false_iff]
  have hrest : ((runStarts (update b x true) n c k).erase (x - back)).erase (x + 1)
      = ((runStarts b n c k).erase (x - back)).erase (x + 1) := by
    ext s
    simp only [Finset.mem_erase, mem_runStarts]
    constructor
    · rintro ⟨hs1, hs2, len, hrun, hk⟩
      exact ⟨hs1, hs2, len, (h.isRun_update_of_ne hs2 hs1).1 hrun, hk⟩
    · rintro ⟨hs1, hs2, len, hrun, hk⟩
      exact ⟨hs1, hs2, len, (h.isRun_update_of_ne hs2 hs1).2 hrun, hk⟩
  have hnew := card_eq_erase_add (runStarts (update b x true) n c k) (x - back)
  have hnew' := card_eq_erase_add ((runStarts (update b x true) n c k).erase (x - back)) (x + 1)
  have hold := card_eq_erase_add (runStarts b n c k) (x - back)
  have hold' := card_eq_erase_add ((runStarts b n c k).erase (x - back)) (x + 1)
  rw [hrest, if_neg fun hm => hgone (Finset.mem_of_mem_erase hm)] at hnew'
  simp only [Finset.mem_erase, hne, ne_eq, not_false_iff, true_and, hforw] at hold'
  simp only [hback] at hold
  simp only [hjoin] at hnew
  omega

end OpenBsd.Lib
