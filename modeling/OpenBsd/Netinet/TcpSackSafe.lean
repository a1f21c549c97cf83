/-
  OpenBsd.Netinet.TcpSackSafe

  What the list of `tcp_update_sack_list` shows: blocks of a stream without bounds, kept apart
  from each other, as long as all numbers in use lie within 2^31.
-/

import OpenBsd.Netinet.TcpSack

namespace OpenBsd.Netinet

open OpenBsd.Lib List Function

/-! ## Blocks of a stream -/

/-- A call: `rcv_nxt` and the segment that has come in, as places of the stream. -/
structure SackCall where
  nxt : Nat
  start : Nat
  stop : Nat

/-- What a receiver knows: the place it expects next, the blocks ahead of it, the last one first,
    and all segments so far. -/
structure SackView where
  nxt : Nat
  blks : List (Nat × Nat)
  reported : List (Nat × Nat)

/-- A segment takes up the blocks that it touches, and comes to the front. -/
def SackView.call (v : SackView) (c : SackCall) : SackView :=
  let kept := v.blks.filter fun b => c.nxt < b.2
  let merged := absorb (c.start, c.stop) kept
  { nxt := c.nxt
    blks :=
      if kept = [] then if c.nxt < c.start then [(c.start, c.stop)] else []
      else if c.stop ≤ c.nxt then kept
      else (merged.1 :: merged.2).take maxSackBlks
    reported := (c.start, c.stop) :: v.reported }

structure SackOk (v : SackView) : Prop where
  count : v.blks.length ≤ maxSackBlks
  nonempty : ∀ b ∈ v.blks, b.1 < b.2
  apart : v.blks.Pairwise Apart
  ahead : ∀ b ∈ v.blks, v.nxt < b.2
  reported : ∀ b ∈ v.blks, ∀ x, b.1 ≤ x → x < b.2 → ∃ r ∈ v.reported, r.1 ≤ x ∧ x < r.2

section

variable {v : SackView} {c : SackCall}

/-- A segment that is not empty, and ahead of `rcv_nxt` if any of it is. -/
theorem SackOk.call (h : SackOk v) (hlt : c.start < c.stop) : SackOk (v.call c) := by
  have hkept : ∀ b ∈ v.blks.filter fun b => c.nxt < b.2, b ∈ v.blks ∧ c.nxt < b.2 := fun b hb =>
    ⟨(mem_filter.1 hb).1, of_decide_eq_true (mem_filter.1 hb).2⟩
  have hreported : ∀ b ∈ v.blks, ∀ x, b.1 ≤ x → x < b.2 →
      ∃ r ∈ (c.start, c.stop) :: v.reported, r.1 ≤ x ∧ x < r.2 := fun b hb x hlo hhi => by
    obtain ⟨r, hr, hx⟩ := h.reported b hb x hlo hhi
    exact ⟨r, mem_cons_of_mem _ hr, hx⟩
  have hself : ∀ x, c.start ≤ x → x < c.stop →
      ∃ r ∈ (c.start, c.stop) :: v.reported, r.1 ≤ x ∧ x < r.2 := fun x hlo hhi =>
    ⟨_, mem_cons_self, hlo, hhi⟩
  have hkeptOk :
      SackOk ⟨c.nxt, v.blks.filter fun b => c.nxt < b.2, (c.start, c.stop) :: v.reported⟩ :=
    ⟨Nat.le_trans (length_filter_le ..) h.count, fun b hb => h.nonempty b (hkept b hb).1,
      h.apart.sublist filter_sublist, fun b hb => (hkept b hb).2,
      fun b hb => hreported b (hkept b hb).1⟩
  unfold SackView.call
  dsimp only
  generalize (v.blks.filter fun b => c.nxt < b.2) = kept at hkeptOk ⊢
  split
  · split
    · next hahead =>
      refine ⟨Nat.le_add_left 1 5, fun b hb => ?_, pairwise_singleton _ _, fun b hb => ?_,
        fun b hb => ?_⟩
      · rw [mem_singleton.1 hb]
        exact hlt
      · rw [mem_singleton.1 hb]
        exact hahead.trans hlt
      · rw [mem_singleton.1 hb]
        exact hself
    · exact ⟨Nat.zero_le _, fun b hb => absurd hb not_mem_nil, .nil,
        fun b hb => absurd hb not_mem_nil, fun b hb => absurd hb not_mem_nil⟩
  · split
    · exact hkeptOk
    · next hstop =>
      have hsub := absorb_sublist (c.start, c.stop) kept
      have hle := le_absorb (c.start, c.stop) kept
      have hapart := absorb_apart (f := (c.start, c.stop)) hkeptOk.nonempty hkeptOk.apart
      have hlist : SackOk ⟨c.nxt, (absorb (c.start, c.stop) kept).2,
          (c.start, c.stop) :: v.reported⟩ :=
        ⟨Nat.le_trans hsub.length_le hkeptOk.count, fun b hb => hkeptOk.nonempty b (hsub.subset hb),
          hkeptOk.apart.sublist hsub, fun b hb => hkeptOk.ahead b (hsub.subset hb),
          fun b hb => hkeptOk.reported b (hsub.subset hb)⟩
      have htake : ∀ b ∈ ((absorb (c.start, c.stop) kept).1 ::
          (absorb (c.start, c.stop) kept).2).take maxSackBlks,
          b = (absorb (c.start, c.stop) kept).1 ∨ b ∈ (absorb (c.start, c.stop) kept).2 :=
        fun b hb => mem_cons.1 (mem_of_mem_take hb)
      refine ⟨length_take_le .., fun b hb => ?_, ?_, fun b hb => ?_, fun b hb => ?_⟩
      · rcases htake b hb with rfl | hb
        · exact (hle.1.trans_lt hlt).trans_le hle.2
        · exact hlist.nonempty b hb
      · exact (pairwise_cons.2 ⟨hapart, hlist.apart⟩).sublist (take_sublist ..)
      · rcases htake b hb with rfl | hb
        · exact (Nat.lt_of_not_le hstop).trans_le hle.2
        · exact hlist.ahead b hb
      · rcases htake b hb with rfl | hb
        · intro x hlo hhi
          rcases mem_absorb hlo hhi with hf | ⟨b, hb, hx⟩
          · exact hself x hf.1 hf.2
          · exact hkeptOk.reported b hb x hx.1 hx.2
        · exact hlist.reported b hb

theorem SackView.call_above (habove : c.nxt < c.stop → c.nxt < c.start)
    (hout : ∀ b ∈ v.blks, ¬ (b.1 ≤ c.nxt ∧ c.nxt < b.2)) :
    ∀ b ∈ (v.call c).blks, (v.call c).nxt < b.1 := by
  have hkept : ∀ b ∈ v.blks.filter fun b => c.nxt < b.2, c.nxt < b.1 := fun b hb => by
    obtain ⟨hmem, hlt⟩ := mem_filter.1 hb
    exact Nat.lt_of_not_le fun hle => hout b hmem ⟨hle, of_decide_eq_true hlt⟩
  unfold SackView.call
  dsimp only
  generalize (v.blks.filter fun b => c.nxt < b.2) = kept at hkept ⊢
  intro b hb
  split at hb
  · split at hb
    · next hahead =>
      rw [mem_singleton.1 hb]
      exact hahead
    · exact absurd hb not_mem_nil
  · split at hb
    · exact hkept b hb
    · next hstop =>
      rcases mem_cons.1 (mem_of_mem_take hb) with rfl | hb
      · have hends := absorb_ends (p := fun x => c.nxt < x) (q := fun _ => True)
          (f := (c.start, c.stop)) ⟨habove (Nat.lt_of_not_le hstop), trivial⟩
          fun b hb => ⟨hkept b hb, trivial⟩
        exact hends.1
      · exact hkept b ((absorb_sublist _ _).subset hb)

theorem SackView.call_first (habove : c.nxt < c.stop → c.nxt < c.start) (hstop : c.nxt < c.stop) :
    ∃ b rest, (v.call c).blks = b :: rest ∧ b.1 ≤ c.start ∧ c.stop ≤ b.2 := by
  unfold SackView.call
  dsimp only
  generalize (v.blks.filter fun b => c.nxt < b.2) = kept
  split
  · rw [if_pos (habove hstop)]
    exact ⟨_, _, rfl, Nat.le_refl _, Nat.le_refl _⟩
  · rw [if_neg (Nat.not_le_of_lt hstop)]
    exact ⟨_, _, rfl, le_absorb _ _⟩

end

/-! ## The loops -/

/-- A block as the list has it. -/
def toSack (b : Nat × Nat) : Sackblk := ⟨seqOf b.1, seqOf b.2⟩

/-- Not the pair 0 and 0 that marks a block as gone. -/
def Sackblk.used (sack : Sackblk) : Bool := !decide (sack.start = 0 ∧ sack.stop = 0)

section

variable {β : Type} {f : Nat → β} {temp : Nat → Sackblk} {n i j k lo : Nat}

theorem map_range'_update (f : Nat → β) (x : β) (i n : Nat) :
    (List.range' (i + 1) n).map (update f i x) = (List.range' (i + 1) n).map f := by
  refine map_congr_left fun k hk => update_of_ne ?_ x f
  have := (mem_range'_1.1 hk).1
  omega

theorem map_range_update (f : Nat → β) (x : β) (j : Nat) :
    (List.range (j + 1)).map (update f j x) = (List.range j).map f ++ [x] := by
  rw [range_succ, map_append, map_singleton, update_self]
  refine congrArg (· ++ [x]) (map_congr_left fun k hk => update_of_ne ?_ x f)
  exact Nat.ne_of_lt (mem_range.1 hk)

/-- What the list keeps stands in `temp`, behind what was there. -/
theorem sackCleanLoop_spec (rcvNxt : Nat) (n i : Nat) (s : SackClean) :
    let out := ((List.range' i n).map s.sackblks).filter fun sack =>
      sack.used && !seqLeq sack.stop rcvNxt
    let r := sackCleanLoop rcvNxt n i s
    (List.range r.j).map r.temp = (List.range s.j).map s.temp ++ out ∧
      r.j = s.j + out.length ∧ r.count + out.length = s.count + n := by
  induction n generalizing i s with
  | zero => exact ⟨(append_nil _).symm, rfl, rfl⟩
  | succ n ih =>
    dsimp only
    rw [range'_succ, map_cons, sackCleanLoop]
    split
    · next hmark =>
      rw [filter_cons_of_neg (by
        rw [Sackblk.used, decide_eq_true hmark]
        exact Bool.false_ne_true)]
      obtain ⟨htemp, hj, hcount⟩ := ih (i + 1) { s with count := s.count + 1 }
      dsimp only at htemp hj hcount
      exact ⟨htemp, hj, by omega⟩
    · next hmark =>
      split
      · next hold =>
        rw [filter_cons_of_neg (by rw [hold, Bool.not_true, Bool.and_false]; decide)]
        obtain ⟨htemp, hj, hcount⟩ := ih (i + 1) { s with
          sackblks := update s.sackblks i ⟨0, 0⟩
          count := s.count + 1 }
        dsimp only at htemp hj hcount
        rw [map_range'_update] at htemp hj hcount
        exact ⟨htemp, hj, by omega⟩
      · next hnew =>
        rw [filter_cons_of_pos (by
          rw [Sackblk.used, decide_eq_false hmark, Bool.eq_false_iff.2 hnew]; decide)]
        obtain ⟨htemp, hj, hcount⟩ := ih (i + 1) { s with
          temp := update s.temp s.j (s.sackblks i)
          j := s.j + 1 }
        dsimp only at htemp hj hcount
        rw [map_range_update, append_assoc, singleton_append] at htemp
        refine ⟨htemp, ?_, ?_⟩
        · rw [length_cons]
          omega
        · rw [length_cons]
          omega

theorem sackCopyLoop_apply (temp : Nat → Sackblk) (n i : Nat) (f : Nat → Sackblk) (k : Nat) :
    sackCopyLoop temp n i f k = if i ≤ k ∧ k < i + n then temp k else f k := by
  induction n generalizing i f with
  | zero => rw [sackCopyLoop, if_neg (by omega)]
  | succ n ih =>
    rw [sackCopyLoop, ih]
    by_cases hk : k = i
    · rw [hk, if_neg (by omega), if_pos (by omega), update_self]
    · rw [update_of_ne hk]
      by_cases hin : i ≤ k ∧ k < i + (n + 1)
      · rw [if_pos hin, if_pos (by omega)]
      · rw [if_neg hin, if_neg (by omega)]

theorem sackShiftLoop_apply (i : Nat) (f : Nat → Sackblk) (k : Nat) :
    sackShiftLoop i f k = if 1 ≤ k ∧ k ≤ i then f (k - 1) else f k := by
  induction i generalizing f with
  | zero => rw [sackShiftLoop, if_neg (by omega)]
  | succ i ih =>
    rw [sackShiftLoop, ih]
    by_cases hk : k = i + 1
    · rw [hk, if_neg (by omega), if_pos (by omega), update_self, Nat.add_sub_cancel]
    · rw [update_of_ne hk]
      by_cases hin : 1 ≤ k ∧ k ≤ i
      · rw [if_pos hin, if_pos (by omega), update_of_ne (by omega)]
      · rw [if_neg hin, if_neg (by omega)]

theorem sackCompactLoop_spec (sackblks : Nat → Sackblk) (n i : Nat) (temp : Nat → Sackblk)
    (j : Nat) :
    let out := ((List.range' i n).map sackblks).filter Sackblk.used
    let r := sackCompactLoop sackblks n i temp j
    (List.range r.2).map r.1 = (List.range j).map temp ++ out ∧ r.2 = j + out.length := by
  induction n generalizing i temp j with
  | zero => exact ⟨(append_nil _).symm, rfl⟩
  | succ n ih =>
    dsimp only
    rw [range'_succ, map_cons, sackCompactLoop]
    split
    · next hmark =>
      rw [filter_cons_of_neg (by rw [Sackblk.used, decide_eq_true hmark]; decide)]
      exact ih (i + 1) temp j
    · next hmark =>
      rw [filter_cons_of_pos (by rw [Sackblk.used, decide_eq_false hmark]; decide)]
      obtain ⟨htemp, hj⟩ := ih (i + 1) (update temp j (sackblks i)) (j + 1)
      rw [map_range_update, append_assoc, singleton_append] at htemp
      refine ⟨htemp, ?_⟩
      rw [length_cons]
      omega

end

/-! ## Comparisons -/

section

variable {lo x y : Nat} {b f : Nat × Nat}

/-- A place within 2^31 of another one. -/
def InWindow (lo x : Nat) : Prop := lo ≤ x ∧ x < lo + 2 ^ 31

section

variable (hx : InWindow lo x) (hy : InWindow lo y)
include hx hy

theorem seqLt_iff : seqLt (seqOf x) (seqOf y) = true ↔ x < y := by
  unfold InWindow at hx hy
  rw [seqLt, seqDiff_seqOf (by omega) (by omega), decide_eq_true_iff]
  omega

theorem seqGt_iff : seqGt (seqOf x) (seqOf y) = true ↔ y < x := by
  unfold InWindow at hx hy
  rw [seqGt, seqDiff_seqOf (by omega) (by omega), decide_eq_true_iff]
  omega

theorem seqLeq_iff : seqLeq (seqOf x) (seqOf y) = true ↔ x ≤ y := by
  unfold InWindow at hx hy
  rw [seqLeq, seqDiff_seqOf (by omega) (by omega), decide_eq_true_iff]
  omega

theorem seqGeq_iff : seqGeq (seqOf x) (seqOf y) = true ↔ y ≤ x := by
  unfold InWindow at hx hy
  rw [seqGeq, seqDiff_seqOf (by omega) (by omega), decide_eq_true_iff]
  omega

end

theorem used_toSack (h1 : InWindow lo b.1) (h2 : InWindow lo b.2) (hlt : b.1 < b.2) :
    (toSack b).used = true := by
  unfold InWindow at h1 h2
  rw [Sackblk.used, Bool.not_eq_true', decide_eq_false_iff_not]
  rintro ⟨hstart, hstop⟩
  have heq := seqOf_inj (by omega) (by omega) (hstart.trans hstop.symm)
  omega

section

variable (hb1 : InWindow lo b.1) (hb2 : InWindow lo b.2) (hf1 : InWindow lo f.1)
  (hf2 : InWindow lo f.2)
include hb1 hb2 hf1 hf2

theorem touches_iff :
    (seqLt (toSack b).stop (toSack f).start || seqGt (toSack b).start (toSack f).stop) = true ↔
      Apart b f := by
  rw [Bool.or_eq_true]
  exact or_congr (seqLt_iff hb2 hf1) (seqGt_iff hb1 hf2)

theorem merged_eq :
    Sackblk.mk (if seqLeq (toSack b).start (toSack f).start then (toSack b).start
        else (toSack f).start)
      (if seqGeq (toSack b).stop (toSack f).stop then (toSack b).stop else (toSack f).stop)
      = toSack (hull f b) := by
  have hstart : (if seqLeq (toSack b).start (toSack f).start then (toSack b).start
      else (toSack f).start) = seqOf (min f.1 b.1) := by
    by_cases hle : b.1 ≤ f.1
    · rw [Nat.min_eq_right hle]
      exact if_pos ((seqLeq_iff hb1 hf1).2 hle)
    · rw [Nat.min_eq_left (by omega)]
      exact if_neg (mt (seqLeq_iff hb1 hf1).1 hle)
  have hstop : (if seqGeq (toSack b).stop (toSack f).stop then (toSack b).stop
      else (toSack f).stop) = seqOf (max f.2 b.2) := by
    by_cases hle : f.2 ≤ b.2
    · rw [Nat.max_eq_right hle]
      exact if_pos ((seqGeq_iff hb2 hf2).2 hle)
    · rw [Nat.max_eq_left (by omega)]
      exact if_neg (mt (seqGeq_iff hb2 hf2).1 hle)
  rw [hstart, hstop]
  rfl

theorem InWindow.hull : InWindow lo (hull f b).1 ∧ InWindow lo (hull f b).2 := by
  constructor
  · show InWindow lo (min f.1 b.1)
    unfold InWindow at *
    omega
  · show InWindow lo (max f.2 b.2)
    unfold InWindow at *
    omega

theorem hull_of_toSack_eq
    (h : (toSack b).start = (toSack f).start ∧ (toSack b).stop = (toSack f).stop) :
    hull f b = f := by
  unfold InWindow at *
  have h1 : b.1 = f.1 := seqOf_inj (by omega) (by omega) h.1
  have h2 : b.2 = f.2 := seqOf_inj (by omega) (by omega) h.2
  show (min f.1 b.1, max f.2 b.2) = f
  rw [h1, h2, Nat.min_self, Nat.max_self]

end

end

/-! ## Coalescing -/

section

variable {lo : Nat}

/-- Either no block was taken up, and nothing has changed, or those that were are marked. -/
theorem sackMergeLoop_spec (l : List (Nat × Nat)) (i : Nat) (f : Nat × Nat) (s : SackMerge)
    (hl : (List.range' i l.length).map s.sackblks = l.map toSack) (hf : s.firstsack = toSack f)
    (hf1 : InWindow lo f.1) (hf2 : InWindow lo f.2)
    (hw : ∀ b ∈ l, InWindow lo b.1 ∧ InWindow lo b.2 ∧ b.1 < b.2) :
    let r := sackMergeLoop l.length i s
    r.firstsack = toSack (absorb f l).1 ∧ (∀ k < i, r.sackblks k = s.sackblks k) ∧
      ((List.range' i l.length).map r.sackblks).filter Sackblk.used
        = (absorb f l).2.map toSack ∧
      (r.lastpos = s.lastpos ∧ r.sackblks = s.sackblks ∧ (absorb f l).2 = l ∨
        r.lastpos ≠ none ∧ (absorb f l).2.length < l.length) := by
  induction l generalizing i f s with
  | nil => exact ⟨hf, fun k _ => rfl, rfl, .inl ⟨rfl, rfl, rfl⟩⟩
  | cons b l ih =>
    rw [length_cons, range'_succ, map_cons, map_cons, List.cons.injEq] at hl
    obtain ⟨hhead, htail⟩ := hl
    obtain ⟨hb1, hb2, hlt⟩ := hw b mem_cons_self
    have hrest := fun c hc => hw c (mem_cons_of_mem b hc)
    rw [length_cons]
    dsimp only
    rw [range'_succ, map_cons, sackMergeLoop]
    dsimp only
    rw [hhead, hf, absorb]
    by_cases hapart : Apart b f
    · rw [if_pos ((touches_iff hb1 hb2 hf1 hf2).2 hapart), if_pos hapart]
      obtain ⟨hfirst, hkeep, hused, hcase⟩ := ih (i + 1) f s htail hf hf1 hf2 hrest
      have hpos : (toSack b).used = true := used_toSack hb1 hb2 hlt
      refine ⟨hfirst, fun k hk => hkeep k (by omega), ?_, ?_⟩
      · rw [hkeep i (Nat.lt_succ_self i), hhead, filter_cons_of_pos hpos, hused, map_cons]
      · rcases hcase with ⟨hlast, hsame, hall⟩ | ⟨hlast, hless⟩
        · exact .inl ⟨hlast, hsame, congrArg (b :: ·) hall⟩
        · exact .inr ⟨hlast, Nat.succ_lt_succ hless⟩
    · rw [if_neg (mt (touches_iff hb1 hb2 hf1 hf2).1 hapart), if_neg hapart]
      obtain ⟨hh1, hh2⟩ := InWindow.hull hb1 hb2 hf1 hf2
      have hmarked : ∀ first, first = toSack (hull f b) →
          let r := sackMergeLoop l.length (i + 1)
            ⟨update s.sackblks i ⟨0, 0⟩, first, some i⟩
          r.firstsack = toSack (absorb (hull f b) l).1 ∧
            (∀ k < i, r.sackblks k = s.sackblks k) ∧
            (r.sackblks i :: (List.range' (i + 1) l.length).map r.sackblks).filter Sackblk.used
              = (absorb (hull f b) l).2.map toSack ∧
            (r.lastpos = s.lastpos ∧ r.sackblks = s.sackblks ∧
                (absorb (hull f b) l).2 = b :: l ∨
              r.lastpos ≠ none ∧ (absorb (hull f b) l).2.length < (b :: l).length) := by
        intro first hfirst'
        obtain ⟨hfirst, hkeep, hused, hcase⟩ := ih (i + 1) (hull f b)
          ⟨update s.sackblks i ⟨0, 0⟩, first, some i⟩
          (by rw [map_range'_update]; exact htail) hfirst' hh1 hh2 hrest
        dsimp only at hfirst hkeep hused hcase ⊢
        refine ⟨hfirst, fun k hk => ?_, ?_, .inr ⟨?_, ?_⟩⟩
        · rw [hkeep k (by omega), update_of_ne (by omega)]
        · rw [hkeep i (Nat.lt_succ_self i), update_self, filter_cons_of_neg (by decide), hused]
        · rcases hcase with ⟨hlast, -⟩ | ⟨hlast, -⟩
          · rw [hlast]
            exact Option.some_ne_none i
          · exact hlast
        · exact Nat.lt_succ_of_le (absorb_sublist _ _).length_le
      by_cases hsame : (toSack b).start = (toSack f).start ∧ (toSack b).stop = (toSack f).stop
      · rw [if_pos hsame]
        have hhull := hull_of_toSack_eq hb1 hb2 hf1 hf2 hsame
        exact hmarked (toSack f) (congrArg toSack hhull.symm)
      · rw [if_neg hsame]
        exact hmarked _ (merged_eq hb1 hb2 hf1 hf2)

end

/-! ## A call -/

section

variable {tp : TcpSack} {v : SackView} {c : SackCall} {lo : Nat}

/-- What a call has to keep to: the segment is not empty, and ahead of `rcv_nxt` if any of it
    is; `rcv_nxt` only advances; all numbers in use lie within 2^31. -/
structure SackAllowed (v : SackView) (c : SackCall) : Prop where
  nonempty : c.start < c.stop
  advances : v.nxt ≤ c.nxt
  above : c.nxt < c.stop → c.nxt < c.start
  window : ∃ lo, InWindow lo c.nxt ∧ InWindow lo c.start ∧ InWindow lo c.stop ∧
    ∀ b ∈ v.blks, InWindow lo b.1 ∧ InWindow lo b.2

theorem map_range_update_zero (g : Nat → Sackblk) (x : Sackblk) (n : Nat) :
    (List.range (n + 1)).map (update g 0 x)
      = x :: (List.range n).map fun k => g (k + 1) := by
  rw [range_succ_eq_map, map_cons, update_self, map_map]
  refine congrArg (x :: ·) (map_congr_left fun k _ => ?_)
  exact update_of_ne (Nat.succ_ne_zero k) x g

theorem sackClean_kept (h : SackOk v) (hnxt : InWindow lo c.nxt)
    (hw : ∀ b ∈ v.blks, InWindow lo b.1 ∧ InWindow lo b.2) :
    ((v.blks.map toSack).filter fun sack => sack.used && !seqLeq sack.stop (seqOf c.nxt))
      = (v.blks.filter fun b => c.nxt < b.2).map toSack := by
  rw [filter_map]
  refine congrArg (List.map toSack) (filter_congr fun b hb => ?_)
  obtain ⟨hb1, hb2⟩ := hw b hb
  have hleq := seqLeq_iff hb2 hnxt
  rw [comp_apply, used_toSack hb1 hb2 (h.nonempty b hb), Bool.true_and, Bool.eq_iff_iff,
    Bool.not_eq_true', decide_eq_true_iff, Bool.eq_false_iff, ne_eq]
  show ¬ seqLeq (seqOf b.2) (seqOf c.nxt) = true ↔ _
  rw [hleq]
  omega

/-- `tcp_update_sack_list` shows the blocks of the stream. -/
theorem tcpUpdateSackList_blocks (h : SackOk v) (hshow : tp.blocks = v.blks.map toSack)
    (hc : SackAllowed v c) :
    (tcpUpdateSackList { tp with rcvNxt := seqOf c.nxt } (seqOf c.start) (seqOf c.stop)).blocks
      = (v.call c).blks.map toSack := by
  obtain ⟨lo, hnxt, hstart, hstop, hw⟩ := hc.window
  have hnum : tp.rcvNumsacks = v.blks.length := by
    have hlen := congrArg List.length hshow
    rwa [TcpSack.blocks, length_map, length_range, length_map] at hlen
  obtain ⟨htemp, hj, hcount⟩ := sackCleanLoop_spec (seqOf c.nxt) tp.rcvNumsacks 0
    ⟨tp.sackblks, fun _ => ⟨0, 0⟩, 0, 0⟩
  rw [TcpSack.blocks, range_eq_range'] at hshow
  dsimp only at htemp hj hcount
  rw [hshow, sackClean_kept h hnxt hw] at htemp hj hcount
  rw [range_zero, map_nil, nil_append] at htemp
  rw [Nat.zero_add] at hj
  rw [Nat.zero_add] at hcount
  have hkept : ∀ b ∈ v.blks.filter fun b => c.nxt < b.2,
      InWindow lo b.1 ∧ InWindow lo b.2 ∧ b.1 < b.2 := fun b hb => by
    have hmem := (mem_filter.1 hb).1
    exact ⟨(hw b hmem).1, (hw b hmem).2, h.nonempty b hmem⟩
  have hmax : (v.blks.filter fun b => c.nxt < b.2).length ≤ maxSackBlks :=
    Nat.le_trans (length_filter_le ..) h.count
  unfold tcpUpdateSackList SackView.call
  dsimp only
  generalize sackCleanLoop (seqOf c.nxt) tp.rcvNumsacks 0 ⟨tp.sackblks, fun _ => ⟨0, 0⟩, 0, 0⟩ = s
    at htemp hj hcount ⊢
  generalize (v.blks.filter fun b => c.nxt < b.2) = kept at htemp hj hcount hkept hmax ⊢
  rw [length_map] at hj hcount
  rw [hj] at htemp
  rw [show tp.rcvNumsacks - s.count = kept.length by omega]
  by_cases hnone : kept = []
  · rw [if_pos (by rw [hnone]; rfl), if_pos hnone]
    have hahead : seqLt (tcpCleanSackreport ⟨seqOf c.nxt, kept.length, s.sackblks⟩).rcvNxt
        (seqOf c.start) = true ↔ c.nxt < c.start := seqLt_iff hnxt hstart
    by_cases hlt : c.nxt < c.start
    · rw [if_pos (hahead.2 hlt), if_pos hlt]
      exact map_range_update_zero _ _ 0
    · rw [if_neg (mt hahead.1 hlt), if_neg hlt]
      rfl
  · have hlen : kept.length ≠ 0 := fun hzero => hnone (length_eq_zero_iff.1 hzero)
    rw [if_neg hlen, if_neg hnone]
    -- the list is the cleaned one again
    have hcopy : (List.range kept.length).map (sackCopyLoop s.temp kept.length 0 s.sackblks)
        = kept.map toSack := by
      rw [← htemp]
      refine map_congr_left fun k hk => ?_
      have := mem_range.1 hk
      rw [sackCopyLoop_apply, if_pos (by omega)]
    have hdone := seqGeq_iff hnxt hstop
    generalize sackCopyLoop s.temp kept.length 0 s.sackblks = g at hcopy ⊢
    by_cases hle : c.stop ≤ c.nxt
    · rw [if_pos (hdone.2 hle), if_pos hle]
      exact hcopy
    · rw [if_neg (mt hdone.1 hle), if_neg hle]
      rw [range_eq_range'] at hcopy
      obtain ⟨hfirst, -, hused, hcase⟩ := sackMergeLoop_spec kept 0 (c.start, c.stop)
        ⟨g, ⟨seqOf c.start, seqOf c.stop⟩, none⟩ hcopy rfl hstart hstop hkept
      generalize sackMergeLoop kept.length 0 ⟨g, ⟨seqOf c.start, seqOf c.stop⟩, none⟩ = m
        at hfirst hused hcase ⊢
      rcases hcase with ⟨hlast, hsame, hall⟩ | ⟨hlast, hless⟩
      · -- nothing was taken up: the others move back by one
        rw [if_neg (not_not.2 hlast), hfirst, hsame, hall]
        obtain ⟨n, hn, hnle, htake⟩ : ∃ n, (if kept.length < maxSackBlks then kept.length + 1
            else kept.length) = n + 1 ∧ n ≤ kept.length ∧
              kept.take n = kept.take (maxSackBlks - 1) := by
          split
          · refine ⟨kept.length, rfl, Nat.le_refl _, ?_⟩
            rw [take_length, take_of_length_le (by omega)]
          · exact ⟨maxSackBlks - 1, by omega, by omega, rfl⟩
        rw [hn, Nat.add_sub_cancel, TcpSack.blocks, map_range_update_zero]
        have hshift : ((List.range n).map fun k => sackShiftLoop n g (k + 1))
            = (kept.map toSack).take n := by
          rw [← hcopy, ← range_eq_range', ← map_take, take_range, Nat.min_eq_left hnle]
          refine map_congr_left fun k hk => ?_
          have := mem_range.1 hk
          rw [sackShiftLoop_apply, if_pos (by omega), Nat.add_sub_cancel]
        rw [hshift, ← map_take, htake]
        rfl
      · -- the marked blocks are left out
        rw [if_pos hlast]
        obtain ⟨htemp', hj'⟩ := sackCompactLoop_spec m.sackblks kept.length 0 s.temp 1
        rw [hused] at htemp' hj'
        rw [length_map] at hj'
        generalize sackCompactLoop m.sackblks kept.length 0 s.temp 1 = r at htemp' hj' ⊢
        obtain ⟨temp, j⟩ := r
        dsimp only at htemp' hj' ⊢
        rw [hj', Nat.add_comm, range_succ_eq_map, map_cons, map_map,
          range_succ_eq_map, range_zero, map_nil, map_singleton,
          singleton_append, List.cons.injEq] at htemp'
        rw [TcpSack.blocks, hj', Nat.add_comm, Nat.add_sub_cancel, map_range_update_zero, hfirst,
          take_of_length_le (by rw [length_cons]; omega), map_cons, ← htemp'.2]
        refine congrArg (_ :: ·) (map_congr_left fun k hk => ?_)
        have := mem_range.1 hk
        rw [sackCopyLoop_apply, if_pos (by omega)]
        rfl

theorem tcpUpdateSackList_rcvNxt (tp : TcpSack) (start stop : Nat) :
    (tcpUpdateSackList tp start stop).rcvNxt = tp.rcvNxt := by
  unfold tcpUpdateSackList
  dsimp only
  split
  · split <;> rfl
  · split
    · rfl
    · split <;> rfl

/-! ## Runs -/

/-- A receiver, with the blocks of the stream beside its list. -/
structure SackRcv where
  tp : TcpSack
  view : SackView

/-- A receiver that has not got anything. -/
def sackInit (tp : TcpSack) : SackRcv := ⟨tcpCleanSackreport tp, ⟨0, [], []⟩⟩

def sackStep (s : SackRcv) (c : SackCall) : Option SackRcv :=
  some ⟨tcpUpdateSackList { s.tp with rcvNxt := seqOf c.nxt } (seqOf c.start) (seqOf c.stop),
    s.view.call c⟩

/-- The list shows the blocks of the stream, and these are well formed. -/
structure SackShown (s : SackRcv) : Prop where
  blocks : s.tp.blocks = s.view.blks.map toSack
  ok : SackOk s.view

theorem SackShown.step {s s' : SackRcv} (h : SackShown s) (hc : SackAllowed s.view c)
    (hstep : sackStep s c = some s') : SackShown s' := by
  obtain rfl := Option.some.inj hstep
  exact ⟨tcpUpdateSackList_blocks h.ok h.blocks hc, h.ok.call hc.nonempty⟩

theorem sackShown_init (tp : TcpSack) : SackShown (sackInit tp) :=
  ⟨rfl, Nat.zero_le _, fun _ hb => absurd hb not_mem_nil, .nil,
    fun _ hb => absurd hb not_mem_nil, fun _ hb => absurd hb not_mem_nil⟩

theorem sackRun_shown {es : List SackCall} {s : SackRcv}
    (hrun : Run sackStep (fun s c => SackAllowed s.view c) (sackInit tp) es s) : SackShown s :=
  hrun.invariant (fun _ _ _ h hc hstep => h.step hc hstep) (sackShown_init tp)

/-- After every call of a run the blocks in use are at most six blocks of the stream, none of
    them empty, apart from each other, that end above `rcv_nxt` and hold reported bytes only; a
    segment that is not in order stands in the first one; and if `rcv_nxt` has not come to lie in
    a block of the list before the call, they lie above it. -/
theorem tcpUpdateSackList_wellFormed {es : List SackCall} {s s' : SackRcv}
    (hrun : Run sackStep (fun s c => SackAllowed s.view c) (sackInit tp) es s)
    (hc : SackAllowed s.view c) (hstep : sackStep s c = some s') :
    s'.tp.rcvNxt = seqOf c.nxt ∧ s'.view.nxt = c.nxt ∧ SackShown s' ∧
      (c.nxt < c.stop → ∃ b rest, s'.view.blks = b :: rest ∧ b.1 ≤ c.start ∧ c.stop ≤ b.2) ∧
      ((∀ b ∈ s.view.blks, ¬ (b.1 ≤ c.nxt ∧ c.nxt < b.2)) →
        ∀ b ∈ s'.view.blks, c.nxt < b.1) := by
  have hshown := (sackRun_shown hrun).step hc hstep
  obtain rfl := Option.some.inj hstep
  exact ⟨tcpUpdateSackList_rcvNxt .., rfl, hshown, SackView.call_first hc.above,
    SackView.call_above hc.above⟩

end

/-- A first segment that is not in order. -/
theorem tcpUpdateSackList_wellFormed_first :
    ∃ s', sackStep (sackInit ⟨100, 0, fun _ => ⟨0, 0⟩⟩) ⟨100, 200, 300⟩ = some s' ∧
      SackShown s' ∧ ∀ b ∈ s'.view.blks, 100 < b.1 := by
  have hallowed : SackAllowed (sackInit ⟨100, 0, fun _ => ⟨0, 0⟩⟩).view ⟨100, 200, 300⟩ :=
    ⟨by decide, by decide, fun _ => by decide, 0, by unfold InWindow; decide,
      by unfold InWindow; decide, by unfold InWindow; decide, fun b hb => absurd hb not_mem_nil⟩
  obtain ⟨-, -, hshown, -, habove⟩ := tcpUpdateSackList_wellFormed (.nil _) hallowed rfl
  exact ⟨_, rfl, hshown, habove fun b hb => absurd hb not_mem_nil⟩

/-- `rcv_nxt` comes to lie in a block: the segment in front of it arrives when part of what was
    reported is gone from the queue.  The block stays as it is. -/
theorem tcpUpdateSackList_below :
    ∃ s, Run sackStep (fun s c => SackAllowed s.view c ∧ (c.nxt ≤ c.stop → c.nxt < c.start))
        (sackInit ⟨100, 0, fun _ => ⟨0, 0⟩⟩) [⟨100, 200, 300⟩, ⟨250, 100, 200⟩] s ∧
      s.tp.rcvNxt = seqOf 250 ∧ s.tp.blocks = [⟨seqOf 200, seqOf 300⟩] := by
  have hfirst : SackAllowed (sackInit ⟨100, 0, fun _ => ⟨0, 0⟩⟩).view ⟨100, 200, 300⟩ :=
    ⟨by decide, by decide, fun _ => by decide, 0, by unfold InWindow; decide,
      by unfold InWindow; decide, by unfold InWindow; decide, fun b hb => absurd hb not_mem_nil⟩
  have hsecond : SackAllowed ⟨100, [(200, 300)], [(200, 300)]⟩ ⟨250, 100, 200⟩ := by
    refine ⟨by decide, by decide, fun h => absurd h (by decide), 0, by unfold InWindow; decide,
      by unfold InWindow; decide, by unfold InWindow; decide, fun b hb => ?_⟩
    rw [mem_singleton.1 hb]
    exact ⟨by unfold InWindow; decide, by unfold InWindow; decide⟩
  have hshown := ((sackShown_init ⟨100, 0, fun _ => ⟨0, 0⟩⟩).step hfirst rfl).step hsecond rfl
  exact ⟨_, .cons ⟨hfirst, fun _ => by decide⟩ rfl
    (.cons ⟨hsecond, fun h => absurd h (by decide)⟩ rfl (.nil _)),
    tcpUpdateSackList_rcvNxt .., hshown.blocks⟩

end OpenBsd.Netinet
