/-
  OpenBsd.Netinet.IpEspAccept

  What `checkreplaywindow` rejects.  The words of `tdb_seen` are a ring over blocks of
  sequence numbers: every 2132 numbers take 67 blocks, the last one shorter, and so do the
  2128 numbers at the end of a subspace of 2^32.  A word stands for the newest block that
  falls on it.
-/

import OpenBsd.Netinet.IpEsp

namespace OpenBsd.Netinet

open OpenBsd.Lib

variable {n m w : Nat} {tdb : Tdb} {seq seqh : BitVec 32} {esn : Bool} {s : ReplayState}

/-! ## Blocks -/

/-- How many times the ring goes around in a subspace of 2^32 numbers. -/
def ringLaps : Nat := 2014525

/-- The block of a 64-bit number. -/
def seenBlock (n : Nat) : Nat :=
  (n / 2 ^ 32 * ringLaps + n % 2 ^ 32 / tdbReplaymax) * seenSize
    + n % 2 ^ 32 % tdbReplaymax / 32

theorem seenBlock_fullSeq (p : BitVec 32 × BitVec 32) :
    seenBlock (fullSeq p)
      = (p.1.toNat * ringLaps + p.2.toNat / tdbReplaymax) * seenSize + seenIdx p.2 := by
  have hlo := p.2.isLt
  have hdiv : fullSeq p / 2 ^ 32 = p.1.toNat := by
    rw [fullSeq]
    omega
  have hmod : fullSeq p % 2 ^ 32 = p.2.toNat := by
    rw [fullSeq]
    omega
  rw [seenBlock, hdiv, hmod, seenIdx]

theorem seenBlock_mod (p : BitVec 32 × BitVec 32) :
    seenBlock (fullSeq p) % seenSize = seenIdx p.2 := by
  rw [seenBlock_fullSeq, Nat.mul_comm, Nat.mul_add_mod, Nat.mod_eq_of_lt (seenIdx_lt p.2)]

theorem seenBlock_eq {hi q r : Nat} (hn : n = hi * 2 ^ 32 + (q * 2132 + r))
    (hlt : q * 2132 + r < 2 ^ 32) (hr : r < 2132) :
    seenBlock n = (hi * 2014525 + q) * 67 + r / 32 := by
  have hdiv : n / 2 ^ 32 = hi := by omega
  have hmod : n % 2 ^ 32 = q * 2132 + r := by omega
  have hlap : (q * 2132 + r) / 2132 = q := by omega
  have hplace : (q * 2132 + r) % 2132 = r := by omega
  simp only [seenBlock, hdiv, hmod, ringLaps, seenSize, tdbReplaymax, tdbReplaywaste,
    Nat.reduceAdd, Nat.reduceDiv, hlap, hplace]

theorem exists_place (n : Nat) : ∃ hi q r, n = hi * 2 ^ 32 + (q * 2132 + r) ∧
    q * 2132 + r < 2 ^ 32 ∧ r < 2132 := by
  refine ⟨n / 2 ^ 32, n % 2 ^ 32 / 2132, n % 2 ^ 32 % 2132, ?_, ?_, ?_⟩ <;> omega

theorem seenBlock_inj (h : seenBlock n = seenBlock m) (hbit : n % 32 = m % 32) : n = m := by
  obtain ⟨hi, q, r, hn, hlt, hr⟩ := exists_place n
  obtain ⟨hi', q', r', hm, hlt', hr'⟩ := exists_place m
  rw [seenBlock_eq hn hlt hr, seenBlock_eq hm hlt' hr'] at h
  have hlap : hi * 2014525 + q = hi' * 2014525 + q' := by omega
  have hhi : hi = hi' := by omega
  have hq : q = q' := by omega
  subst hhi hq
  omega

theorem seenBlock_mono (h : n ≤ m) : seenBlock n ≤ seenBlock m := by
  obtain ⟨hi, q, r, hn, hlt, hr⟩ := exists_place n
  obtain ⟨hi', q', r', hm, hlt', hr'⟩ := exists_place m
  rw [seenBlock_eq hn hlt hr, seenBlock_eq hm hlt' hr']
  have hhi : hi ≤ hi' := by omega
  have hlap : hi * 2014525 + q ≤ hi' * 2014525 + q' := by
    rcases Nat.lt_or_eq_of_le hhi with hhi | rfl <;> omega
  rcases Nat.lt_or_eq_of_le hlap with hlap | hlap
  · omega
  · have hsame : hi = hi' := by omega
    subst hsame
    omega

/-- Numbers at most 2100 apart are less than a lap apart, unless they stand on both sides
    of a multiple of 2^32. -/
theorem seenBlock_near (hle : n ≤ m) (hnear : m ≤ n + 2100) :
    seenBlock m < seenBlock n + 67 ∨
      (m / 2 ^ 32 = n / 2 ^ 32 + 1 ∧ seenBlock m = seenBlock n + 67 ∧ m % 2 ^ 32 < 2132 ∧
        m % 32 ≤ 3 ∧ 12 ≤ n % 32) := by
  obtain ⟨hi, q, r, hn, hlt, hr⟩ := exists_place n
  obtain ⟨hi', q', r', hm, hlt', hr'⟩ := exists_place m
  rw [seenBlock_eq hn hlt hr, seenBlock_eq hm hlt' hr']
  have hhi : hi' = hi ∨ hi' = hi + 1 := by omega
  rcases hhi with rfl | rfl
  · left
    have hq : q' = q ∨ q' = q + 1 := by omega
    rcases hq with rfl | rfl <;> omega
  · have hq : q = 2014524 := by omega
    have hq' : q' = 0 := by omega
    subst hq hq'
    omega

theorem mod_le_of_seenBlock_eq (h : seenBlock n = seenBlock m) (hle : n ≤ m)
    (hfirst : m % 2 ^ 32 < 2132) : n % 32 ≤ m % 32 := by
  obtain ⟨hi, q, r, hn, hlt, hr⟩ := exists_place n
  obtain ⟨hi', q', r', hm, hlt', hr'⟩ := exists_place m
  rw [seenBlock_eq hn hlt hr, seenBlock_eq hm hlt' hr'] at h
  have hq' : q' = 0 := by omega
  have hhi : hi = hi' := by omega
  have hq : q = 0 := by omega
  subst hq hq' hhi
  omega

/-! ## Clearing and marking -/

variable {fuel i idx : Nat} {seen : Nat → BitVec 32}

theorem clearWords_of_eq_zero (h : seen w = 0) : clearWords fuel seen i idx w = 0 := by
  induction fuel generalizing i seen with
  | zero => exact h
  | succ fuel ih =>
    rw [clearWords]
    split
    · exact h
    · refine ih ?_
      by_cases hw : w = (i + 1) % seenSize
      · rw [hw, Function.update_self]
      · rwa [Function.update_of_ne hw]

theorem clearWords_of_passes (hi : i < seenSize)
    (hidx : idx < seenSize) (hfuel : (idx + seenSize - i) % seenSize ≤ fuel) (hw : Passes i idx w) :
    clearWords fuel seen i idx w = 0 := by
  have hsize : seenSize = 67 := rfl
  induction fuel generalizing i seen with
  | zero =>
    obtain ⟨j, hj, hjle, -⟩ := hw
    omega
  | succ fuel ih =>
    obtain ⟨j, hj, hjle, hwj⟩ := hw
    have hne : i ≠ idx := by
      rintro rfl
      rw [hsize] at hjle
      omega
    have hstep : (idx + seenSize - i) % seenSize =
        (idx + seenSize - (i + 1) % seenSize) % seenSize + 1 := by
      rw [hsize] at hi hidx ⊢
      omega
    rw [clearWords, if_neg hne]
    by_cases hfirst : j = 1
    · refine clearWords_of_eq_zero ?_
      rw [hwj, hfirst, Function.update_self]
    · refine ih (Nat.mod_lt _ (by decide)) (by omega) ⟨j - 1, by omega, by omega, ?_⟩
      rw [hwj, hsize]
      omega

/-- On the way from the block `a` to the block `b` the words of the blocks in between are
    cleared. -/
theorem clearWords_block {a b c : Nat} (hab : a ≤ b) (hb : b < a + seenSize) (hcb : c ≤ b)
    (hbc : b < c + seenSize) (seen : Nat → BitVec 32) :
    clearWords seenSize seen (a % seenSize) (b % seenSize) (c % seenSize)
      = if a < c then 0 else seen (c % seenSize) := by
  have hsize : seenSize = 67 := rfl
  have ha := Nat.mod_lt a (show seenSize > 0 by decide)
  have hb' := Nat.mod_lt b (show seenSize > 0 by decide)
  have hsteps : (b % seenSize + seenSize - a % seenSize) % seenSize = b - a := by
    rw [hsize] at hb ⊢
    omega
  split
  · next hac =>
    refine clearWords_of_passes ha hb' (by omega) ⟨c - a, by omega, by omega, ?_⟩
    rw [hsize]
    omega
  · next hac =>
    refine clearWords_of_not_passes ha hb' ?_
    rintro ⟨j, hj, hjle, hw⟩
    rw [hsize] at hw hbc
    omega

theorem bit_mark {k : Nat} (hk : k < 32) (h : ((tdb.mark seq).seen w).getLsbD (31 - k) = true) :
    (tdb.seen w).getLsbD (31 - k) = true ∨ (w = seenIdx seq ∧ k = seq.toNat % 32) := by
  by_cases hw : w = seenIdx seq
  · subst hw
    simp only [Tdb.mark, Function.update_self, BitVec.getLsbD_or, Bool.or_eq_true] at h
    refine h.imp id fun hbit => ⟨rfl, ?_⟩
    have htwo : packetBit seq = BitVec.twoPow 32 (31 - seq.toNat % 32) := by
      rw [packetBit, BitVec.twoPow]
    rw [htwo, BitVec.getLsbD_twoPow] at hbit
    simp only [Bool.and_eq_true, decide_eq_true_eq] at hbit
    omega
  · left
    simpa only [Tdb.mark, Function.update_of_ne hw] using h

/-! ## Runs -/

/-- When the number and the counter are on both sides of a multiple of 2^32, they do not
    share a word. -/
def ApartInRing (tdb : Tdb) (seq : BitVec 32) : Prop :=
  tdb.esn = true →
    (tdb.tl < seq ∧ tdb.tl - seq < 2100 ∧ tdb.th ≠ 0) ∨
      (seq < tdb.tl ∧ seq - tdb.tl ≤ 2100 ∧ tdb.th + 1 ≠ 0) →
    seenIdx seq ≠ seenIdx tdb.tl

/-- The condition on a call. -/
def KeepsApart (s : ReplayState) (e : BitVec 32 × BitVec 32) : Prop := ApartInRing s.tdb e.1

/-- A set bit of the word of a block, up to a lap behind the counter, is an accepted number
    of that block. -/
structure AcceptInv (esn : Bool) (s : ReplayState) : Prop where
  esn_eq : s.tdb.esn = esn
  pos : 1 ≤ s.tdb.rpl.toNat
  low : s.tdb.esn = false → s.tdb.rpl.toNat < 2 ^ 32
  le : ∀ p ∈ s.accepted, fullSeq p ≤ s.tdb.rpl.toNat
  bits : ∀ c ≤ seenBlock s.tdb.rpl.toNat, seenBlock s.tdb.rpl.toNat < c + seenSize →
    ∀ k < 32, (s.tdb.seen (c % seenSize)).getLsbD (31 - k) = true →
      ∃ p ∈ s.accepted, seenBlock (fullSeq p) = c ∧ p.2.toNat % 32 = k

theorem seenBlock_rpl (tdb : Tdb) : seenBlock tdb.rpl.toNat % seenSize = seenIdx tdb.tl := by
  rw [rpl_toNat]
  exact seenBlock_mod (tdb.th, tdb.tl)

theorem marks_within_lap (hapart : ApartInRing tdb seq)
    (hlow : tdb.esn = false → tdb.rpl.toNat < 2 ^ 32) (hle : fullSeq (seqh, seq) ≤ tdb.rpl.toNat)
    (hnear : tdb.rpl.toNat - fullSeq (seqh, seq) < 2100) :
    seenBlock tdb.rpl.toNat < seenBlock (fullSeq (seqh, seq)) + seenSize := by
  refine (seenBlock_near hle (by omega)).resolve_right ?_
  rintro ⟨hside, hlap, -⟩
  have hr := rpl_toNat tdb
  have htl := tdb.tl.isLt
  have hseq := seq.isLt
  have hidx : seenIdx seq = seenIdx tdb.tl := by
    have hmod := seenBlock_mod (seqh, seq)
    rw [← hmod, ← seenBlock_rpl, hlap]
    exact (Nat.add_mod_right _ 67).symm
  simp only [fullSeq] at hr hside hle hnear
  have hth : tdb.th.toNat = seqh.toNat + 1 := by omega
  have hesn : tdb.esn = true := by
    by_contra hoff
    have hsmall := hlow (by simpa using hoff)
    omega
  refine hapart hesn (.inl ⟨?_, ?_, ?_⟩) hidx
  · rw [BitVec.lt_def]
    omega
  · rw [BitVec.lt_def, BitVec.toNat_sub]
    show _ < 2100
    omega
  · intro hzero
    rw [hzero] at hth
    exact absurd hth.symm (Nat.succ_ne_zero _)

theorem slides_within_lap (hapart : ApartInRing tdb seq) (hesn : seqh = tdb.th ∨ tdb.esn = true)
    (hnew : tdb.rpl.toNat < fullSeq (seqh, seq))
    (hnear : fullSeq (seqh, seq) - tdb.rpl.toNat ≤ 2100) :
    seenBlock (fullSeq (seqh, seq)) < seenBlock tdb.rpl.toNat + seenSize := by
  refine (seenBlock_near hnew.le (by omega)).resolve_right ?_
  rintro ⟨hside, hlap, -⟩
  have hr := rpl_toNat tdb
  have htl := tdb.tl.isLt
  have hseq := seq.isLt
  have hseqh := seqh.isLt
  have hidx : seenIdx seq = seenIdx tdb.tl := by
    have hmod := seenBlock_mod (seqh, seq)
    rw [← hmod, ← seenBlock_rpl, hlap]
    exact Nat.add_mod_right _ 67
  simp only [fullSeq] at hr hside hnew hnear
  have hth : seqh.toNat = tdb.th.toNat + 1 := by omega
  have hon : tdb.esn = true := by
    refine hesn.resolve_left ?_
    rintro rfl
    exact absurd hth (Nat.ne_of_lt (Nat.lt_succ_self _))
  refine hapart hon (.inr ⟨?_, ?_, ?_⟩) hidx
  · rw [BitVec.lt_def]
    omega
  · rw [BitVec.le_def, BitVec.toNat_sub]
    show _ ≤ 2100
    omega
  · intro hzero
    have htop := congrArg BitVec.toNat hzero
    rw [BitVec.toNat_add] at htop
    have hone : (1 : BitVec 32).toNat = 1 := rfl
    have hnil : (0 : BitVec 32).toNat = 0 := rfl
    omega

theorem block_unique {b c c' : Nat} (hc : c ≤ b) (hbc : b < c + seenSize) (hc' : c' ≤ b)
    (hbc' : b < c' + seenSize) (h : c % seenSize = c' % seenSize) : c = c' := by
  have hsize : seenSize = 67 := rfl
  rw [hsize] at hbc hbc' h
  omega

theorem AcceptInv.marks (h : AcceptInv esn s) (hapart : ApartInRing s.tdb seq)
    (hle : fullSeq (seqh, seq) ≤ s.tdb.rpl.toNat)
    (hnear : s.tdb.rpl.toNat - fullSeq (seqh, seq) < 2100) :
    AcceptInv esn ⟨s.tdb.mark seq, (seqh, seq) :: s.accepted⟩ where
  esn_eq := h.esn_eq
  pos := h.pos
  low := h.low
  le := by
    intro p hp
    rcases List.mem_cons.1 hp with rfl | hp
    · exact hle
    · exact h.le p hp
  bits := by
    intro c hc hlap k hk hbit
    rcases bit_mark hk hbit with hold | ⟨hw, rfl⟩
    · obtain ⟨p, hp, hblock, hpk⟩ := h.bits c hc hlap k hk hold
      exact ⟨p, List.mem_cons_of_mem _ hp, hblock, hpk⟩
    · refine ⟨(seqh, seq), List.mem_cons_self, ?_, rfl⟩
      have hwithin := marks_within_lap hapart h.low hle hnear
      exact block_unique (seenBlock_mono hle) hwithin hc hlap ((seenBlock_mod _).trans hw.symm)

theorem AcceptInv.slides {esn : Bool} {s : ReplayState} {seqh seq : BitVec 32}
    (h : AcceptInv esn s) (hapart : ApartInRing s.tdb seq)
    (hnew : s.tdb.rpl.toNat < fullSeq (seqh, seq)) (hesn : seqh = s.tdb.th ∨ s.tdb.esn = true)
    (hdiff : fullSeq (seqh, seq) - s.tdb.rpl.toNat = (seq - s.tdb.tl).toNat) :
    AcceptInv esn ⟨s.tdb.slide s.tdb.window seq seqh, (seqh, seq) :: s.accepted⟩ := by
  have hrpl : (s.tdb.slide s.tdb.window seq seqh).rpl.toNat = fullSeq (seqh, seq) :=
    append_toNat seqh seq
  refine ⟨h.esn_eq, ?_, ?_, ?_, ?_⟩
  · rw [hrpl]
    exact h.pos.trans hnew.le
  · intro hoff
    have hoff' : s.tdb.esn = false := hoff
    have hlow := h.low hoff'
    have hr := rpl_toNat s.tdb
    have hseq := seq.isLt
    obtain rfl : seqh = s.tdb.th := hesn.resolve_right fun hon => by
      rw [hoff'] at hon
      cases hon
    rw [hrpl]
    simp only [fullSeq] at hr ⊢
    omega
  · intro p hp
    rw [hrpl]
    rcases List.mem_cons.1 hp with rfl | hp
    · exact Nat.le_refl _
    · exact (h.le p hp).trans hnew.le
  · intro c hc hlap k hk hbit
    rw [hrpl] at hc hlap
    rcases bit_mark hk hbit with hold | ⟨hw, rfl⟩
    · -- a bit that the move has left
      dsimp only at hold
      split at hold
      · simp at hold
      · next hkeep =>
        have hw := window_toNat s.tdb
        have hjump : fullSeq (seqh, seq) - s.tdb.rpl.toNat ≤ 2100 := by
          rw [BitVec.lt_def] at hkeep
          split at hw <;> omega
        have hwithin := slides_within_lap hapart hesn hnew hjump
        have hword := clearWords_block (seenBlock_mono hnew.le) hwithin hc hlap s.tdb.seen
        rw [seenBlock_rpl, seenBlock_mod] at hword
        rw [hword] at hold
        split at hold
        · simp at hold
        · next hca =>
          have hlap' : seenBlock s.tdb.rpl.toNat < c + seenSize :=
            Nat.lt_of_le_of_lt (seenBlock_mono hnew.le) hlap
          obtain ⟨p, hp, hblock, hpk⟩ := h.bits c (Nat.le_of_not_lt hca) hlap' k hk hold
          exact ⟨p, List.mem_cons_of_mem _ hp, hblock, hpk⟩
    · refine ⟨(seqh, seq), List.mem_cons_self, ?_, rfl⟩
      have hself : seenBlock (fullSeq (seqh, seq)) < seenBlock (fullSeq (seqh, seq)) + seenSize :=
        Nat.lt_add_of_pos_right (show 0 < seenSize by decide)
      exact block_unique (Nat.le_refl _) hself hc hlap ((seenBlock_mod _).trans hw.symm)

theorem replayStep_acceptInv {s' : ReplayState} {e : BitVec 32 × BitVec 32} (h : AcceptInv esn s)
    (hapart : KeepsApart s e) (hs : replayStep s e = some s') : AcceptInv esn s' := by
  have hcases := checkreplaywindow_cases s.tdb e.1 e.2 h.pos
  simp only [replayStep, Option.some.injEq] at hs
  subst hs
  generalize checkreplaywindow s.tdb e.1 e.2 true = r at hcases ⊢
  cases hcases with
  | rejected hret =>
    simp only [if_neg hret]
    exact h
  | marks _ hle hnear _ => exact h.marks hapart hle hnear
  | slides hnew hesn hdiff _ => exact h.slides hapart hnew hesn hdiff

theorem AcceptInv.accepted_of_marked (h : AcceptInv esn s) {p : BitVec 32 × BitVec 32}
    (hle : fullSeq p ≤ s.tdb.rpl.toNat) (hnear : s.tdb.rpl.toNat < fullSeq p + 2100)
    (hm : s.tdb.marked p.2 = true) : p ∈ s.accepted := by
  have hmod : p.2.toNat % 32 < 32 := Nat.mod_lt _ (by decide)
  have hbit := (marked_iff s.tdb p.2).1 hm
  rw [← seenBlock_mod p] at hbit
  rcases seenBlock_near hle (by omega) with hlap | ⟨-, hlap, hfirst, hcounter, hbits⟩
  · obtain ⟨q, hq, hblock, hk⟩ := h.bits _ (seenBlock_mono hle) hlap _ hmod hbit
    have hqp : fullSeq q = fullSeq p := by
      refine seenBlock_inj hblock ?_
      simp only [fullSeq]
      omega
    rwa [← fullSeq_injective hqp]
  · -- the word stands for the block of the counter, whose accepted numbers have other bits
    exfalso
    have hsame : seenBlock (fullSeq p) % seenSize = seenBlock s.tdb.rpl.toNat % seenSize := by
      rw [hlap]
      exact (Nat.add_mod_right _ 67).symm
    rw [hsame] at hbit
    have hself : seenBlock s.tdb.rpl.toNat < seenBlock s.tdb.rpl.toNat + seenSize :=
      Nat.lt_add_of_pos_right (show 0 < seenSize by decide)
    obtain ⟨q, hq, hblock, hk⟩ := h.bits _ (Nat.le_refl _) hself _ hmod hbit
    have hqk : fullSeq q % 32 = p.2.toNat % 32 := by
      rw [← hk, fullSeq]
      omega
    have hpk : fullSeq p % 32 = p.2.toNat % 32 := by
      rw [fullSeq]
      omega
    have hle' := mod_le_of_seenBlock_eq hblock (h.le q hq) hfirst
    omega

/-! ## What is accepted -/

theorem checkreplaywindow_commit (tdb : Tdb) (seq seqh : BitVec 32) (commit : Bool) :
    (checkreplaywindow tdb seq seqh commit).ret = (checkreplaywindow tdb seq seqh true).ret ∧
      (checkreplaywindow tdb seq seqh commit).seqh
        = (checkreplaywindow tdb seq seqh true).seqh := by
  simp only [checkreplaywindow]
  split_ifs <;> exact ⟨rfl, rfl⟩

/-- A number from the lower end of the window up to 2^31 above the counter that is not
    marked is accepted with its high half. -/
theorem checkreplaywindow_accepts {p : BitVec 32 × BitVec 32} (hpos : 1 ≤ tdb.rpl.toNat)
    (hlow : tdb.esn = false → tdb.rpl.toNat < 2 ^ 32) (hone : 1 ≤ fullSeq p)
    (hhalf : tdb.esn = false → p.1 = 0) (hnear : tdb.rpl.toNat < fullSeq p + 2100)
    (hfar : fullSeq p ≤ tdb.rpl.toNat + 2 ^ 31)
    (hm : fullSeq p ≤ tdb.rpl.toNat → tdb.marked p.2 = false) (seqh : BitVec 32) (commit : Bool) :
    (checkreplaywindow tdb p.2 seqh commit).ret = 0 ∧
      (tdb.esn = true → (checkreplaywindow tdb p.2 seqh commit).seqh = p.1) := by
  rw [(checkreplaywindow_commit ..).1, (checkreplaywindow_commit ..).2]
  obtain ⟨hi, seq⟩ := p
  have hr := rpl_toNat tdb
  have hw := window_toNat tdb
  have htl := tdb.tl.isLt
  have hth := tdb.th.isLt
  have hseq := seq.isLt
  have hhi := hi.isLt
  have hconst : (1 : BitVec 32).toNat = 1 := rfl
  have hoff : tdb.esn = false → hi.toNat = 0 := fun h => congrArg BitVec.toNat (hhalf h)
  simp only [fullSeq] at hr hone hnear hfar hm
  have hsame : tdb.th.toNat = hi.toNat → tdb.th = hi := BitVec.eq_of_toNat_eq
  simp only [checkreplaywindow, BitVec.lt_def, BitVec.le_def, BitVec.toNat_sub, BitVec.toNat_add,
    hconst, if_true]
  generalize hW : tdb.window.toNat = W at hw ⊢
  split_ifs with hzero hin hnew hold hmark hesn hprev hmark' htop
  · exfalso
    rcases hzero with ⟨hon, rfl, hle, hnil⟩ | ⟨hne, rfl⟩
    · have hnil' : tdb.th.toNat = 0 := congrArg BitVec.toNat hnil
      have hs : (0 : BitVec 32).toNat = 0 := rfl
      omega
    · have hs : (0 : BitVec 32).toNat = 0 := rfl
      have := hoff hne
      omega
  · refine ⟨rfl, fun _ => hsame ?_⟩
    split at hw <;> omega
  · exfalso
    split at hw <;> omega
  · exfalso
    have hth' : tdb.th.toNat = hi.toNat := by split at hw <;> omega
    rw [hm (by omega)] at hmark
    cases hmark
  · refine ⟨rfl, fun _ => hsame ?_⟩
    split at hw <;> omega
  · exfalso
    have := hoff hesn
    have := hlow hesn
    split at hw <;> omega
  · exfalso
    rw [hm (by split at hw <;> omega)] at hmark'
    cases hmark'
  · refine ⟨rfl, fun _ => BitVec.eq_of_toNat_eq ?_⟩
    show (tdb.th - 1).toNat = hi.toNat
    rw [BitVec.toNat_sub, hconst]
    split at hw <;> omega
  · exfalso
    have hmax : (tdb.th + 1).toNat = 0 := congrArg BitVec.toNat htop
    rw [BitVec.toNat_add, hconst] at hmax
    split at hw <;> omega
  · refine ⟨rfl, fun _ => BitVec.eq_of_toNat_eq ?_⟩
    show (tdb.th + 1).toNat = hi.toNat
    rw [BitVec.toNat_add, hconst]
    split at hw <;> omega

/-- In every run whose calls keep numbers on both sides of a multiple of 2^32 in words of
    their own, a number that has not been accepted, from the lower end of the window up to
    2^31 above the counter, is accepted with its high half. -/
theorem replay_accepts_run {esn : Bool} {es : List (BitVec 32 × BitVec 32)} {s : ReplayState}
    (hrun : Run replayStep KeepsApart (replayInit esn) es s) :
    ∀ p : BitVec 32 × BitVec 32, 1 ≤ fullSeq p → (esn = false → p.1 = 0) → p ∉ s.accepted →
      s.tdb.rpl.toNat < fullSeq p + 2100 → fullSeq p ≤ s.tdb.rpl.toNat + 2 ^ 31 →
      ∀ seqh commit, (checkreplaywindow s.tdb p.2 seqh commit).ret = 0 ∧
        (esn = true → (checkreplaywindow s.tdb p.2 seqh commit).seqh = p.1) := by
  have hinit : AcceptInv esn (replayInit esn) := by
    refine ⟨rfl, show 1 ≤ (1 : BitVec 64).toNat by decide,
      fun _ => show (1 : BitVec 64).toNat < 2 ^ 32 by decide, by simp [replayInit], ?_⟩
    intro c _ _ k _ hbit
    simp [replayInit, freshTdb] at hbit
  have hinv := hrun.invariant (fun _ _ _ h hk hs => replayStep_acceptInv h hk hs) hinit
  intro p hone hhalf hnew hnear hfar seqh commit
  rw [← hinv.esn_eq] at hhalf ⊢
  refine checkreplaywindow_accepts hinv.pos hinv.low hone hhalf hnear hfar (fun hle => ?_)
    seqh commit
  by_contra hm
  exact hnew (hinv.accepted_of_marked hle hnear (by simpa using hm))

/-- With 64-bit numbers, 5 after 7. -/
theorem replay_accepts_run_late : ∃ s, Run replayStep KeepsApart (replayInit true) [(7, 0)] s ∧
    (checkreplaywindow s.tdb 5 0 true).ret = 0 ∧
      (checkreplaywindow s.tdb 5 0 true).seqh = 0 := by
  have hrun : Run replayStep KeepsApart (replayInit true) [(7, 0)] _ :=
    .cons (by simp only [KeepsApart, ApartInRing]; decide) rfl (.nil _)
  have haccept := replay_accepts_run hrun (0, 5) (by decide) (by decide) (by decide) (by decide)
    (by decide) 0 true
  exact ⟨_, hrun, haccept.1, haccept.2 rfl⟩

/-- The counter has gone from 2^32 - 16 to 2^32, 2^32 - 2099 comes late and shares the word
    and the bit of 2^32 + 13, and the counter goes on to 2^32 + 20: now 2^32 + 13 is taken
    for a number received twice. -/
theorem replay_rejects_new : ∃ s, Run replayStep (fun _ _ => True) (replayInit true)
    [(0xfffffff0, 0), (0, 0), (0xfffff7cd, 0), (20, 0)] s ∧
    s.accepted = [(1, 20), (0, 0xfffff7cd), (1, 0), (0, 0xfffffff0)] ∧
    s.tdb.rpl = 0x100000014 ∧ (checkreplaywindow s.tdb 13 0 true).ret = 3 := by
  have hrun : Run replayStep (fun _ _ => True) (replayInit true)
      [(0xfffffff0, 0), (0, 0), (0xfffff7cd, 0), (20, 0)] _ :=
    .cons trivial rfl (.cons trivial rfl (.cons trivial rfl (.cons trivial rfl (.nil _))))
  exact ⟨_, hrun, by decide, by decide, by decide⟩

end OpenBsd.Netinet
