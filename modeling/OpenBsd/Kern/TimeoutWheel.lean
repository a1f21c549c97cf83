/-
  OpenBsd.Kern.TimeoutWheel

  No timeout is overslept in the wheel of `kern/kern_timeout.c`.

  An entry of the wheel is moved to the worklist at certain values of the clock
  (`Drains`).  A timeout waits in an entry only if the entry is moved at its time
  or before (`WaitsIn`); every call keeps this, also for a timeout that was put
  off and stays where it is.
-/

import OpenBsd.Kern.Timeout
import Mathlib.Algebra.Order.BigOperators.Group.List

namespace OpenBsd.Kern

open OpenBsd.Lib List Function

variable {ticks time : BitVec 32} {b : Fin 1024}

/-! ## When an entry is moved -/

theorem wheelmask_bit (i : Fin 32) (h : ¬ i.val < 8) : wheelmask[i.val] = false := by
  revert h
  revert i
  decide

theorem maskwheel_eq (wheel : Fin 4) (time : BitVec 32) :
    maskwheel wheel time = time.toNat / 2 ^ (8 * wheel.val) % 256 := by
  have hbits : time.sshiftRight (wheel * wheelbits) &&& wheelmask =
      (time >>> (wheel * wheelbits)) &&& wheelmask := by
    ext i hi
    rw [BitVec.getElem_and, BitVec.getElem_and]
    by_cases hsmall : i < 8
    · have hin : wheel.val * wheelbits + i < 32 := by
        have := wheel.isLt
        simp only [wheelbits]
        omega
      simp [BitVec.getElem_sshiftRight, hin]
    · simp [wheelmask_bit ⟨i, hi⟩ hsmall]
  rw [maskwheel, hbits, BitVec.toNat_and, BitVec.toNat_ushiftRight, Nat.shiftRight_eq_div_pow]
  have hmask : wheelmask.toNat = 2 ^ 8 - 1 := by decide
  rw [hmask, Nat.and_two_pow_sub_one_eq_mod, Nat.mul_comm]
  rfl

/-- `MOVEBUCKET` moves the entry when the clock shows `time`. -/
def Drains (b : Fin 1024) (time : BitVec 32) : Prop :=
  ∃ wheel : Fin 4, b = wheelIndex wheel time ∧ ∀ v < wheel, maskwheel v time = 0

/-- A time later than the clock, and the entry is moved before or at it. -/
def WaitsIn (b : Fin 1024) (ticks time : BitVec 32) : Prop :=
  ∃ d : Nat, 0 < d ∧ (d : Int) ≤ (time - ticks).toInt ∧ Drains b (ticks + BitVec.ofNat 32 d)

theorem drains_wheelIndex (wheel : Fin 4) (time : BitVec 32) {now : BitVec 32}
    (hnow : now.toNat = time.toNat - time.toNat % 2 ^ (8 * wheel.val)) :
    Drains (wheelIndex wheel time) now := by
  have hmul : now.toNat = 2 ^ (8 * wheel.val) * (time.toNat / 2 ^ (8 * wheel.val)) := by
    have hdiv := Nat.div_add_mod time.toNat (2 ^ (8 * wheel.val))
    omega
  refine ⟨wheel, ?_, ?_⟩
  · apply Fin.ext
    simp only [wheelIndex, maskwheel_eq, hmul, Nat.mul_div_cancel_left _ (Nat.two_pow_pos _)]
  · intro v hv
    -- the unit is a multiple of 256 units of the lower level
    have hunit : 2 ^ (8 * wheel.val) = 2 ^ (8 * v.val) * (256 * 2 ^ (8 * (wheel.val - v.val - 1))) := by
      have h256 : 256 = 2 ^ 8 := rfl
      have hexp : 8 * wheel.val = 8 * v.val + (8 + 8 * (wheel.val - v.val - 1)) := by
        have := Fin.lt_def.1 hv
        omega
      rw [h256, ← Nat.pow_add, ← Nat.pow_add, ← hexp]
    rw [maskwheel_eq, hmul, hunit, Nat.mul_assoc, Nat.mul_div_cancel_left _ (Nat.two_pow_pos _),
      Nat.mul_assoc, Nat.mul_mod_right]

theorem waitsIn_wheelIndex {wheel : Fin 4} (h : 2 ^ (8 * wheel.val) ≤ (time - ticks).toInt) :
    WaitsIn (wheelIndex wheel time) ticks time := by
  have hunit : 0 < 2 ^ (8 * wheel.val) := Nat.two_pow_pos _
  have hmod := Nat.mod_lt time.toNat hunit
  have hcast : ((2 ^ (8 * wheel.val) : Nat) : Int) = 2 ^ (8 * wheel.val) := by simp
  have hle := Nat.mod_le time.toNat (2 ^ (8 * wheel.val))
  have hrel : (time - ticks).toInt = (time - ticks).toNat := by
    have hpos : 0 ≤ (time - ticks).toInt := by omega
    rw [BitVec.toInt_eq_toNat_cond] at hpos ⊢
    have := (time - ticks).isLt
    split at hpos <;> split <;> omega
  refine ⟨(time - ticks).toNat - time.toNat % 2 ^ (8 * wheel.val), by omega, by omega,
    drains_wheelIndex wheel time ?_⟩
  have hsub : (time - ticks).toNat = (2 ^ 32 - ticks.toNat + time.toNat) % 2 ^ 32 :=
    BitVec.toNat_sub time ticks
  have ht := time.isLt
  have hk := ticks.isLt
  rw [BitVec.toNat_add, BitVec.toNat_ofNat]
  omega

theorem waitsIn_bucket (h : 0 < (time - ticks).toInt) :
    WaitsIn (bucket (time - ticks) time) ticks time := by
  have hcut : (1 <<< wheelbits : Int) = 2 ^ 8 ∧ (1 <<< (2 * wheelbits) : Int) = 2 ^ 16 ∧
      (1 <<< (3 * wheelbits) : Int) = 2 ^ 24 := by decide
  rw [bucket, hcut.1, hcut.2.1, hcut.2.2]
  split
  · split
    · exact waitsIn_wheelIndex (show (2 ^ 0 : Int) ≤ _ by omega)
    · exact waitsIn_wheelIndex (show (2 ^ 8 : Int) ≤ _ by omega)
  · split
    · exact waitsIn_wheelIndex (show (2 ^ 16 : Int) ≤ _ by omega)
    · exact waitsIn_wheelIndex (show (2 ^ 24 : Int) ≤ _ by omega)
theorem WaitsIn.tick (h : WaitsIn b ticks time) (hstay : ¬ Drains b (ticks + 1)) :
    WaitsIn b (ticks + 1) time := by
  obtain ⟨d, hpos, hle, hdrains⟩ := h
  have hne : d ≠ 1 := by
    rintro rfl
    exact hstay hdrains
  have hrel : (time - (ticks + 1)).toInt = (time - ticks).toInt - 1 := by
    have hassoc : time - (ticks + 1) = time - ticks - 1 := by bv_omega
    have hone : (1 : BitVec 32).toNat = 1 := rfl
    have hlt := (time - ticks).isLt
    rw [hassoc]
    rw [BitVec.toInt_eq_toNat_cond] at hle
    rw [BitVec.toInt_eq_toNat_cond, BitVec.toInt_eq_toNat_cond, BitVec.toNat_sub, hone]
    split at hle <;> split <;> omega
  refine ⟨d - 1, by omega, by omega, ?_⟩
  have hd : ticks + 1 + BitVec.ofNat 32 (d - 1) = ticks + BitVec.ofNat 32 d := by
    have hsucc : BitVec.ofNat 32 d = 1 + BitVec.ofNat 32 (d - 1) := by
      have hadd : d = 1 + (d - 1) := by omega
      rw [show (1 : BitVec 32) = BitVec.ofNat 32 1 from rfl, ← BitVec.ofNat_add, ← hadd]
    rw [hsucc, BitVec.add_assoc]
  rw [hd]
  exact hdrains

theorem WaitsIn.later {time' : BitVec 32} (h : WaitsIn b ticks time)
    (hle : (time - ticks).toInt ≤ (time' - ticks).toInt) : WaitsIn b ticks time' := by
  obtain ⟨d, hpos, hd, hdrains⟩ := h
  exact ⟨d, hpos, hd.trans hle, hdrains⟩

theorem WaitsIn.pos (h : WaitsIn b ticks time) : 0 < (time - ticks).toInt := by
  obtain ⟨d, hpos, hd, -⟩ := h
  omega

/-! ## The invariant -/

section

variable {τ : Type} {s s' : TimeoutState τ} {L : Circq → List τ}

/-- The pointers hold the queues `L`, and the timeouts flagged as queued are those
    in one of them. -/
structure Queued (s : TimeoutState τ) (L : Circq → List τ) : Prop where
  queues : Queues s.links L
  onqueue : ∀ t, (s.timeouts t).onqueue = true ↔ ∃ q, t ∈ L q

/-- Also, the timeouts in the wheel wait for a time to come. -/
structure Wheel (s : TimeoutState τ) (L : Circq → List τ) : Prop extends Queued s L where
  waits : ∀ b t, t ∈ L (.wheel b) → WaitsIn b s.ticks (s.timeouts t).toTime

theorem Queued.not_mem (h : Queued s L) {t : τ} (ht : (s.timeouts t).onqueue = false) (q : Circq) :
    t ∉ L q := by
  intro hm
  have hon := (h.onqueue t).2 ⟨q, hm⟩
  rw [ht] at hon
  cases hon

variable [DecidableEq τ]

/-! ## The calls -/

theorem init_self {ν : Type} [DecidableEq ν] (g : Links ν) (x y : ν)
    (h : x = y ∨ g.next x = x ∧ g.prev x = x) :
    (g.init y).next x = x ∧ (g.init y).prev x = x := by
  by_cases hxy : x = y
  · simp [Links.init, hxy]
  · obtain hx | ⟨hn, hp⟩ := h
    · exact absurd hx hxy
    · simp [Links.init, hxy, hn, hp]

theorem startup_self (bs : List (Fin 1024)) (g : Links (Node Circq τ)) (x : Node Circq τ)
    (h : g.next x = x ∧ g.prev x = x ∨ ∃ b ∈ bs, x = .head (.wheel b)) :
    (bs.foldl (fun g b => g.init (.head (.wheel b))) g).next x = x ∧
      (bs.foldl (fun g b => g.init (.head (.wheel b))) g).prev x = x := by
  induction bs generalizing g with
  | nil =>
    rcases h with h | ⟨b, hb, -⟩
    · exact h
    · exact absurd hb not_mem_nil
  | cons b bs ih =>
    rw [foldl_cons]
    apply ih
    rcases h with h | ⟨b', hb', hx⟩
    · exact .inl (init_self g x _ (.inr h))
    · rcases mem_cons.1 hb' with rfl | hb'
      · exact .inl (init_self g x _ (.inl hx))
      · exact .inr ⟨b', hb', hx⟩

theorem timeoutStartup_wheel (h : ∀ t, (s.timeouts t).onqueue = false) :
    Wheel (timeoutStartup s) (fun _ => []) := by
  refine ⟨⟨Queues.init ?_, ?_⟩, ?_⟩
  · have hall : ∀ b : Fin 1024, b ∈ List.finRange 1024 := mem_finRange
    rw [timeoutStartup]
    generalize List.finRange 1024 = bs at hall ⊢
    intro q
    apply startup_self
    cases q with
    | todo => exact .inl (init_self _ _ _ (.inl rfl))
    | wheel b => exact .inr ⟨b, hall b, rfl⟩
  · intro t
    simp [timeoutStartup, h t]
  · intro b t ht
    exact absurd ht not_mem_nil

theorem setTimeout_timeouts (s : TimeoutState τ) (t u : τ) (e : Timeout) :
    (s.setTimeout t e).timeouts u = if u = t then e else s.timeouts u := by
  simp only [TimeoutState.setTimeout, update_apply]

theorem Queued.remove (h : Queued s L) {t : τ} (ht : (s.timeouts t).onqueue = true) :
    ∃ L', Queues (s.circqRemove t).links L' ∧ (∀ p u, u ∈ L' p → u ∈ L p ∧ u ≠ t) ∧
      ∀ u, (s.timeouts u).onqueue = true ↔ u = t ∨ ∃ p, u ∈ L' p := by
  obtain ⟨q, hq⟩ := (h.onqueue t).1 ht
  obtain ⟨L', hq', hmem⟩ := h.queues.remove_mem hq
  refine ⟨L', hq', fun p u hu => (hmem p u).1 hu, ?_⟩
  intro u
  by_cases hut : u = t
  · simp [hut, ht]
  · rw [h.onqueue u]
    simp [hut, hmem]

theorem Wheel.put {t : τ} {q : Circq} (hq : Queues s.links L) (hfresh : ∀ p, t ∉ L p)
    (hon : ∀ u, (s.timeouts u).onqueue = true ↔ u = t ∨ ∃ p, u ∈ L p)
    (hwaits : ∀ b u, u ∈ L (.wheel b) → WaitsIn b s.ticks (s.timeouts u).toTime)
    (ht : ∀ b, q = .wheel b → WaitsIn b s.ticks (s.timeouts t).toTime) :
    ∃ L', Wheel (s.circqInsert t q) L' := by
  obtain ⟨L', hq', hmem⟩ := hq.insert_mem hfresh q
  refine ⟨L', ⟨hq', ?_⟩, ?_⟩
  · intro u
    refine (hon u).trans ?_
    constructor
    · rintro (rfl | ⟨p, hp⟩)
      · exact ⟨q, (hmem q u).2 (.inr ⟨rfl, rfl⟩)⟩
      · exact ⟨p, (hmem p u).2 (.inl hp)⟩
    · rintro ⟨p, hp⟩
      rcases (hmem p u).1 hp with hp | ⟨-, rfl⟩
      · exact .inr ⟨p, hp⟩
      · exact .inl rfl
  · intro b u hu
    rcases (hmem _ u).1 hu with hu | ⟨hb, rfl⟩
    · exact hwaits b u hu
    · exact ht b hb.symm

theorem timeoutAdd_wheel (h : Wheel s L) {new : τ} {toTicks : BitVec 32} {ret : Bool}
    (hadd : timeoutAdd s new toTicks = some (ret, s')) : ∃ L', Wheel s' L' := by
  simp only [timeoutAdd] at hadd
  split at hadd
  · cases hadd
  split at hadd
  · cases hadd
  split at hadd
  · rename_i hon
    split at hadd
    · -- moved to an earlier time
      obtain ⟨-, rfl⟩ := Prod.mk.inj (Option.some.inj hadd)
      obtain ⟨L', hq, hmem, hon'⟩ := h.toQueued.remove hon
      refine Wheel.put (L := L') hq ?_ ?_ ?_ ?_
      · intro p hp
        exact (hmem p new hp).2 rfl
      · intro u
        rw [← hon' u]
        by_cases hu : u = new
        · subst hu
          simp [TimeoutState.circqRemove, TimeoutState.setTimeout, hon]
        · simp [TimeoutState.circqRemove, TimeoutState.setTimeout, hu]
      · intro b u hu
        obtain ⟨hu, hne⟩ := hmem _ u hu
        have hw := h.waits b u hu
        simpa [TimeoutState.circqRemove, TimeoutState.setTimeout, hne] using hw
      · intro b hb
        cases hb
    · -- put off: it stays where it is
      rename_i hlater
      obtain ⟨-, rfl⟩ := Prod.mk.inj (Option.some.inj hadd)
      refine ⟨L, ⟨h.queues, ?_⟩, ?_⟩
      · intro u
        rw [← h.onqueue u, setTimeout_timeouts]
        split
        · rename_i hu
          rw [hu]
        · rfl
      · intro b u hu
        have hw := h.waits b u hu
        rw [setTimeout_timeouts]
        split
        · rename_i hu
          rw [hu] at hw
          exact hw.later (Int.not_lt.1 hlater)
        · exact hw
  · rename_i hoff
    obtain ⟨-, rfl⟩ := Prod.mk.inj (Option.some.inj hadd)
    have hfresh := h.not_mem (Bool.eq_false_iff.2 hoff)
    refine Wheel.put (L := L) h.queues hfresh ?_ ?_ ?_
    · intro u
      rw [← h.onqueue u, setTimeout_timeouts]
      split
      · rename_i hu
        simp [hu]
      · rename_i hu
        simp [hu]
    · intro b u hu
      have hne : u ≠ new := by
        rintro rfl
        exact hfresh _ hu
      have hw := h.waits b u hu
      rw [setTimeout_timeouts, if_neg hne]
      exact hw
    · intro b hb
      cases hb

theorem Wheel.take (h : Wheel s L) {t : τ} (ht : (s.timeouts t).onqueue = true) {e : Timeout}
    (he : e.onqueue = false) : ∃ L', Wheel ((s.circqRemove t).setTimeout t e) L' := by
  obtain ⟨L', hq, hmem, hon⟩ := h.toQueued.remove ht
  refine ⟨L', ⟨hq, ?_⟩, ?_⟩
  · intro u
    rw [setTimeout_timeouts]
    split
    · rename_i hu
      subst hu
      constructor
      · intro hon
        rw [he] at hon
        cases hon
      · rintro ⟨p, hp⟩
        exact absurd rfl (hmem p u hp).2
    · rename_i hu
      refine (hon u).trans ?_
      simp [hu]
  · intro b u hu
    obtain ⟨hu, hne⟩ := hmem _ u hu
    rw [setTimeout_timeouts, if_neg hne]
    exact h.waits b u hu

theorem timeoutDel_wheel (h : Wheel s L) (t : τ) : ∃ L', Wheel (timeoutDel s t).2 L' := by
  simp only [timeoutDel]
  split
  · rename_i hon
    exact h.take hon rfl
  · refine ⟨L, ⟨h.queues, ?_⟩, ?_⟩
    · intro u
      rw [← h.onqueue u, setTimeout_timeouts]
      split
      · rename_i hu
        rw [hu]
      · rfl
    · intro b u hu
      rw [setTimeout_timeouts]
      split
      · rename_i hut
        rw [← hut]
        exact h.waits b u hu
      · exact h.waits b u hu

theorem timeoutSet_wheel (h : Wheel s L) {t : τ} (ht : (s.timeouts t).onqueue = false)
    (fn arg : Nat) : Wheel (timeoutSet s t fn arg) L := by
  refine ⟨⟨h.queues, ?_⟩, ?_⟩
  · intro u
    rw [← h.onqueue u, timeoutSet, setTimeout_timeouts]
    split
    · rename_i hu
      rw [hu, ht]
    · rfl
  · intro b u hu
    have hne : u ≠ t := by
      rintro rfl
      exact h.not_mem ht _ hu
    rw [timeoutSet, setTimeout_timeouts, if_neg hne]
    exact h.waits b u hu

/-! ## The clock -/

/-- What the first `k` calls of `MOVEBUCKET` have done to the queues. -/
structure Moved (time : BitVec 32) (k : Nat) (L L' : Circq → List τ) : Prop where
  mem : ∀ t, (∃ q, t ∈ L' q) ↔ ∃ q, t ∈ L q
  stay : ∀ b t, t ∈ L' (.wheel b) →
    t ∈ L (.wheel b) ∧ ∀ wheel : Fin 4, wheel.val < k → b ≠ wheelIndex wheel time

variable {L' : Circq → List τ}

theorem movebucket_moved {w : Fin 4} (hq : Queues s.links L')
    (h : Moved time w L L') :
    ∃ L'', Queues (movebucket w time s).links L'' ∧ Moved time (w.val + 1) L L'' := by
  have hne : Circq.todo ≠ .wheel (wheelIndex w time) := by simp
  obtain ⟨L'', hq', hmem⟩ := hq.append_mem hne
  refine ⟨L'', hq', ?_, ?_⟩
  · intro t
    rw [← h.mem t]
    constructor
    · rintro ⟨q, hm⟩
      rcases ((hmem q t).1 hm).2 with hm | ⟨-, hm⟩
      · exact ⟨q, hm⟩
      · exact ⟨_, hm⟩
    · rintro ⟨q, hm⟩
      by_cases hqw : q = .wheel (wheelIndex w time)
      · exact ⟨.todo, (hmem _ t).2 ⟨hne, .inr ⟨rfl, hqw ▸ hm⟩⟩⟩
      · exact ⟨q, (hmem q t).2 ⟨hqw, .inl hm⟩⟩
  · intro b t hm
    obtain ⟨hb, hm⟩ := (hmem _ t).1 hm
    rcases hm with hm | ⟨e, -⟩
    · obtain ⟨hold, hothers⟩ := h.stay b t hm
      refine ⟨hold, ?_⟩
      intro v hv
      by_cases hvw : v = w
      · rintro rfl
        exact hb (by rw [hvw])
      · refine hothers v ?_
        have hval : v.val ≠ w.val := fun e => hvw (Fin.ext e)
        omega
    · cases e

omit [DecidableEq τ] in
/-- Where a timeout stays, nothing is moved at this time: the calls of `MOVEBUCKET`
    stop only at a level whose index is not 0. -/
theorem Moved.not_drains {k : Nat} (h : Moved time k L L')
    (hstop : ∀ v : Fin 4, k ≤ v.val → ∃ u < v, maskwheel u time ≠ 0) {t : τ}
    (hm : t ∈ L' (.wheel b)) : ¬ Drains b time := by
  rintro ⟨wheel, hb, hzero⟩
  by_cases hk : wheel.val < k
  · exact (h.stay b t hm).2 wheel hk hb
  · obtain ⟨u, hu, hne⟩ := hstop wheel (Nat.le_of_not_lt hk)
    exact hne (hzero u hu)

omit [DecidableEq τ] in
theorem Wheel.moved {k : Nat} (h : Wheel s L)
    (hq : Queues s'.links L') (hm : Moved (s.ticks + 1) k L L')
    (hstop : ∀ v : Fin 4, k ≤ v.val → ∃ u < v, maskwheel u (s.ticks + 1) ≠ 0)
    (hticks : s'.ticks = s.ticks + 1) (hsame : s'.timeouts = s.timeouts) : Wheel s' L' := by
  refine ⟨⟨hq, ?_⟩, ?_⟩
  · intro t
    rw [hsame, h.onqueue t, hm.mem t]
  · intro b t ht
    rw [hticks, hsame]
    exact (h.waits b t (hm.stay b t ht).1).tick (hm.not_drains hstop ht)

theorem timeoutHardclockUpdate_wheel (h : Wheel s L) :
    ∃ L', Wheel (timeoutHardclockUpdate s).2 L' := by
  have hstart : Moved (s.ticks + 1) 0 L L := by
    refine ⟨fun _ => Iff.rfl, ?_⟩
    intro b t ht
    exact ⟨ht, fun v hv => absurd hv (Nat.not_lt_zero _)⟩
  have hstop : ∀ u : Fin 4, maskwheel u (s.ticks + 1) ≠ 0 → ∀ v : Fin 4, u.val + 1 ≤ v.val →
      ∃ u < v, maskwheel u (s.ticks + 1) ≠ 0 := fun u hu v hv => ⟨u, Fin.lt_def.2 hv, hu⟩
  obtain ⟨L0, hq0, h0⟩ := movebucket_moved (s := { s with ticks := s.ticks + 1 }) (w := 0)
    h.queues hstart
  simp only [timeoutHardclockUpdate]
  split
  · obtain ⟨L1, hq1, h1⟩ := movebucket_moved (w := 1) hq0 h0
    split
    · obtain ⟨L2, hq2, h2⟩ := movebucket_moved (w := 2) hq1 h1
      split
      · obtain ⟨L3, hq3, h3⟩ := movebucket_moved (w := 3) hq2 h2
        refine ⟨L3, h.moved hq3 h3 ?_ rfl rfl⟩
        intro v hv
        exact absurd v.isLt (Nat.not_lt.2 hv)
      · rename_i hne
        exact ⟨L2, h.moved hq2 h2 (hstop 2 hne) rfl rfl⟩
    · rename_i hne
      exact ⟨L1, h.moved hq1 h1 (hstop 1 hne) rfl rfl⟩
  · rename_i hne
    exact ⟨L0, h.moved hq0 h0 (hstop 0 hne) rfl rfl⟩

theorem softclockIter_wheel (h : Wheel s L) {call : Option (Nat × Nat)}
    (hs : softclockIter s = some (call, s')) : ∃ L', Wheel s' L' := by
  simp only [softclockIter] at hs
  split at hs
  · cases hs
  split at hs
  · cases hs
  · rename_i t hfirst
    have hmem : t ∈ L .todo := by
      rw [h.queues.next_head] at hfirst
      cases hL : L .todo with
      | nil =>
        rw [hL] at hfirst
        cases hfirst
      | cons u l =>
        rw [hL] at hfirst
        cases hfirst
        exact mem_cons_self
    have hon := (h.onqueue t).2 ⟨_, hmem⟩
    split at hs
    · rename_i hfuture
      obtain ⟨-, rfl⟩ := Prod.mk.inj (Option.some.inj hs)
      obtain ⟨L', hq, hmem', hon'⟩ := h.toQueued.remove hon
      refine Wheel.put (L := L') hq ?_ hon' ?_ ?_
      · intro p hp
        exact (hmem' p t hp).2 rfl
      · intro b u hu
        exact h.waits b u (hmem' _ u hu).1
      · intro b hb
        rw [← Circq.wheel.inj hb]
        exact waitsIn_bucket hfuture
    · obtain ⟨-, rfl⟩ := Prod.mk.inj (Option.some.inj hs)
      exact h.take hon rfl

/-! ## Adjusting the clock -/

/-- The first timeout of a bucket goes to the worklist; nothing but its time has
    changed in `s'`. -/
theorem Queued.requeue (h : Queued s L) {t : τ} {l : List τ} (hL : L (.wheel b) = t :: l)
    (hlinks : s'.links = s.links) (hflags : ∀ u, (s'.timeouts u).onqueue = (s.timeouts u).onqueue) :
    ∃ L', Queued ((s'.circqRemove t).circqInsert t .todo) L' ∧ L' (.wheel b) = l ∧
      ∀ b' ≠ b, L' (.wheel b') = L (.wheel b') := by
  have hrem := h.queues.remove (l := []) (r := l) hL
  have hgone : ∀ p, t ∉ update L (.wheel b) ([] ++ l) p := by
    intro p hp
    by_cases hpb : p = .wheel b
    · subst hpb
      rw [update_self] at hp
      have hnodup := h.queues.nodup (.wheel b)
      rw [hL] at hnodup
      exact (nodup_cons.1 hnodup).1 hp
    · rw [update_of_ne hpb] at hp
      exact hpb (h.queues.disjoint p (.wheel b) t hp (hL ▸ mem_cons_self))
  have hins := hrem.insert hgone .todo
  rw [← hlinks] at hins
  refine ⟨_, ⟨hins, ?_⟩, ?_, ?_⟩
  · intro u
    refine (Bool.eq_iff_iff.1 (hflags u)).trans ((h.onqueue u).trans ?_)
    constructor
    · rintro ⟨q, hq⟩
      by_cases hut : u = t
      · exact ⟨.todo, by simp [hut]⟩
      · refine ⟨q, ?_⟩
        by_cases hqb : q = .wheel b
        · subst hqb
          rw [hL] at hq
          simpa [hut] using hq
        · by_cases hqt : q = .todo
          · subst hqt
            simp [hq]
          · simp [update_of_ne hqt, update_of_ne hqb, hq]
    · rintro ⟨q, hq⟩
      by_cases hqt : q = .todo
      · subst hqt
        have hu : u ∈ L .todo ∨ u = t := by simpa using hq
        rcases hu with hu | rfl
        · exact ⟨.todo, hu⟩
        · exact ⟨.wheel b, hL ▸ mem_cons_self⟩
      · rw [update_of_ne hqt] at hq
        by_cases hqb : q = .wheel b
        · subst hqb
          rw [update_self] at hq
          exact ⟨.wheel b, hL ▸ mem_cons_of_mem t hq⟩
        · rw [update_of_ne hqb] at hq
          exact ⟨q, hq⟩
  · simp
  · intro b' hb'
    simp [hb']

/-- The loop over one bucket empties it, unless it has less fuel than timeouts. -/
theorem adjustBucket_queued (h : Queued s L) (adj newTicks : BitVec 32) (b : Fin 1024)
    (fuel : Nat) :
    (adjustBucket adj newTicks b fuel (s.links.next (.head (.wheel b))) s = none ∧
      fuel ≤ (L (.wheel b)).length) ∨
    ∃ s' L', adjustBucket adj newTicks b fuel (s.links.next (.head (.wheel b))) s = some s' ∧
      Queued s' L' ∧ L' (.wheel b) = [] ∧ ∀ b' ≠ b, L' (.wheel b') = L (.wheel b') := by
  induction fuel generalizing s L with
  | zero => exact .inl ⟨rfl, Nat.zero_le _⟩
  | succ fuel ih =>
    rw [h.queues.next_head]
    cases hL : L (.wheel b) with
    | nil => exact .inr ⟨s, L, by simp [adjustBucket], h, hL, fun _ _ => rfl⟩
    | cons t l =>
      have hnext : s.links.next (.elem t) = (l.head?.map .elem).getD (.head (.wheel b)) :=
        h.queues.next_elem (l := []) hL
      simp only [head?_cons, Option.map_some, Option.getD_some, adjustBucket]
      generalize hs' : (if ((s.timeouts t).toTime - s.ticks).toInt < adj.toInt then
        s.setTimeout t { s.timeouts t with toTime := newTicks } else s) = s'
      have hlinks : s'.links = s.links := by
        rw [← hs']
        split <;> rfl
      have hflags : ∀ u, (s'.timeouts u).onqueue = (s.timeouts u).onqueue := by
        intro u
        rw [← hs']
        split
        · rw [setTimeout_timeouts]
          split
          · rename_i hu
            rw [hu]
          · rfl
        · rfl
      obtain ⟨L', hq, hLb, hothers⟩ := h.requeue hL hlinks hflags
      -- the loop goes on at the new first timeout of the bucket
      have hp : s.links.next (.elem t) =
          ((s'.circqRemove t).circqInsert t .todo).links.next (.head (.wheel b)) := by
        rw [hq.queues.next_head, hLb, hnext]
      rw [hp]
      rcases ih hq with ⟨hnone, hfuel⟩ | ⟨s'', L'', hsome, hq', hempty, hothers'⟩
      · rw [hLb] at hfuel
        exact .inl ⟨hnone, Nat.succ_le_succ hfuel⟩
      · refine .inr ⟨s'', L'', hsome, hq', hempty, ?_⟩
        intro b' hb'
        rw [hothers' b' hb', hothers b' hb']

/-- The loop over the buckets. -/
theorem adjustBuckets_queued (h : Queued s L) (adj newTicks : BitVec 32) (fuel : Nat)
    (bs : List (Fin 1024)) :
    (bs.foldlM (fun s b =>
        adjustBucket adj newTicks b fuel (s.links.next (.head (.wheel b))) s) s = none ∧
      ∃ b, fuel ≤ (L (.wheel b)).length) ∨
    ∃ s' L', bs.foldlM (fun s b =>
        adjustBucket adj newTicks b fuel (s.links.next (.head (.wheel b))) s) s = some s' ∧
      Queued s' L' ∧ (∀ b ∈ bs, L' (.wheel b) = []) ∧
      ∀ b, L' (.wheel b) = [] ∨ L' (.wheel b) = L (.wheel b) := by
  induction bs generalizing s L with
  | nil => exact .inr ⟨s, L, rfl, h, fun b hb => absurd hb not_mem_nil, fun _ => .inr rfl⟩
  | cons b bs ih =>
    rw [foldlM_cons]
    rcases adjustBucket_queued h adj newTicks b fuel with
      ⟨hnone, hfuel⟩ | ⟨s', L', hsome, hq, hempty, hothers⟩
    · rw [hnone]
      exact .inl ⟨rfl, b, hfuel⟩
    · have hless : ∀ b', L' (.wheel b') = [] ∨ L' (.wheel b') = L (.wheel b') := by
        intro b'
        by_cases hb' : b' = b
        · exact .inl (hb' ▸ hempty)
        · exact .inr (hothers b' hb')
      rw [hsome]
      rcases ih hq with ⟨hnone, b', hfuel⟩ | ⟨s'', L'', hsome', hq', hbs, hless'⟩
      · refine .inl ⟨hnone, b', ?_⟩
        rcases hless b' with e | e
        · rw [e] at hfuel
          exact hfuel.trans (Nat.zero_le _)
        · rwa [e] at hfuel
      · refine .inr ⟨s'', L'', hsome', hq', ?_, ?_⟩
        · intro b' hb'
          rcases mem_cons.1 hb' with rfl | hb'
          · rcases hless' b' with e | e
            · exact e
            · rw [e, hempty]
          · exact hbs b' hb'
        · intro b'
          rcases hless' b' with e | e
          · exact .inl e
          · rw [e]
            exact hless b'

theorem timeoutAdjustTicks_wheel (h : Wheel s L) {fuel : Nat} {adj : BitVec 32}
    (hs : timeoutAdjustTicks fuel adj s = some s') : ∃ L', Wheel s' L' := by
  simp only [timeoutAdjustTicks] at hs
  split at hs
  · cases hs
    exact ⟨L, h⟩
  · rcases adjustBuckets_queued h.toQueued adj (s.ticks + adj) fuel (List.finRange 1024) with
      ⟨hnone, -⟩ | ⟨s'', L', hsome, hq, hempty, -⟩
    · rw [hnone] at hs
      cases hs
    · rw [hsome] at hs
      cases hs
      refine ⟨L', ⟨hq.queues, hq.onqueue⟩, ?_⟩
      intro b t ht
      have hnil := hempty b (mem_finRange b)
      rw [hnil] at ht
      exact absurd ht not_mem_nil

/-! ## Runs -/

/-- The states of the wheel: the calls in any order, one iteration of `softclock`
    at a time.  Before `timeout_startup` no timeout is flagged as queued, and
    `timeout_set` is not called on a queued timeout. -/
inductive TimeoutReachable : TimeoutState τ → Prop where
  | startup {s : TimeoutState τ} :
      (∀ t, (s.timeouts t).onqueue = false) → TimeoutReachable (timeoutStartup s)
  | set {s : TimeoutState τ} {t : τ} (fn arg : Nat) :
      TimeoutReachable s → (s.timeouts t).onqueue = false →
      TimeoutReachable (timeoutSet s t fn arg)
  | add {s s' : TimeoutState τ} {ret : Bool} (new : τ) (toTicks : BitVec 32) :
      TimeoutReachable s → timeoutAdd s new toTicks = some (ret, s') → TimeoutReachable s'
  | del {s : TimeoutState τ} (t : τ) : TimeoutReachable s → TimeoutReachable (timeoutDel s t).2
  | hardclock {s : TimeoutState τ} :
      TimeoutReachable s → TimeoutReachable (timeoutHardclockUpdate s).2
  | softclock {s s' : TimeoutState τ} {call : Option (Nat × Nat)} :
      TimeoutReachable s → softclockIter s = some (call, s') → TimeoutReachable s'
  | adjust {s s' : TimeoutState τ} {fuel : Nat} (adj : BitVec 32) :
      TimeoutReachable s → timeoutAdjustTicks fuel adj s = some s' → TimeoutReachable s'

theorem TimeoutReachable.wheel (h : TimeoutReachable s) : ∃ L, Wheel s L := by
  induction h with
  | startup hoff => exact ⟨_, timeoutStartup_wheel hoff⟩
  | set fn arg _ ht ih =>
    obtain ⟨L, hw⟩ := ih
    exact ⟨L, timeoutSet_wheel hw ht fn arg⟩
  | add new toTicks _ hadd ih =>
    obtain ⟨L, hw⟩ := ih
    exact timeoutAdd_wheel hw hadd
  | del t _ ih =>
    obtain ⟨L, hw⟩ := ih
    exact timeoutDel_wheel hw t
  | hardclock _ ih =>
    obtain ⟨L, hw⟩ := ih
    exact timeoutHardclockUpdate_wheel hw
  | softclock _ hs ih =>
    obtain ⟨L, hw⟩ := ih
    exact softclockIter_wheel hw hs
  | adjust adj _ hs ih =>
    obtain ⟨L, hw⟩ := ih
    exact timeoutAdjustTicks_wheel hw hs

/-! ## Main result -/

/-- The pointers lead from the head of the queue to the timeout and back to the
    head. -/
def OnList (s : TimeoutState τ) (q : Circq) (t : τ) : Prop :=
  ∃ l : List τ, Seg s.links (.head q) (l.map .elem) (.head q) ∧ t ∈ l

omit [DecidableEq τ] in
theorem Queued.onList (h : Queued s L) (q : Circq) (t : τ) : OnList s q t ↔ t ∈ L q := by
  constructor
  · rintro ⟨l, hl, ht⟩
    have heq := hl.unique (h.queues.ring q) (by simp) (by simp)
    have hinj : Function.Injective (Node.elem : τ → Node Circq τ) := fun a b e => Node.elem.inj e
    rwa [← map_injective_iff.2 hinj heq]
  · intro ht
    exact ⟨L q, h.queues.ring q, ht⟩

/-- In every state of the wheel a queued timeout is on exactly one list, what is in
    the wheel has its time to come, and what is due is on the worklist. -/
theorem timeout_not_overslept (h : TimeoutReachable s) :
    (∀ t, (s.timeouts t).onqueue = true → ∃! q, OnList s q t) ∧
    (∀ b t, OnList s (.wheel b) t → 0 < ((s.timeouts t).toTime - s.ticks).toInt) ∧
    ∀ t, (s.timeouts t).onqueue = true → ((s.timeouts t).toTime - s.ticks).toInt ≤ 0 →
      OnList s .todo t := by
  obtain ⟨L, hw⟩ := h.wheel
  have hmem := hw.toQueued.onList
  have hfuture : ∀ b t, OnList s (.wheel b) t → 0 < ((s.timeouts t).toTime - s.ticks).toInt := by
    intro b t ht
    exact (hw.waits b t ((hmem _ t).1 ht)).pos
  refine ⟨?_, hfuture, ?_⟩
  · intro t ht
    obtain ⟨q, hq⟩ := (hw.onqueue t).1 ht
    refine ⟨q, (hmem q t).2 hq, ?_⟩
    intro q' hq'
    exact hw.queues.disjoint q' q t ((hmem q' t).1 hq') hq
  · intro t ht hdue
    obtain ⟨q, hq⟩ := (hw.onqueue t).1 ht
    cases q with
    | todo => exact (hmem _ t).2 hq
    | wheel b => exact absurd (hfuture b t ((hmem _ t).2 hq)) (Int.not_lt.2 hdue)

/-- A timeout added for five ticks ahead of a clock about to wrap. -/
theorem timeout_not_overslept_wrap :
    ∃ s : TimeoutState Nat, TimeoutReachable s ∧ s.ticks = 0x7fffffff ∧
      (s.timeouts 0).toTime = 0x80000004 ∧ ∃! q, OnList s q 0 := by
  have hstart : TimeoutReachable (timeoutStartup
      { links := ⟨id, id⟩, timeouts := fun _ : Nat => ⟨0, 0, 0, false, true, false⟩,
        ticks := 0x7fffffff }) := .startup fun _ => rfl
  have hadd := TimeoutReachable.add 0 5 hstart rfl
  exact ⟨_, hadd, rfl, rfl, (timeout_not_overslept hadd).1 0 rfl⟩

end

end OpenBsd.Kern
