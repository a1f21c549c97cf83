/-
  OpenBsd.Kern.RwlockSafe

  In every state of a lock of `kern/kern_rwlock.c` the word says who holds it, and
  no sleeper is forgotten.

  `Encodes` relates the word to what the threads hold.  What a step does to it
  depends only on the value that the compare-and-swap finds, so that stale loads and
  failed swaps change nothing.
-/

import OpenBsd.Kern.RwlockWord

namespace OpenBsd.Kern

open OpenBsd.Lib Function

/-! ## The invariant -/

section Invariant

variable {τ : Type} {P : ProcTable τ} {s s' : RwState τ}

/-- What is known about a thread from where it is in the code. -/
def StageOk (held : Held) : Stage → Prop
  | .enterRead _ => held ≠ .read
  | .enter op _ | .asleep op _ | .woken op _ =>
    (op = .read → held ≠ .read) ∧ (op = .downgrade → held = .write)
  | .take op _ o =>
    (op = .read → held ≠ .read ∧ o.toNat / 4 % 2 = 0) ∧ (op = .write → o = 0) ∧
      (op = .downgrade → held = .write)
  | .setWait op _ o =>
    (op = .read → held ≠ .read ∧ o.toNat / 4 % 2 = 1) ∧ (op = .write → o ≠ 0) ∧ op ≠ .downgrade
  | .exitRead _ => held = .read
  | .exitWrite _ => held = .write
  | .exit => held ≠ .nothing
  | .exitLoad wrlock | .exitSwap wrlock _ =>
    held ≠ .nothing ∧ (wrlock = true ↔ held = .write)
  | .idle | .wakeup => True

def Asleep (s : RwState τ) (t : τ) : Prop := ∃ op flags, (s.threads t).stage = .asleep op flags

/-- Some thread is about to wake all sleepers. -/
def Waking (s : RwState τ) : Prop := ∃ t, (s.threads t).stage = .wakeup

/-- The invariant of the lock, with the wait bits `b`. -/
structure RwInv (P : ProcTable τ) (s : RwState τ) (b : Nat) : Prop where
  bits : WaitBits b
  encodes : Encodes P (fun t => (s.threads t).held) s.owner.toNat b
  stages : ∀ t, StageOk (s.threads t).held (s.threads t).stage
  asleep : ∀ t, Asleep s t → b % 2 = 1 ∨ Waking s

theorem RwInv.init : RwInv P rwInit 0 := by
  refine ⟨.inl rfl, .inr ⟨?_, ∅, ?_, rfl, fun _ => rfl⟩, fun _ => trivial, ?_⟩
  · intro t
    simp [rwInit]
  · intro t
    simp [rwInit]
  · rintro t ⟨op, flags, h⟩
    cases h

variable [DecidableEq τ] {b : Nat}

/-- A step that changes the word, what the thread holds and where it is. -/
theorem RwInv.setThread (h : RwInv P s b) {t : τ} {held : Held} {stage : Stage} {n : BitVec 64}
    {b' : Nat} (hold : (s.threads t).stage ≠ .wakeup) (hb' : WaitBits b')
    (henc : Encodes P (update (fun u => (s.threads u).held) t held) n.toNat b')
    (hok : StageOk held stage) (hnew : ∀ op flags, stage = .asleep op flags → b' % 2 = 1)
    (hwait : b % 2 = 1 → b' % 2 = 1 ∨ stage = .wakeup) :
    RwInv P (({ s with owner := n } : RwState τ).setThread t held stage) b' := by
  have hother : ∀ u, u ≠ t →
      (({ s with owner := n } : RwState τ).setThread t held stage).threads u = s.threads u := by
    intro u hut
    simp [RwState.setThread, hut]
  have hself : (({ s with owner := n } : RwState τ).setThread t held stage).threads t =
      ⟨held, stage⟩ := by simp [RwState.setThread]
  have hheld : (fun u => ((({ s with owner := n } : RwState τ).setThread t held stage).threads
      u).held) = update (fun u => (s.threads u).held) t held := by
    funext u
    by_cases hut : u = t
    · subst hut
      rw [hself, update_self]
    · rw [hother u hut, update_of_ne hut]
  refine ⟨hb', ?_, ?_, ?_⟩
  · rw [hheld]
    exact henc
  · intro u
    by_cases hut : u = t
    · subst hut
      rw [hself]
      exact hok
    · rw [hother u hut]
      exact h.stages u
  · rintro u ⟨op, flags, hu⟩
    by_cases hut : u = t
    · subst hut
      rw [hself] at hu
      exact .inl (hnew op flags hu)
    · rw [hother u hut] at hu
      rcases h.asleep u ⟨op, flags, hu⟩ with hodd | ⟨v, hv⟩
      · rcases hwait hodd with hodd' | hwake
        · exact .inl hodd'
        · exact .inr ⟨t, by rw [hself]; exact hwake⟩
      · have hvt : v ≠ t := by
          rintro rfl
          exact hold hv
        exact .inr ⟨v, by rw [hother v hvt]; exact hv⟩

theorem RwInv.setStage (h : RwInv P s b) {t : τ} {stage : Stage}
    (hold : (s.threads t).stage ≠ .wakeup) (hok : StageOk (s.threads t).held stage)
    (hnew : ∀ op flags, stage ≠ .asleep op flags) : RwInv P (s.setStage t stage) b := by
  refine h.setThread (n := s.owner) hold h.bits ?_ hok ?_ .inl
  · rw [update_eq_self]
    exact h.encodes
  · intro op flags e
    exact absurd e (hnew op flags)

omit [DecidableEq τ] in
theorem RwInv.low (h : RwInv P s b) : s.owner.toNat % 4 = b := by
  have hbits := h.bits
  rcases h.encodes with ⟨w, -, -, hn⟩ | ⟨-, R, -, hn, -⟩
  · have hw := P.bits_mod w
    rcases hbits with rfl | rfl | rfl <;> omega
  · rcases hbits with rfl | rfl | rfl <;> omega

variable {n o : BitVec 64} {fail : RwState τ} {done : RwState τ → RwState τ}

theorem RwInv.gain_write (h : RwInv P s b) {t : τ} (hold : (s.threads t).stage ≠ .wakeup)
    (hzero : s.owner = 0) {n : BitVec 64} (hn : n.toNat = P.bits t + 4) :
    RwInv P (({ s with owner := n } : RwState τ).setThread t .write .idle) 0 := by
  have henc := h.encodes
  rw [hzero] at henc
  have hb := henc.zero.1
  refine h.setThread hold (.inl rfl) ?_ trivial (fun _ _ e => nomatch e) (by omega)
  rw [hn]
  exact henc.gain_write t

theorem RwInv.gain_read (h : RwInv P s b) {t : τ} (hold : (s.threads t).stage ≠ .wakeup)
    (hlock : s.owner.toNat / 4 % 2 = 0) (ht : (s.threads t).held ≠ .read) :
    RwInv P (({ s with owner := s.owner + rwlockReadIncr } : RwState τ).setThread t .read .idle) b := by
  obtain ⟨henc, hlt⟩ := h.encodes.gain_read h.bits hlock ht
  refine h.setThread hold h.bits ?_ trivial (fun _ _ e => nomatch e) .inl
  have hincr : rwlockReadIncr.toNat = 8 := by decide
  rw [BitVec.toNat_add, hincr, Nat.mod_eq_of_lt hlt]
  exact henc

omit [DecidableEq τ] in
theorem toNat_rwInc_write (t : τ) : (rwInc P t .write).toNat = P.bits t + 4 := by
  have hb := P.bits_bounds t
  have hfour : rwlockWrlock.toNat = 4 := by decide
  have hone : rwProc (P.proc t) * RwOp.write.procMult = rwProc (P.proc t) := BitVec.mul_one _
  rw [rwInc, RwOp.inc, hone, BitVec.toNat_add, hfour]
  change (4 + P.bits t) % 2 ^ 64 = P.bits t + 4
  omega

omit [DecidableEq τ] in
theorem toNat_add_rwInc_downgrade {t : τ} (hb : WaitBits b)
    (ho : o.toNat = P.bits t + 4 + b) : (o + rwInc P t .downgrade).toNat = 8 + b := by
  have hbounds := P.bits_bounds t
  have hincr : (rwlockReadIncr - rwlockWrlock).toNat = 4 := by decide
  have hneg : (rwProc (P.proc t) * RwOp.downgrade.procMult).toNat = 2 ^ 64 - P.bits t := by
    have hone : rwProc (P.proc t) * 1 = rwProc (P.proc t) := BitVec.mul_one _
    rw [RwOp.procMult, BitVec.mul_neg, hone, BitVec.toNat_neg]
    change (2 ^ 64 - P.bits t) % 2 ^ 64 = 2 ^ 64 - P.bits t
    omega
  have hcount : b < 4 := by rcases hb with rfl | rfl | rfl <;> omega
  rw [rwInc, RwOp.inc, BitVec.toNat_add, BitVec.toNat_add, hincr, hneg, ho]
  omega

section

variable (h : RwInv P s b)
include h

variable {t : τ}

/-- The swap of `rw_enter` that takes the lock. -/
theorem RwInv.take {op : RwOp} {flags : RwFlags}
    (ht : (s.threads t).stage = .take op flags s.owner) :
    ∃ b', RwInv P (({ s with owner := s.owner + rwInc P t op } : RwState τ).setThread t op.holds
      (if s.owner &&& (rwlockWrlock ||| rwlockWait) = rwlockWrlock ||| rwlockWait then .wakeup
        else .idle)) b' := by
  have hold : (s.threads t).stage ≠ .wakeup := by simp [ht]
  have hstage := h.stages t
  rw [ht] at hstage
  obtain ⟨hread, hwrite, hdown⟩ := hstage
  have hcond := and_wrlock_wait_eq s.owner
  cases op with
  | write =>
    have hzero := hwrite rfl
    have hnw : ¬ s.owner &&& (rwlockWrlock ||| rwlockWait) = rwlockWrlock ||| rwlockWait := by
      rw [hcond, hzero]
      simp
    rw [if_neg hnw]
    refine ⟨0, h.gain_write hold hzero ?_⟩
    rw [hzero, show 0 + rwInc P t .write = rwInc P t .write from BitVec.zero_add _,
      toNat_rwInc_write]
  | read =>
    obtain ⟨hheld, hlock⟩ := hread rfl
    have hnw : ¬ s.owner &&& (rwlockWrlock ||| rwlockWait) = rwlockWrlock ||| rwlockWait := by
      rw [hcond]
      omega
    have hinc : rwInc P t .read = rwlockReadIncr := by
      simp [rwInc, RwOp.inc, RwOp.procMult]
    rw [if_neg hnw, hinc]
    exact ⟨b, h.gain_read hold hlock hheld⟩
  | downgrade =>
    have hheld := hdown rfl
    obtain ⟨hval, -⟩ := h.encodes.write_eq hheld
    refine ⟨b, h.setThread hold h.bits ?_ ?_ ?_ .inl⟩
    · rw [toNat_add_rwInc_downgrade h.bits hval]
      exact h.encodes.downgrade hheld
    · split <;> exact trivial
    · intro op flags e
      split at e <;> cases e

theorem RwInv.exitRead (ht : (s.threads t).stage = .exitRead s.owner)
    (hwait : s.owner &&& rwlockWait = 0) :
    RwInv P (({ s with owner := s.owner - rwlockReadIncr } : RwState τ).setThread t .nothing
      .idle) 0 := by
  have hheld := h.stages t
  rw [ht] at hheld
  obtain ⟨m, hm, henc⟩ := h.encodes.release_read hheld
  have heven := (and_wait_eq_zero s.owner).1 hwait
  have hb : b = 0 := by
    rcases h.bits with hb | hb | hb <;> omega
  refine h.setThread (by simp [ht]) (.inl rfl) ?_ trivial (fun _ _ e => nomatch e) (by omega)
  have hincr : rwlockReadIncr.toNat = 8 := by decide
  have hlt := s.owner.isLt
  have hval : (s.owner - rwlockReadIncr).toNat = 8 * m := by
    rw [BitVec.toNat_sub, hincr, hm]
    omega
  rw [hval]
  exact henc

theorem RwInv.exitWrite (ht : (s.threads t).stage = .exitWrite s.owner)
    (hwait : s.owner &&& rwlockWait = 0) :
    RwInv P (({ s with owner := 0 } : RwState τ).setThread t .nothing .idle) 0 := by
  have hheld := h.stages t
  rw [ht] at hheld
  have hval := (h.encodes.write_eq hheld).1
  have hmod := P.bits_mod t
  have heven := (and_wait_eq_zero s.owner).1 hwait
  refine h.setThread (by simp [ht]) (.inl rfl) ?_ trivial (fun _ _ e => nomatch e) (by omega)
  exact h.encodes.release_write hheld

theorem RwInv.wakeup (t : τ) : RwInv P (rwWakeup s t) b ∧ ∀ u, ¬ Asleep (rwWakeup s t) u := by
  have hheld : ∀ u, ((rwWakeup s t).threads u).held = (s.threads u).held := by
    intro u
    simp only [rwWakeup]
    split
    · rfl
    · split <;> rfl
  have hawake : ∀ u, ¬ Asleep (rwWakeup s t) u := by
    rintro u ⟨op, flags, hu⟩
    simp only [rwWakeup] at hu
    split at hu
    · cases hu
    · split at hu
      · cases hu
      · rename_i hno
        exact hno op flags hu
  refine ⟨⟨h.bits, ?_, ?_, fun u hu => absurd hu (hawake u)⟩, hawake⟩
  · rw [funext hheld]
    exact h.encodes
  · intro u
    have hok := h.stages u
    rw [hheld u]
    simp only [rwWakeup]
    split
    · exact trivial
    · split
      · rename_i hst
        rw [hst] at hok
        exact hok
      · exact hok

end

/-! ## Other threads -/

omit [DecidableEq τ] in
theorem RwInv.wait (h : RwInv P s b) : s.owner &&& rwlockWait ≠ 0 ↔ b % 2 = 1 := by
  have hlow := h.low
  rw [ne_eq, and_wait_eq_zero]
  omega

end Invariant

end OpenBsd.Kern
