/-
  OpenBsd.Kern.UipcUsrreqGc

  What the mark loop of `unp_gc` leaves: the dead sockets are those that no live one leads to.
-/

import OpenBsd.Kern.UipcUsrreq

namespace OpenBsd.Kern

open List Function

variable {w : UnpHead} {s s' : UnpGc} {unp : Nat}

/-! ## One socket -/

/-- Marked and deferred sockets are live, and what a marked one refers to is marked or deferred, but for
the one that is being scanned. -/
structure GcInv (w : UnpHead) (s : UnpGc) (scanning : Option Nat) : Prop where
  live : ∀ u ∈ w.head, (s.flags u).gcMark = true ∨ (s.flags u).gcDefer = true → w.Live u
  apart : ∀ u ∈ w.head, (s.flags u).gcMark = true → (s.flags u).gcDefer = false
  closed : ∀ u ∈ w.head, scanning ≠ some u → (s.flags u).gcMark = true → ∀ v, w.Refers u v →
    (s.flags v).gcMark = true ∨ (s.flags v).gcDefer = true
  dead : ∀ u ∈ w.head, (s.flags u).gcDead = true →
    w.Passed u ∧ (s.flags u).gcMark = false ∧ (s.flags u).gcDefer = false
  count : s.unpDefer = w.deferred s

/-- The socket gets its mark, and is no longer deferred. -/
def gcMarked (s : UnpGc) (unp : Nat) : UnpGc :=
  { flags := Function.update s.flags unp ⟨true, false, false⟩
    unpDefer := s.unpDefer - (s.flags unp).gcDefer.toNat }

theorem gcMarked_self (s : UnpGc) (unp : Nat) : (gcMarked s unp).flags unp = ⟨true, false, false⟩ :=
  update_self ..

theorem gcMarked_of_ne {v : Nat} (h : v ≠ unp) : (gcMarked s unp).flags v = s.flags v :=
  update_of_ne h ..

theorem GcInv.marked (h : GcInv w s none) (hunp : unp ∈ w.head) (hlive : w.Live unp) :
    GcInv w (gcMarked s unp) (some unp) := by
  refine ⟨?_, ?_, ?_, ?_, ?_⟩
  · intro u hu hflag
    by_cases heq : u = unp
    · rw [heq]
      exact hlive
    · rw [gcMarked_of_ne heq] at hflag
      exact h.live u hu hflag
  · intro u hu hmark
    by_cases heq : u = unp
    · rw [heq, gcMarked_self]
    · rw [gcMarked_of_ne heq] at hmark ⊢
      exact h.apart u hu hmark
  · intro u hu hne hmark v hrefers
    have heq : u ≠ unp := fun heq => hne (congrArg some heq.symm)
    rw [gcMarked_of_ne heq] at hmark
    by_cases hv : v = unp
    · rw [hv, gcMarked_self]
      exact .inl rfl
    · rw [gcMarked_of_ne hv]
      exact h.closed u hu (Option.some_ne_none u).symm hmark v hrefers
  · intro u hu hdead
    by_cases heq : u = unp
    · rw [heq, gcMarked_self] at hdead
      cases hdead
    · rw [gcMarked_of_ne heq] at hdead ⊢
      exact h.dead u hu hdead
  · have hcount := @deferred_update w s unp hunp ⟨true, false, false⟩
      (s.unpDefer - (s.flags unp).gcDefer.toNat)
    have hold := h.count
    show s.unpDefer - ((s.flags unp).gcDefer.toNat : Int) = w.deferred (gcMarked s unp)
    unfold gcMarked
    simp only [Bool.toNat_false] at hcount
    omega

end OpenBsd.Kern
