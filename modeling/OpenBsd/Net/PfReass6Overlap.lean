/-
  OpenBsd.Net.PfReass6Overlap

  Datagrams that `pf_reassemble6` completes have no overlapping fragments, as long as no
  fragment that is turned away before the test for overlaps overlaps one of the queue.
-/

import OpenBsd.Net.PfReass6

namespace OpenBsd.Net

open List

/-! ## Overlaps -/

/-- The fragments have a byte of the datagram in common. -/
def PfFrent6.Overlaps (a b : PfFrent6) : Prop :=
  a.frent.feOff < b.frent.stop ∧ b.frent.feOff < a.frent.stop

instance (a b : PfFrent6) : Decidable (a.Overlaps b) := inferInstanceAs (Decidable (_ ∧ _))

theorem PfFrent6.Overlaps.symm {a b : PfFrent6} (h : a.Overlaps b) : b.Overlaps a := ⟨h.2, h.1⟩

/-- The entries of a queue follow each other. -/
def Ordered6 (q : List PfFrent6) : Prop := q.Pairwise fun e e' => e.frent.stop ≤ e'.frent.feOff

theorem PfFrent6.off_le_stop (e : PfFrent6) : e.frent.feOff ≤ e.frent.stop :=
  Nat.le_add_right _ _

variable {before after : List PfFrent6} {frent : PfFrent6}

theorem Ordered6.insert (h : Ordered6 (before ++ after))
    (hbefore : ∀ e ∈ before, e.frent.feOff ≤ frent.frent.feOff)
    (hno : overlapsNext before after frent = false) : Ordered6 (before ++ frent :: after) := by
  obtain ⟨hb, ha, hba⟩ := pairwise_append.mp h
  rw [overlapsNext, Bool.or_eq_false_iff] at hno
  obtain ⟨hprev, hnext⟩ := hno
  have hfront : ∀ e ∈ before, e.frent.stop ≤ frent.frent.feOff := by
    intro e he
    rcases eq_nil_or_concat before with rfl | ⟨init, prev, rfl⟩
    · exact absurd he not_mem_nil
    · rw [concat_eq_append] at *
      rw [getLast?_concat, Option.any_some, decide_eq_false_iff_not, Nat.not_lt] at hprev
      rcases mem_append.mp he with he | he
      · have hle := (pairwise_append.mp hb).2.2 e he prev mem_cons_self
        exact Nat.le_trans (Nat.le_trans hle prev.off_le_stop) hprev
      · rw [mem_singleton.mp he]
        exact hprev
  have hback : ∀ e ∈ after, frent.frent.stop ≤ e.frent.feOff := by
    intro e he
    cases after with
    | nil => exact absurd he not_mem_nil
    | cons next rest =>
      rw [head?_cons, Option.any_some, decide_eq_false_iff_not, Nat.not_lt] at hnext
      rcases mem_cons.mp he with rfl | he
      · exact hnext
      · have hle := (pairwise_cons.mp ha).1 e he
        exact Nat.le_trans (Nat.le_trans hnext next.off_le_stop) hle
  refine pairwise_append.mpr ⟨hb, pairwise_cons.mpr ⟨hback, ha⟩, ?_⟩
  intro e he e' he'
  rcases mem_cons.mp he' with rfl | he'
  · exact hfront e he
  · exact hba e he e' he'

theorem Ordered6.pairwise {q : List PfFrent6} (h : Ordered6 q) :
    q.Pairwise fun a b => ¬a.Overlaps b := by
  refine h.imp ?_
  intro a b hle hover
  exact absurd hover.2 (Nat.not_lt.mpr hle)

/-! ## Fragments since the creation of the queue -/

/-- The checks in front of the test for overlaps turn the fragment away. -/
def turnedAway (s : Pf6State) (p : Pf6Packet) (mem : Pf6Mem) : Bool :=
  !mem.create || badFragment (frentOf6 p).frent ||
    s.frag.any fun frag => frag.frQueue.getLast?.any fun last =>
      badEnd last.frent (frentOf6 p).frent

/-- A fragment that is turned away overlaps no entry of the queue, and one that is not overlaps
    none that was turned away. -/
def OverlapSeen (s : Pf6State) (p : Pf6Packet) (mem : Pf6Mem) : Prop :=
  if turnedAway s p mem then ∀ e ∈ s.accepted, ¬(frentOf6 p).Overlaps e
  else ∀ e ∈ s.rejected, ¬(frentOf6 p).Overlaps e

instance (s : Pf6State) (p : Pf6Packet) (mem : Pf6Mem) : Decidable (OverlapSeen s p mem) :=
  inferInstanceAs (Decidable (if turnedAway s p mem = true then
      ∀ e ∈ s.accepted, ¬(frentOf6 p).Overlaps e
    else ∀ e ∈ s.rejected, ¬(frentOf6 p).Overlaps e))

/-- No fragment that came since the creation of the queue overlaps another one of the queue. -/
structure Pf6State.Apart (s : Pf6State) : Prop where
  fresh : s.frag = Option.none → s = .none
  queue : ∀ g, s.frag = some g → g.frQueue.Perm s.accepted ∧ Ordered6 g.frQueue
  accepted : s.accepted.Pairwise fun a b => ¬a.Overlaps b
  rejected : ∀ e ∈ s.rejected, ∀ e' ∈ s.accepted, ¬e.Overlaps e'

theorem Pf6State.none_apart : Pf6State.none.Apart where
  fresh := fun _ => rfl
  queue := fun g hg => by cases hg
  accepted := List.Pairwise.nil
  rejected := fun e he => absurd he not_mem_nil

variable {s s' : Pf6State} {p : Pf6Packet} {mem : Pf6Mem}

theorem Pf6State.Apart.reject (h : s.Apart) {g g' : PfFragment6} (hfrag : s.frag = some g)
    (hqueue : g'.frQueue = g.frQueue) (hno : ∀ e ∈ s.accepted, ¬frent.Overlaps e) :
    Pf6State.Apart ⟨some g', s.accepted, frent :: s.rejected⟩ where
  fresh := fun hnone => by cases hnone
  queue := by
    intro g'' hg''
    cases hg''
    rw [hqueue]
    exact h.queue g hfrag
  accepted := h.accepted
  rejected := by
    intro e he
    rcases mem_cons.mp he with rfl | he
    · exact hno
    · exact h.rejected e he

theorem Pf6State.Apart.accept {g : PfFragment6} {accepted rejected : List PfFrent6}
    (hrej : ∀ e ∈ rejected, ∀ e' ∈ accepted, ¬e.Overlaps e')
    (hperm : g.frQueue.Perm (frent :: accepted)) (hord : Ordered6 g.frQueue)
    (hno : ∀ e ∈ rejected, ¬frent.Overlaps e) :
    Pf6State.Apart ⟨some g, frent :: accepted, rejected⟩ where
  fresh := fun hnone => by cases hnone
  queue := by
    intro g' hg'
    cases hg'
    exact ⟨hperm, hord⟩
  accepted := (hperm.pairwise_iff fun hab hba => hab hba.symm).mp hord.pairwise
  rejected := by
    intro e he e' he'
    rcases mem_cons.mp he' with rfl | he'
    · exact fun hover => hno e he hover.symm
    · exact hrej e he e' he'

theorem turnedAway_eq (s : Pf6State) (p : Pf6Packet) (mem : Pf6Mem) :
    turnedAway s p mem = true ↔ mem.create = false ∨ badFragment (frentOf6 p).frent = true ∨
      ∃ g last, s.frag = some g ∧ g.frQueue.getLast? = some last ∧
        badEnd last.frent (frentOf6 p).frent = true := by
  simp only [turnedAway, Bool.or_eq_true, Bool.not_eq_true', Option.any_eq_true, or_assoc]
  refine or_congr Iff.rfl (or_congr Iff.rfl ⟨?_, ?_⟩)
  · rintro ⟨g, hg, last, hlast, hend⟩
    exact ⟨g, last, hg, hlast, hend⟩
  · rintro ⟨g, last, hg, hlast, hend⟩
    exact ⟨g, hg, last, hlast, hend⟩

theorem Pf6State.receive_apart (h : s.Apart) (hok : OverlapSeen s p mem)
    (hrecv : s.receive p mem = some s') : s'.Apart := by
  unfold OverlapSeen at hok
  unfold Pf6State.receive at hrecv
  cases hcreate : mem.create with
  | false =>
    rw [if_pos ((turnedAway_eq s p mem).mpr (.inl hcreate))] at hok
    rw [hcreate] at hrecv
    cases hrecv
    cases hfrag : s.frag with
    | none => exact Pf6State.none_apart
    | some g => exact h.reject hfrag rfl hok
  | true =>
    rw [hcreate] at hrecv
    obtain ⟨⟨frag', filled⟩, hfill, heq⟩ := Option.map_eq_some_iff.mp hrecv
    rcases pfFillupFragment6_cases hfill with ⟨hgood, hnone, rfl, maxlen, rfl⟩ |
      ⟨g, before, after, maxlen, hgood, hfrag, rfl, hend, hsplit, hbefore, hno, rfl⟩ |
      ⟨rfl, rfl⟩ | ⟨g, maxlen, rfl, hfrag, rfl, hbad⟩
    · cases heq
      obtain rfl := h.fresh hnone
      exact .accept (fun e he => absurd he not_mem_nil) (List.Perm.refl _)
        (pairwise_singleton _ _) fun e he => absurd he not_mem_nil
    · cases heq
      have hpass : ¬turnedAway s p mem = true := by
        rw [turnedAway_eq, hcreate, hgood, hfrag]
        rintro (hno | hno | ⟨g', last, hg', hlast, hno⟩)
        · cases hno
        · cases hno
        · cases hg'
          rw [hend last hlast] at hno
          cases hno
      rw [if_neg hpass] at hok
      obtain ⟨hperm, hord⟩ := h.queue g hfrag
      rw [hsplit] at hperm hord
      exact .accept h.rejected (perm_middle.trans (hperm.cons _)) (hord.insert hbefore hno) hok
    · cases heq
      exact Pf6State.none_apart
    · cases heq
      have haway : turnedAway s p mem = true := by
        refine (turnedAway_eq s p mem).mpr (.inr (hbad.imp_right ?_))
        rintro ⟨last, hlast, hend⟩
        exact ⟨g, last, hfrag, hlast, hend⟩
      rw [if_pos haway] at hok
      exact h.reject hfrag rfl hok

/-! ## Runs -/

theorem Pf6State.step_apart (h : s.Apart) (hok : OverlapSeen s p mem)
    (hstep : s.step p mem = some s') : s'.Apart := by
  obtain ⟨r, -, hstep⟩ := Option.bind_eq_some_iff.mp hstep
  obtain ⟨s₁, hrecv, hstep⟩ := Option.bind_eq_some_iff.mp hstep
  cases hstep
  split
  · exact Pf6State.receive_apart h hok hrecv
  · exact Pf6State.none_apart

theorem Pf6State.Reach.apart (hr : s.Reach OverlapSeen) : s.Apart := by
  induction hr with
  | start => exact Pf6State.none_apart
  | step p mem _ hok hstep ih => exact Pf6State.step_apart ih hok hstep
  | free => exact Pf6State.none_apart

/-- While what is turned away overlaps nothing of the queue, a datagram is completed only from
    fragments of which none overlaps another one, be it in the queue or turned away. -/
theorem pfReassemble6_apart (hr : s.Reach OverlapSeen) (hok : OverlapSeen s p mem) {r : Pf6Result}
    (hres : pfReassemble6 s.frag p mem = some r) (hpass : r.verdict = .pass)
    (hm : r.m.isSome = true) :
    ∃ s' g, s.receive p mem = some s' ∧ s'.frag = some g ∧ g.frQueue.Perm s'.accepted ∧
      (s'.accepted.Pairwise fun a b => ¬a.Overlaps b) ∧
      ∀ e ∈ s'.rejected, ∀ e' ∈ s'.accepted, ¬e.Overlaps e' := by
  obtain ⟨g, hrecv, -⟩ := pfReassemble6_complete hres hpass hm
  have hapart := Pf6State.receive_apart hr.apart hok hrecv
  exact ⟨_, g, hrecv, rfl, (hapart.queue g rfl).1, hapart.accepted, hapart.rejected⟩

/-- A fragment without extension headers, of `len` bytes. -/
def plainFragment (ip6fOfflg len : Nat) : Pf6Packet :=
  ⟨setHalf (List.replicate (48 + len) 0) 4 (8 + len), ip6fOfflg, 48, 0⟩

theorem pfReassemble6_apart_two :
    ∃ s r s', Pf6State.Reach OverlapSeen s ∧
      pfReassemble6 s.frag (plainFragment 8 8) .all = some r ∧ r.verdict = .pass ∧
      s.receive (plainFragment 8 8) .all = some s' ∧ s'.accepted.length = 2 ∧
      s'.accepted.Pairwise fun a b => ¬a.Overlaps b := by
  have hok : OverlapSeen .none (plainFragment 1 8) .all := by decide
  obtain ⟨s, hs⟩ : ∃ s, Pf6State.none.step (plainFragment 1 8) .all = some s := ⟨_, rfl⟩
  have hr : s.Reach OverlapSeen := .step (plainFragment 1 8) .all .start hok hs
  have hrun : (Pf6State.none.step (plainFragment 1 8) .all).any fun s =>
      OverlapSeen s (plainFragment 8 8) .all ∧ s.accepted.length = 1 ∧
        ((pfReassemble6 s.frag (plainFragment 8 8) .all).any fun r =>
          r.verdict = .pass ∧ r.m.isSome = true) = true := by
    decide
  rw [hs] at hrun
  obtain ⟨hok', hlen, hres⟩ := of_decide_eq_true hrun
  obtain ⟨r, hres, hr'⟩ := (Option.any_eq_true _ _).mp hres
  obtain ⟨hpass, hm⟩ := of_decide_eq_true hr'
  obtain ⟨s', g, hrecv, -, -, hpair, -⟩ := pfReassemble6_apart hr hok' hres hpass hm
  obtain ⟨g', hrecv', -⟩ := pfReassemble6_complete hres hpass hm
  have hlen' : s'.accepted.length = 2 := by
    rw [hrecv] at hrecv'
    cases hrecv'
    exact congrArg Nat.succ hlen
  exact ⟨s, r, s', hr, hres, hpass, hrecv, hlen', hpair⟩

/-- A fragment whose length is not aligned is turned away, though it overlaps the first
    fragment, and the datagram is completed. -/
theorem pfReassemble6_overlapped :
    ∃ s r s', Pf6State.Reach (fun _ _ _ => True) s ∧
      pfReassemble6 s.frag (plainFragment 8 8) .all = some r ∧ r.verdict = .pass ∧
      r.m.isSome = true ∧ s.receive (plainFragment 8 8) .all = some s' ∧
      ∃ e ∈ s'.rejected, ∃ e' ∈ s'.accepted, e.Overlaps e' := by
  obtain ⟨s₁, hs₁⟩ : ∃ s, Pf6State.none.step (plainFragment 1 8) .all = some s := ⟨_, rfl⟩
  have hrun : ((Pf6State.none.step (plainFragment 1 8) .all).bind fun s =>
      s.step (plainFragment 1 12) .all).any fun s =>
        ((pfReassemble6 s.frag (plainFragment 8 8) .all).any fun r =>
          r.verdict = .pass ∧ r.m.isSome = true) = true ∧
        ((s.receive (plainFragment 8 8) .all).any fun s' =>
          ∃ e ∈ s'.rejected, ∃ e' ∈ s'.accepted, e.Overlaps e') = true := by
    decide
  rw [hs₁, Option.bind_some] at hrun
  obtain ⟨s, hs, hrun⟩ := (Option.any_eq_true _ _).mp hrun
  obtain ⟨hres, hrecv⟩ := of_decide_eq_true hrun
  obtain ⟨r, hres, hr⟩ := (Option.any_eq_true _ _).mp hres
  obtain ⟨hpass, hm⟩ := of_decide_eq_true hr
  obtain ⟨s', hrecv, hover⟩ := (Option.any_eq_true _ _).mp hrecv
  exact ⟨s, r, s', .step _ _ (.step _ _ .start trivial hs₁) trivial hs, hres, hpass, hm, hrecv,
    of_decide_eq_true hover⟩

end OpenBsd.Net
