/-
  OpenBsd.Net.PfFragPurge

  `pf_purge_expired_fragments` takes every expired queue, as long as no queue that is older
  than another one is moved to the head of `pf_fragqueue`.
-/

import OpenBsd.Net.PfFragTree

namespace OpenBsd.Net

open OpenBsd.Lib OpenBsd.Sys List Option

variable {expire : Int} {key : PfFragmentCmp} {frag : PfFragment} {frent : PfFrent}
  {r : Option PfFragment}

theorem int32_of_range {x : Int} (hlo : -2 ^ 31 ≤ x) (hhi : x < 2 ^ 31) : int32 x = x := by
  rw [int32, BitVec.toInt_ofInt]
  exact Int.bmod_eq_of_le (by omega) (by omega)

/-! ## The list of the queues -/

/-- The queues stand in the order of their times, the latest at the head, and none is of the
    future. -/
structure PfFragCache.InOrder (s : PfFragCache) : Prop where
  uptime : 0 ≤ s.timeUptime
  nonneg : ∀ f ∈ s.fragqueue, 0 ≤ f.frTimeout
  le_uptime : ∀ f ∈ s.fragqueue, f.frTimeout ≤ s.timeUptime
  sorted : s.fragqueue.Pairwise fun f g => g.frTimeout ≤ f.frTimeout

/-- Queues are taken off the list, and nothing else happens to it. -/
def PfFragCache.Trimmed (s s' : PfFragCache) : Prop :=
  s'.fragqueue.Sublist s.fragqueue ∧ s'.timeUptime = s.timeUptime

theorem PfFragCache.Trimmed.refl (s : PfFragCache) : s.Trimmed s := ⟨List.Sublist.refl _, rfl⟩

theorem PfFragCache.Trimmed.trans {s s' s'' : PfFragCache} (h : s.Trimmed s')
    (h' : s'.Trimmed s'') : s.Trimmed s'' := ⟨h'.1.trans h.1, h'.2.trans h.2⟩

theorem PfFragCache.InOrder.trimmed {s s' : PfFragCache} (h : s.InOrder) (ht : s.Trimmed s') :
    s'.InOrder where
  uptime := by rw [ht.2]; exact h.uptime
  nonneg := fun f hf => h.nonneg f (ht.1.subset hf)
  le_uptime := by
    intro f hf
    rw [ht.2]
    exact h.le_uptime f (ht.1.subset hf)
  sorted := h.sorted.sublist ht.1

variable {fuel : Nat} {s s' : PfFragCache}

theorem pfFreeFragment_eq_some {ptr : PfFragPtr} (h : pfFreeFragment fuel s ptr = some s') :
    s.Trimmed s' ∧ s'.fragqueue = s.unlink ptr ∧
      s'.fragqueue.length + 1 = s.fragqueue.length := by
  rw [pfFreeFragment] at h
  obtain ⟨⟨old, tree⟩, -, h⟩ := bind_eq_some_iff.mp h
  obtain ⟨frag, hfrag, h⟩ := bind_eq_some_iff.mp h
  cases h
  obtain ⟨hmem, hptr⟩ := PfFragCache.frag_mem hfrag
  refine ⟨⟨eraseP_sublist, rfl⟩, rfl, ?_⟩
  have hlen : (s.unlink ptr).length = s.fragqueue.length - 1 :=
    length_eraseP_of_mem hmem (decide_eq_true hptr)
  have hpos := length_pos_of_mem hmem
  simp only [hlen]
  omega

theorem purgeLoop_trimmed : ∀ (n : Nat) {s s' : PfFragCache},
    purgeLoop fuel expire n s = some s' → s.Trimmed s' := by
  intro n
  induction n with
  | zero =>
    intro s s' h
    cases h
    exact .refl s
  | succ n ih =>
    intro s s' h
    rw [purgeLoop] at h
    split at h
    · cases h
      exact .refl s
    · split at h
      · cases h
        exact .refl s
      · obtain ⟨s₁, hfree, hrest⟩ := bind_eq_some_iff.mp h
        exact (pfFreeFragment_eq_some hfree).1.trans (ih hrest)

theorem flushLoop_trimmed {goal : Int} : ∀ (n : Nat) {s s' : PfFragCache},
    flushLoop fuel goal n s = some s' → s.Trimmed s' := by
  intro n
  induction n with
  | zero =>
    intro s s' h
    cases h
    exact .refl s
  | succ n ih =>
    intro s s' h
    rw [flushLoop] at h
    split at h
    · split at h
      · cases h
        exact .refl s
      · obtain ⟨s₁, hfree, hrest⟩ := bind_eq_some_iff.mp h
        exact (pfFreeFragment_eq_some hfree).1.trans (ih hrest)
    · cases h
      exact .refl s

variable {mem : Bool × Bool}

theorem poolGetFlush_trimmed {got : Bool}
    (h : poolGetFlush fuel s mem = some (got, s')) : s.Trimmed s' := by
  rw [poolGetFlush] at h
  split at h
  · cases h
    exact .refl s
  · obtain ⟨s₁, hflush, h⟩ := map_eq_some_iff.mp h
    cases h
    exact flushLoop_trimmed _ hflush

/-! ## Fragments that arrive -/

theorem pfFindFragment_eq_some {frag? : Option PfFragment}
    (h : pfFindFragment fuel s key = some (frag?, s')) :
    frag? = none ∧ s' = s ∨
      ∃ frag, frag? = some frag ∧ frag ∈ s.fragqueue ∧
        s' = { s with fragqueue := frag :: s.unlink frag.ptr } := by
  rw [pfFindFragment] at h
  obtain ⟨ptr?, -, h⟩ := bind_eq_some_iff.mp h
  cases ptr? with
  | none =>
    cases h
    exact .inl ⟨rfl, rfl⟩
  | some ptr =>
    obtain ⟨frag, hfrag, h⟩ := bind_eq_some_iff.mp h
    cases h
    obtain ⟨hmem, rfl⟩ := PfFragCache.frag_mem hfrag
    exact .inr ⟨frag, rfl, hmem, rfl⟩

theorem PfFragCache.InOrder.toHead (h : s.InOrder) (hmem : frag ∈ s.fragqueue)
    (hlatest : ∀ g ∈ s.fragqueue, g.frTimeout ≤ frag.frTimeout) :
    PfFragCache.InOrder { s with fragqueue := frag :: s.unlink frag.ptr } where
  uptime := h.uptime
  nonneg := by
    intro f hf
    rcases mem_cons.mp hf with rfl | hf
    · exact h.nonneg f hmem
    · exact h.nonneg f (mem_of_mem_eraseP hf)
  le_uptime := by
    intro f hf
    rcases mem_cons.mp hf with rfl | hf
    · exact h.le_uptime f hmem
    · exact h.le_uptime f (mem_of_mem_eraseP hf)
  sorted := by
    refine pairwise_cons.mpr ⟨?_, h.sorted.sublist eraseP_sublist⟩
    intro g hg
    exact hlatest g (mem_of_mem_eraseP hg)

theorem PfFragCache.InOrder.setQueue (h : s.InOrder) (ptr : PfFragPtr) (q : List PfFrent)
    (maxlen : Nat) (nfrents : Int) :
    PfFragCache.InOrder { s with fragqueue := s.setQueue ptr q maxlen, nfrents } where
  uptime := h.uptime
  nonneg := by
    intro f hf
    obtain ⟨g, hg, rfl⟩ := List.mem_map.mp hf
    have hle := h.nonneg g hg
    split <;> exact hle
  le_uptime := by
    intro f hf
    obtain ⟨g, hg, rfl⟩ := List.mem_map.mp hf
    have hle := h.le_uptime g hg
    split <;> exact hle
  sorted := by
    refine pairwise_map.mpr (h.sorted.imp ?_)
    intro f g hle
    split <;> split <;> exact hle

theorem fillQueue_inOrder (h : s.InOrder) (hfill : fillQueue fuel s frag frent = some (r, s')) :
    s'.InOrder := by
  rw [fillQueue] at hfill
  split at hfill
  · cases hfill
  · obtain ⟨s₁, hfree, hfill⟩ := bind_eq_some_iff.mp hfill
    cases hfill
    have h₁ := h.trimmed (pfFreeFragment_eq_some hfree).1
    exact ⟨h₁.uptime, h₁.nonneg, h₁.le_uptime, h₁.sorted⟩
  · cases hfill
    exact h.setQueue _ _ _ _
  · cases hfill
    exact h.setQueue _ _ _ _

theorem newQueue_inOrder (h : s.InOrder) (hlt : s.timeUptime < 2 ^ 31)
    (hnew : newQueue fuel s key frent = some (r, s')) : s'.InOrder := by
  rw [newQueue] at hnew
  obtain ⟨⟨old, tree⟩, -, hnew⟩ := bind_eq_some_iff.mp hnew
  cases hnew
  have huptime := h.uptime
  have htime : int32 s.timeUptime = s.timeUptime := int32_of_range (by omega) hlt
  refine ⟨h.uptime, ?_, ?_, ?_⟩
  · intro f hf
    rcases mem_cons.mp hf with rfl | hf
    · exact huptime.trans_eq htime.symm
    · exact h.nonneg f hf
  · intro f hf
    rcases mem_cons.mp hf with rfl | hf
    · exact le_of_eq htime
    · exact h.le_uptime f hf
  · refine pairwise_cons.mpr ⟨?_, h.sorted⟩
    intro g hg
    rw [htime]
    exact h.le_uptime g hg

/-! ## Runs -/

/-- A fragment that arrives for a queue finds no later queue, and the time of a queue is a
    number that an `int32_t` holds. -/
def KeepsOrder (s : PfFragCache) : PfFragOp → Prop
  | .fillup key frent _ =>
    badFragment frent = true ∨
      s.timeUptime < 2 ^ 31 ∧
        ∀ fuel frag s', pfFindFragment fuel s key = some (some frag, s') →
          ∀ g ∈ s.fragqueue, g.frTimeout ≤ frag.frTimeout
  | _ => True

theorem pfFillup_inOrder (h : s.InOrder)
    (hok : KeepsOrder s (.fillup key frent mem))
    (hfill : pfFillup fuel s key frent mem = some (r, s')) : s'.InOrder := by
  rw [pfFillup] at hfill
  split at hfill
  · cases hfill
    exact ⟨h.uptime, h.nonneg, h.le_uptime, h.sorted⟩
  · rename_i hgood
    obtain ⟨hlt, hlatest⟩ := hok.resolve_left hgood
    obtain ⟨⟨frag?, s₁⟩, hfind, hrest⟩ := bind_eq_some_iff.mp hfill
    clear hfill
    obtain ⟨rfl, rfl⟩ | ⟨frag, rfl, hmem, rfl⟩ := pfFindFragment_eq_some hfind
    · obtain ⟨⟨got, s₂⟩, hget, hnew⟩ := bind_eq_some_iff.mp hrest
      have htrim := poolGetFlush_trimmed hget
      have h₂ := h.trimmed htrim
      cases got with
      | false =>
        cases hnew
        exact ⟨h₂.uptime, h₂.nonneg, h₂.le_uptime, h₂.sorted⟩
      | true => exact newQueue_inOrder h₂ (htrim.2.trans_lt hlt) hnew
    · exact fillQueue_inOrder (h.toHead hmem (hlatest fuel frag _ hfind)) hrest

theorem pfFragStep_inOrder {op : PfFragOp} (h : s.InOrder) (hok : KeepsOrder s op)
    (hstep : pfFragStep fuel s op = some s') : s'.InOrder := by
  cases op with
  | create mem =>
    obtain ⟨⟨got, s₁⟩, hget, hstep⟩ := bind_eq_some_iff.mp hstep
    cases hstep
    have h₁ := h.trimmed (poolGetFlush_trimmed hget)
    split
    · exact ⟨h₁.uptime, h₁.nonneg, h₁.le_uptime, h₁.sorted⟩
    · exact h₁
  | fillup key frent mem =>
    obtain ⟨⟨r, s₁⟩, hfill, hstep⟩ := map_eq_some_iff.mp hstep
    cases hstep
    exact pfFillup_inOrder h hok hfill
  | free ptr => exact h.trimmed (pfFreeFragment_eq_some hstep).1
  | flush => exact h.trimmed (flushLoop_trimmed _ hstep)
  | purge timeout => exact h.trimmed (purgeLoop_trimmed _ hstep)
  | tick seconds =>
    cases hstep
    have huptime := h.uptime
    refine ⟨?_, h.nonneg, ?_, h.sorted⟩
    · simp only
      omega
    · intro f hf
      have hle := h.le_uptime f hf
      simp only
      omega

theorem PfFragCache.Reach.inOrder (hr : s.Reach KeepsOrder) : s.InOrder := by
  induction hr with
  | init timeUptime =>
    exact ⟨Int.natCast_nonneg _, fun _ hf => absurd hf not_mem_nil,
      fun _ hf => absurd hf not_mem_nil, List.Pairwise.nil⟩
  | step op _ hok hstep ih =>
    obtain ⟨n, hn⟩ := hstep
    exact pfFragStep_inOrder ih hok (hn n (Nat.le_refl n))

/-! ## The purge -/

theorem PfFragCache.InOrder.live_of_last (h : s.InOrder) (hlast : s.fragqueue.getLast? = some frag)
    (hlive : expire < frag.frTimeout) : ∀ f ∈ s.fragqueue, expire < f.frTimeout := by
  obtain ⟨l, hlist⟩ := getLast?_eq_some_iff.mp hlast
  have hsorted := h.sorted
  rw [hlist] at hsorted ⊢
  have hle := (pairwise_append.mp hsorted).2.2
  intro f hf
  rcases mem_append.mp hf with hf | hf
  · exact hlive.trans_le (hle f hf frag mem_cons_self)
  · rw [mem_singleton.mp hf]
    exact hlive

theorem purgeLoop_live : ∀ (n : Nat) {s s' : PfFragCache}, s.InOrder →
    s.fragqueue.length ≤ n → purgeLoop fuel expire n s = some s' →
    ∀ f ∈ s'.fragqueue, expire < f.frTimeout := by
  intro n
  induction n with
  | zero =>
    intro s s' _ hlen h
    cases h
    intro f hf
    rw [length_eq_zero_iff.mp (Nat.le_zero.mp hlen)] at hf
    exact absurd hf not_mem_nil
  | succ n ih =>
    intro s s' hs hlen h
    rw [purgeLoop] at h
    split at h
    · rename_i hnone
      cases h
      intro f hf
      rw [getLast?_eq_none_iff.mp hnone] at hf
      exact absurd hf not_mem_nil
    · rename_i frag hlast
      split at h
      · rename_i hlive
        cases h
        exact hs.live_of_last hlast hlive
      · obtain ⟨s₁, hfree, hrest⟩ := bind_eq_some_iff.mp h
        obtain ⟨htrim, -, hone⟩ := pfFreeFragment_eq_some hfree
        exact ih (hs.trimmed htrim) (by omega) hrest

/-- While no fragment moves a queue in front of a later one, `pf_purge_expired_fragments` leaves
    no expired queue; it returns where the tree has the queues. -/
theorem pfPurgeExpiredFragments_leaves_live (hr : s.Reach KeepsOrder) (timeout : Nat)
    (hlt : s.timeUptime - timeout < 2 ^ 31) :
    (∀ fuel s', pfPurgeExpiredFragments fuel s timeout = some s' →
        ∀ f ∈ s'.fragqueue, ¬f.frTimeout ≤ s.timeUptime - timeout) ∧
      (s.Reach FindsQueues →
        ∃ s', Returns (fun fuel => pfPurgeExpiredFragments fuel s timeout) s') := by
  have hs := hr.inOrder
  refine ⟨?_, ?_⟩
  · intro fuel s' hpurge f hf
    have hmem : f ∈ s.fragqueue := (purgeLoop_trimmed _ hpurge).1.subset hf
    by_cases hneg : s.timeUptime < timeout
    · -- no queue is that old
      have hnonneg := hs.nonneg f hmem
      omega
    · have hlive := purgeLoop_live _ hs (Nat.le_refl _) hpurge f hf
      rw [int32_of_range (by omega) hlt] at hlive
      exact Int.not_le.mpr hlive
  · intro hfinds
    obtain ⟨s', hret, -⟩ := purgeLoop_returns (int32 (s.timeUptime - timeout)) s.fragqueue.length s
      hfinds.sound
    exact ⟨s', hret⟩

theorem pfPurgeExpiredFragments_leaves_live_one :
    ∃ s s' : PfFragCache, s.fragqueue.length = 1 ∧ s.timeUptime = 10 ∧
      Returns (fun fuel => pfPurgeExpiredFragments fuel s 5) s' ∧
      ∀ f ∈ s'.fragqueue, ¬f.frTimeout ≤ 10 - 5 := by
  have hnone : ∀ f ∈ (PfFragCache.init 0).fragqueue, False := fun f hf => not_mem_nil hf
  obtain ⟨s, hs, hlen, htime⟩ : ∃ s, pfFragStep 2 (.init 0) (.fillup (keyOfId 5) firstFrent
      (true, true)) = some s ∧ s.fragqueue.length = 1 ∧ s.timeUptime = 0 := ⟨_, rfl, rfl, rfl⟩
  have hfill := pfFragStep_settles _ _ 2 _ hs
  have hfinds : FindsQueues (.init 0) (.fillup (keyOfId 5) firstFrent (true, true)) :=
    .inr ⟨⟨0, by decide, fun f hf => (hnone f hf).elim⟩, fun f hf => (hnone f hf).elim⟩
  have hkeeps : KeepsOrder (.init 0) (.fillup (keyOfId 5) firstFrent (true, true)) :=
    .inr ⟨by decide, fun _ _ _ _ f hf => (hnone f hf).elim⟩
  obtain ⟨s₁, htick, hlen₁, htime₁⟩ : ∃ s₁, Returns (fun fuel => pfFragStep fuel s (.tick 10)) s₁ ∧
      s₁.fragqueue.length = 1 ∧ s₁.timeUptime = 10 :=
    ⟨_, Returns.const _, hlen, by rw [htime]; rfl⟩
  obtain ⟨hlive, hret⟩ := pfPurgeExpiredFragments_leaves_live
    (.step (.tick 10) (.step _ (.init 0) hkeeps hfill) trivial htick) 5 (by rw [htime₁]; decide)
  obtain ⟨s', hs'⟩ := hret (.step (.tick 10) (.step _ (.init 0) hfinds hfill) trivial htick)
  obtain ⟨n, hn⟩ := id hs'
  have hall := hlive n s' (hn n (Nat.le_refl n))
  rw [htime₁] at hall
  exact ⟨s₁, s', hlen₁, htime₁, hs', hall⟩

/-- A fragment for an old queue moves it in front of a later one, behind which the purge does
    not look. -/
theorem pfPurgeExpiredFragments_leaves_expired :
    ∃ s s' : PfFragCache, s.Reach (fun _ _ => True) ∧
      Returns (fun fuel => pfPurgeExpiredFragments fuel s 15) s' ∧
      ∃ f ∈ s'.fragqueue, f.frTimeout ≤ s.timeUptime - (15 : Nat) := by
  have hrun : (([.fillup (keyOfId 1) firstFrent (true, true), .tick 10,
        .fillup (keyOfId 2) firstFrent (true, true), .tick 10,
        .fillup (keyOfId 1) { firstFrent with feOff := 16 } (true, true)].foldlM
      (pfFragStep 9) (PfFragCache.init 0)).any fun s => s.timeUptime = 20 ∧
        ((pfPurgeExpiredFragments 9 s 15).any fun s' =>
          s'.fragqueue.any fun f => f.frTimeout = 0) = true) = true := by
    decide
  obtain ⟨s, hs, hlook⟩ := (Option.any_eq_true _ _).mp hrun
  obtain ⟨htime, hpurge⟩ := of_decide_eq_true hlook
  obtain ⟨s', hs', hleft⟩ := (Option.any_eq_true _ _).mp hpurge
  obtain ⟨f, hf, hzero⟩ := List.any_eq_true.mp hleft
  refine ⟨s, s', .foldlM _ (.init 0) (fun _ _ _ => trivial) hs, purgeLoop_settles _ _ s 9 s' hs',
    f, hf, ?_⟩
  rw [of_decide_eq_true hzero, htime]
  decide

end OpenBsd.Net
