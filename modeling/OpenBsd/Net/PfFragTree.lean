/-
  OpenBsd.Net.PfFragTree

  `pf_find_fragment` finds the queue of a key, as long as the ids of the queues and of the
  key lie in one half of the circle of 32-bit ids and no queue differs from the key in its
  direction only.
-/

import OpenBsd.Net.PfFragTable

namespace OpenBsd.Net

open OpenBsd.Lib OpenBsd.Lib.RbTree OpenBsd.Sys List

/-! ## The comparison of keys -/

theorem compareWords_swap : ∀ xs ys : List Nat, 0 < compareWords xs ys ↔ compareWords ys xs < 0
  | [], ys => by cases ys <;> simp [compareWords]
  | x :: xs, [] => by simp [compareWords]
  | x :: xs, y :: ys => by
    have ih := compareWords_swap xs ys
    simp only [compareWords]
    by_cases h : x > y
    · rw [if_pos h, if_neg (Nat.lt_asymm h), if_pos h]
      omega
    · by_cases h' : x < y
      · rw [if_neg h, if_pos h', if_pos h']
        omega
      · rw [if_neg h, if_neg h', if_neg h', if_neg h]
        exact ih

theorem compareWords_trans : ∀ xs ys zs : List Nat, xs.length = ys.length →
    ys.length = zs.length → compareWords xs ys ≤ 0 → compareWords ys zs ≤ 0 →
    compareWords xs zs ≤ 0
  | [], ys, zs, _, _ => by cases zs <;> simp [compareWords]
  | x :: xs, [], zs, h, _ => by cases h
  | x :: xs, y :: ys, [], _, h => by cases h
  | x :: xs, y :: ys, z :: zs, h, h' => by
    have ih := compareWords_trans xs ys zs (Nat.succ.inj h) (Nat.succ.inj h')
    simp only [compareWords]
    intro hxy hyz
    split at hxy
    · omega
    · split at hyz
      · omega
      · split at hxy <;> split at hyz <;> split <;> omega

theorem compareWords_eq_zero : ∀ xs ys : List Nat, xs.length = ys.length →
    (compareWords xs ys = 0 ↔ xs = ys)
  | [], [], _ => by simp [compareWords]
  | [], y :: ys, h => by cases h
  | x :: xs, [], h => by cases h
  | x :: xs, y :: ys, h => by
    have ih := compareWords_eq_zero xs ys (Nat.succ.inj h)
    simp only [compareWords]
    rw [cons_eq_cons, ← ih]
    split
    · omega
    · split <;> omega

theorem PfAddr.wordsOf_length (a b : PfAddr) (af : PfAf) :
    (a.wordsOf af).length = (b.wordsOf af).length := by cases af <;> rfl

theorem pfAddrCompare_order {E : PfFragPtr → PfFragPtr → Prop} (hE : Equivalence E)
    (haf : ∀ x y, E x y → x.key.frAf = y.key.frAf) (addr : PfFragPtr → PfAddr) :
    CmpOrderOn E fun x y => pfAddrCompare (addr x) (addr y) x.key.frAf := by
  have hwords : CmpOrderOn E fun x y =>
      compareWords ((addr x).wordsOf x.key.frAf) ((addr y).wordsOf y.key.frAf) := by
    refine ⟨fun x y _ => compareWords_swap _ _, ?_⟩
    intro x y z hxy hyz
    refine compareWords_trans _ _ _ ?_ ?_
    · rw [haf x y hxy]
      exact PfAddr.wordsOf_length _ _ _
    · rw [haf y z hyz]
      exact PfAddr.wordsOf_length _ _ _
  refine hwords.congr hE ?_
  intro x y hxy
  rw [pfAddrCompare, haf x y hxy]

theorem PfAf.num_inj {a b : PfAf} (h : (a.num : Int) - b.num = 0) : a = b := by
  cases a <;> cases b <;> first | rfl | (exact absurd h (by decide))

/-- `pf_frag_compare` with the ids counted from `base` on. -/
def fragCompareFrom (base : BitVec 32) (a b : PfFragPtr) : Int :=
  thenCompare (((a.key.frId - base).toNat : Int) - (b.key.frId - base).toNat) <|
    thenCompare ((a.key.frProto : Int) - b.key.frProto) <|
      thenCompare ((a.key.frAf.num : Int) - b.key.frAf.num) <|
        thenCompare (pfAddrCompare a.key.frSrc b.key.frSrc a.key.frAf) <|
          pfAddrCompare a.key.frDst b.key.frDst a.key.frAf

theorem fragCompareFrom_order (base : BitVec 32) : CmpOrder (fragCompareFrom base) := by
  have hE : Equivalence fun _ _ : PfFragPtr => True :=
    ⟨fun _ => trivial, fun _ => trivial, fun _ _ => trivial⟩
  have hid := CmpOrderOn.sub (fun _ _ => True) fun x : PfFragPtr =>
    ((x.key.frId - base).toNat : Int)
  have hE₁ := hid.equivalence hE
  refine CmpOrderOn.cmpOrder (hid.thenCompare hE ?_)
  have hproto := CmpOrderOn.sub (fun x y : PfFragPtr =>
      True ∧ ((x.key.frId - base).toNat : Int) - (y.key.frId - base).toNat = 0)
    fun x => (x.key.frProto : Int)
  refine hproto.thenCompare hE₁ ?_
  have hE₂ := hproto.equivalence hE₁
  refine CmpOrderOn.thenCompare hE₂
    (CmpOrderOn.sub _ fun x : PfFragPtr => (x.key.frAf.num : Int)) ?_
  have hE₃ := (CmpOrderOn.sub _ fun x : PfFragPtr => (x.key.frAf.num : Int)).equivalence hE₂
  have hsrc := pfAddrCompare_order hE₃ (fun x y h => PfAf.num_inj h.2) fun x => x.key.frSrc
  refine hsrc.thenCompare hE₃ ?_
  exact pfAddrCompare_order (hsrc.equivalence hE₃) (fun x y h => PfAf.num_inj h.1.2)
    fun x => x.key.frDst

theorem pfFragCompare_eq_from {base : BitVec 32} {a b : PfFragPtr}
    (ha : (a.key.frId - base).toNat < 2 ^ 31) (hb : (b.key.frId - base).toNat < 2 ^ 31) :
    pfFragCompare a b = fragCompareFrom base a b := by
  have hid : (a.key.frId - b.key.frId).toInt =
      ((a.key.frId - base).toNat : Int) - (b.key.frId - base).toNat := by
    have hsub : a.key.frId - b.key.frId = (a.key.frId - base) - (b.key.frId - base) := by bv_omega
    rw [hsub, BitVec.toInt_sub, BitVec.toInt_eq_toNat_of_lt (by omega),
      BitVec.toInt_eq_toNat_of_lt (by omega)]
    exact Int.bmod_eq_of_le (by omega) (by omega)
  rw [pfFragCompare, fragCompareFrom, hid]

theorem pfFragCompare_eq_zero (a b : PfFragPtr) :
    pfFragCompare a b = 0 ↔ a.key.SameButDirection b.key := by
  have hid : (a.key.frId - b.key.frId).toInt = 0 ↔ a.key.frId = b.key.frId := by
    rw [← BitVec.toInt_zero (w := 32), BitVec.toInt_inj]
    bv_omega
  have haf : (a.key.frAf.num : Int) - b.key.frAf.num = 0 ↔ a.key.frAf = b.key.frAf :=
    ⟨PfAf.num_inj, fun h => by rw [h]; omega⟩
  have hproto : (a.key.frProto : Int) - b.key.frProto = 0 ↔ a.key.frProto = b.key.frProto := by
    omega
  rw [pfFragCompare, thenCompare_eq_zero, thenCompare_eq_zero, thenCompare_eq_zero,
    thenCompare_eq_zero, hid, hproto, haf, pfAddrCompare, pfAddrCompare,
    compareWords_eq_zero _ _ (PfAddr.wordsOf_length _ _ _),
    compareWords_eq_zero _ _ (PfAddr.wordsOf_length _ _ _), PfFragmentCmp.SameButDirection]

/-! ## Keys that may be compared -/

/-- The keys of the queues. -/
def PfFragCache.ptrs (s : PfFragCache) : List PfFragPtr := s.fragqueue.map PfFragment.ptr

/-- The ids of the queues and of the key lie in one half of the circle. -/
def PfFragCache.IdsNear (s : PfFragCache) (key : PfFragmentCmp) : Prop :=
  ∃ base : BitVec 32, (key.frId - base).toNat < 2 ^ 31 ∧
    ∀ f ∈ s.fragqueue, (f.ptr.key.frId - base).toNat < 2 ^ 31

/-- The key may be compared with the queues, and is not that of one in the other
    direction. -/
structure PfFragCache.Findable (s : PfFragCache) (key : PfFragmentCmp) : Prop where
  near : s.IdsNear key
  direction : ∀ f ∈ s.fragqueue, key.SameButDirection f.ptr.key →
    key.frDirection = f.ptr.key.frDirection

variable {s s' : PfFragCache} {key : PfFragmentCmp}

theorem PfFragCache.IdsNear.among (h : s.IdsNear key) (serial : Nat) :
    OrderAmong pfFragCompare (⟨key, serial⟩ :: s.ptrs) := by
  obtain ⟨base, hkey, hqueues⟩ := h
  have hnear : ∀ x ∈ (⟨key, serial⟩ : PfFragPtr) :: s.ptrs, (x.key.frId - base).toNat < 2 ^ 31 := by
    intro x hx
    rcases mem_cons.mp hx with rfl | hx
    · exact hkey
    · obtain ⟨f, hf, rfl⟩ := mem_map.mp hx
      exact hqueues f hf
  exact ⟨fragCompareFrom base, fragCompareFrom_order base,
    fun x hx y hy => pfFragCompare_eq_from (hnear x hx) (hnear y hy)⟩

/-! ## The table -/

/-- The tree has the queues of `pf_fragqueue`, in the order of their keys. -/
structure PfFragCache.Sound (s : PfFragCache) : Prop where
  tree : ∃ t, RbValid pfFragCompare s.tree t ∧ t.toList.Perm s.ptrs
  among : OrderAmong pfFragCompare s.ptrs

theorem PfFragCache.Sound.nodup (h : s.Sound) : s.ptrs.Nodup := by
  obtain ⟨t, hv, hperm⟩ := h.tree
  exact hperm.nodup_iff.mp (hv.nodup (h.among.mono hperm.subset))

theorem PfFragCache.frag_mem {ptr : PfFragPtr} {frag : PfFragment} (h : s.frag ptr = some frag) :
    frag ∈ s.fragqueue ∧ frag.ptr = ptr := by
  rw [PfFragCache.frag] at h
  have hptr := find?_some h
  exact ⟨mem_of_find?_eq_some h, of_decide_eq_true hptr⟩

theorem PfFragCache.Sound.frag_eq (h : s.Sound) {f : PfFragment} (hf : f ∈ s.fragqueue) :
    s.frag f.ptr = some f := by
  cases hfind : s.frag f.ptr with
  | none =>
    have hnot := find?_eq_none.mp hfind f hf
    exact absurd (decide_eq_true rfl) hnot
  | some g =>
    obtain ⟨hg, hptr⟩ := PfFragCache.frag_mem hfind
    rw [inj_on_of_nodup_map h.nodup hg hf hptr]

theorem PfFragCache.ptrs_unlink {f : PfFragment} (hf : f ∈ s.fragqueue) :
    s.ptrs.Perm (f.ptr :: (s.unlink f.ptr).map PfFragment.ptr) := by
  obtain ⟨g, l₁, l₂, -, hg, hlist, herase⟩ :=
    exists_of_eraseP hf (p := fun g => decide (g.ptr = f.ptr)) (decide_eq_true rfl)
  rw [PfFragCache.ptrs, PfFragCache.unlink, herase, hlist, map_append, map_append,
    map_cons, of_decide_eq_true hg]
  exact perm_middle

theorem PfFragCache.Sound.perm (h : s.Sound) (htree : s'.tree = s.tree)
    (hperm : s.ptrs.Perm s'.ptrs) : s'.Sound := by
  obtain ⟨t, hv, ht⟩ := h.tree
  exact ⟨⟨t, by rw [htree]; exact hv, ht.trans hperm⟩, h.among.mono hperm.symm.subset⟩

theorem pfFreeFragment_returns (h : s.Sound) {f : PfFragment} (hf : f ∈ s.fragqueue) :
    ∃ s', Returns (fun fuel => pfFreeFragment fuel s f.ptr) s' ∧ s'.Sound ∧
      s'.fragqueue = s.unlink f.ptr ∧ s'.timeUptime = s.timeUptime := by
  obtain ⟨t, hv, hperm⟩ := h.tree
  have hmem : f.ptr ∈ t.toList := hperm.mem_iff.mpr (mem_map_of_mem hf)
  have hto : OrderAmong pfFragCompare t.toList := h.among.mono hperm.subset
  obtain ⟨tree, t', l, r, hret, hv', hl, hl'⟩ := rbRemove_among hto hv hmem
  refine ⟨{ s with
    tree
    fragqueue := s.unlink f.ptr
    nfrents := s.nfrents - f.frQueue.length }, ?_, ⟨⟨t', hv', ?_⟩, ?_⟩, rfl, rfl⟩
  · refine hret.bind ?_
    rw [h.frag_eq hf]
    exact Returns.const _
  · have hcons : (f.ptr :: (l ++ r)).Perm (f.ptr :: (s.unlink f.ptr).map PfFragment.ptr) := by
      refine perm_middle.symm.trans ?_
      rw [← hl]
      exact hperm.trans (PfFragCache.ptrs_unlink hf)
    rw [hl']
    exact hcons.cons_inv
  · exact h.among.mono (map_subset _ eraseP_subset)

theorem pfFindFragment_returns (h : s.Sound) (hnear : s.IdsNear key) :
    (∃ f ∈ s.fragqueue, key.SameButDirection f.ptr.key ∧
      Returns (fun fuel => pfFindFragment fuel s key)
        (some f, { s with fragqueue := f :: s.unlink f.ptr })) ∨
      (∀ f ∈ s.fragqueue, ¬key.SameButDirection f.ptr.key) ∧
        Returns (fun fuel => pfFindFragment fuel s key) (none, s) := by
  obtain ⟨t, hv, hperm⟩ := h.tree
  have hamong : OrderAmong pfFragCompare (⟨key, 0⟩ :: t.toList) :=
    (hnear.among 0).mono (cons_subset_cons _ hperm.subset)
  rcases rbFind_among hamong hv with ⟨x, hx, hzero, hret⟩ | ⟨hne, hret⟩
  · obtain ⟨f, hf, rfl⟩ := mem_map.mp (hperm.mem_iff.mp hx)
    refine .inl ⟨f, hf, (pfFragCompare_eq_zero _ _).mp hzero, hret.bind ?_⟩
    simp only [h.frag_eq hf]
    exact Returns.const _
  · refine .inr ⟨?_, hret.bind (Returns.const _)⟩
    intro f hf hsame
    exact hne f.ptr (hperm.mem_iff.mpr (mem_map_of_mem hf))
      ((pfFragCompare_eq_zero ⟨key, 0⟩ f.ptr).mpr hsame)

theorem PfFragCache.Sound.toHead (h : s.Sound) {f : PfFragment} (hf : f ∈ s.fragqueue) :
    PfFragCache.Sound { s with fragqueue := f :: s.unlink f.ptr } :=
  h.perm rfl (PfFragCache.ptrs_unlink hf)

theorem PfFragCache.Sound.setQueue (h : s.Sound) (ptr : PfFragPtr) (q : List PfFrent)
    (maxlen : Nat) (nfrents : Int) :
    PfFragCache.Sound { s with fragqueue := s.setQueue ptr q maxlen, nfrents } := by
  refine h.perm rfl (List.Perm.of_eq ?_)
  rw [PfFragCache.ptrs, PfFragCache.ptrs, PfFragCache.setQueue, map_map]
  apply map_congr_left
  intro f _
  simp only [Function.comp_apply]
  split <;> rfl

theorem newQueue_returns (h : s.Sound) (frent : PfFrent)
    (hamong : OrderAmong pfFragCompare (⟨key, s.serial⟩ :: s.ptrs))
    (hnew : ∀ f ∈ s.fragqueue, ¬key.SameButDirection f.ptr.key) :
    ∃ f s', Returns (fun fuel => newQueue fuel s key frent) (some f, s') ∧ s'.Sound ∧
      s'.fragqueue = f :: s.fragqueue ∧ f.ptr.key = key := by
  obtain ⟨t, hv, hperm⟩ := h.tree
  have hne : ∀ x ∈ t.toList, pfFragCompare ⟨key, s.serial⟩ x ≠ 0 := by
    intro x hx hzero
    obtain ⟨f, hf, rfl⟩ := mem_map.mp (hperm.mem_iff.mp hx)
    exact hnew f hf ((pfFragCompare_eq_zero _ _).mp hzero)
  obtain ⟨tree, t', l, r, hret, hv', hl, hl'⟩ :=
    rbInsert_among (hamong.mono (cons_subset_cons _ hperm.subset)) hv hne
  refine ⟨⟨⟨key, s.serial⟩, int32 s.timeUptime, [frent], frent.feLen⟩, _,
    hret.bind (Returns.const _), ⟨⟨t', hv', ?_⟩, hamong⟩, rfl, rfl⟩
  rw [hl']
  refine perm_middle.trans ?_
  rw [← hl]
  exact hperm.cons _

/-! ## Loops that free queues -/

theorem flushLoop_returns (goal : Int) : ∀ (n : Nat) (s : PfFragCache), s.Sound →
    ∃ s', Returns (fun fuel => flushLoop fuel goal n s) s' ∧ s'.Sound ∧
      s'.fragqueue ⊆ s.fragqueue := by
  intro n
  induction n with
  | zero => exact fun s h => ⟨s, Returns.const _, h, List.Subset.refl _⟩
  | succ n ih =>
    intro s h
    simp only [flushLoop]
    by_cases hgoal : goal < s.nfrents
    · cases hlast : s.fragqueue.getLast? with
      | none =>
        simp only [if_pos hgoal]
        exact ⟨s, Returns.const _, h, List.Subset.refl _⟩
      | some f =>
        simp only [if_pos hgoal]
        have hf := mem_of_getLast? hlast
        obtain ⟨s₁, hfree, hs₁, hlist, -⟩ := pfFreeFragment_returns h hf
        obtain ⟨s₂, hrest, hs₂, hsub⟩ := ih s₁ hs₁
        refine ⟨s₂, hfree.bind hrest, hs₂, fun g hg => ?_⟩
        have hg' : g ∈ s.unlink f.ptr := by
          rw [← hlist]
          exact hsub hg
        exact mem_of_mem_eraseP hg'
    · simp only [if_neg hgoal]
      exact ⟨s, Returns.const _, h, List.Subset.refl _⟩

theorem purgeLoop_returns (expire : Int) : ∀ (n : Nat) (s : PfFragCache), s.Sound →
    ∃ s', Returns (fun fuel => purgeLoop fuel expire n s) s' ∧ s'.Sound := by
  intro n
  induction n with
  | zero => exact fun s h => ⟨s, Returns.const _, h⟩
  | succ n ih =>
    intro s h
    simp only [purgeLoop]
    cases hlast : s.fragqueue.getLast? with
    | none => exact ⟨s, Returns.const _, h⟩
    | some f =>
      simp only
      by_cases hlive : f.frTimeout > expire
      · simp only [if_pos hlive]
        exact ⟨s, Returns.const _, h⟩
      · simp only [if_neg hlive]
        obtain ⟨s₁, hfree, hs₁, -⟩ := pfFreeFragment_returns h (mem_of_getLast? hlast)
        obtain ⟨s₂, hrest, hs₂⟩ := ih s₁ hs₁
        exact ⟨s₂, hfree.bind hrest, hs₂⟩

theorem poolGetFlush_returns (h : s.Sound) (mem : Bool × Bool) :
    ∃ got s', Returns (fun fuel => poolGetFlush fuel s mem) (got, s') ∧ s'.Sound ∧
      s'.fragqueue ⊆ s.fragqueue := by
  simp only [poolGetFlush]
  by_cases hmem : mem.1 = true
  · simp only [if_pos hmem]
    exact ⟨true, s, Returns.const _, h, List.Subset.refl _⟩
  · simp only [if_neg hmem]
    obtain ⟨s', hret, hs', hsub⟩ := flushLoop_returns (Int.tdiv (s.nfrents * 9) 10)
      s.fragqueue.length s h
    exact ⟨mem.2, s', hret.map _, hs', hsub⟩

/-! ## Steps -/

theorem fillQueue_sound (h : s.Sound) {f : PfFragment} (hf : f ∈ s.fragqueue) {frent : PfFrent}
    {r : Option PfFragment} (hfill : Returns (fun fuel => fillQueue fuel s f frent) (r, s')) :
    s'.Sound := by
  simp only [fillQueue] at hfill
  split at hfill
  · obtain ⟨n, hn⟩ := hfill
    cases hn n (Nat.le_refl n)
  · obtain ⟨s₁, hfree, hs₁, -⟩ := pfFreeFragment_returns h hf
    cases (hfree.of_bind hfill).unique (Returns.const _)
    exact hs₁.perm rfl (List.Perm.refl _)
  · cases hfill.unique (Returns.const _)
    exact h.setQueue _ _ _ _
  · cases hfill.unique (Returns.const _)
    exact h.setQueue _ _ _ _

theorem pfFillup_sound (h : s.Sound) (hnear : s.IdsNear key) {frent : PfFrent}
    {mem : Bool × Bool} {r : Option PfFragment}
    (hfill : Returns (fun fuel => pfFillup fuel s key frent mem) (r, s')) : s'.Sound := by
  simp only [pfFillup] at hfill
  split at hfill
  · cases hfill.unique (Returns.const _)
    exact h.perm rfl (List.Perm.refl _)
  · rcases pfFindFragment_returns h hnear with ⟨f, hf, -, hfind⟩ | ⟨hnew, hfind⟩
    · exact fillQueue_sound (h.toHead hf) mem_cons_self (hfind.of_bind hfill)
    · have hrest := hfind.of_bind hfill
      obtain ⟨got, s₁, hget, hs₁, hsub⟩ := poolGetFlush_returns h mem
      have hrest' := hget.of_bind hrest
      cases got with
      | false =>
        cases hrest'.unique (Returns.const _)
        exact hs₁.perm rfl (List.Perm.refl _)
      | true =>
        have hamong := (hnear.among s₁.serial).mono
          (cons_subset_cons _ (map_subset PfFragment.ptr hsub))
        obtain ⟨f, s₂, hret, hs₂, -⟩ :=
          newQueue_returns hs₁ frent hamong fun f hf => hnew f (hsub hf)
        cases hrest'.unique hret
        exact hs₂

theorem pfFreeFragment_settles (s : PfFragCache) (ptr : PfFragPtr) :
    Settles fun fuel => pfFreeFragment fuel s ptr :=
  (rbRemove_settles _ _).bind fun _ => Settles.const _

theorem pfFindFragment_settles (s : PfFragCache) (key : PfFragmentCmp) :
    Settles fun fuel => pfFindFragment fuel s key := by
  refine (rbFind_settles _ _ _).bind ?_
  intro ptr?
  cases ptr? with
  | none => exact Settles.const _
  | some ptr => exact Settles.const _

theorem flushLoop_settles (goal : Int) : ∀ (n : Nat) (s : PfFragCache),
    Settles fun fuel => flushLoop fuel goal n s := by
  intro n
  induction n with
  | zero => exact fun s => Settles.const _
  | succ n ih =>
    intro s
    simp only [flushLoop]
    split
    · split
      · exact Settles.const _
      · exact (pfFreeFragment_settles _ _).bind ih
    · exact Settles.const _

theorem purgeLoop_settles (expire : Int) : ∀ (n : Nat) (s : PfFragCache),
    Settles fun fuel => purgeLoop fuel expire n s := by
  intro n
  induction n with
  | zero => exact fun s => Settles.const _
  | succ n ih =>
    intro s
    simp only [purgeLoop]
    split
    · exact Settles.const _
    · split
      · exact Settles.const _
      · exact (pfFreeFragment_settles _ _).bind ih

theorem poolGetFlush_settles (s : PfFragCache) (mem : Bool × Bool) :
    Settles fun fuel => poolGetFlush fuel s mem := by
  simp only [poolGetFlush]
  split
  · exact Settles.const _
  · exact (flushLoop_settles _ _ _).map _

theorem fillQueue_settles (s : PfFragCache) (f : PfFragment) (frent : PfFrent) :
    Settles fun fuel => fillQueue fuel s f frent := by
  simp only [fillQueue]
  split
  · exact Settles.const _
  · exact (pfFreeFragment_settles _ _).bind fun _ => Settles.const _
  · exact Settles.const _
  · exact Settles.const _

theorem pfFillup_settles (s : PfFragCache) (key : PfFragmentCmp) (frent : PfFrent)
    (mem : Bool × Bool) : Settles fun fuel => pfFillup fuel s key frent mem := by
  simp only [pfFillup]
  split
  · exact Settles.const _
  · refine (pfFindFragment_settles s key).bind ?_
    rintro ⟨frag?, s₁⟩
    cases frag? with
    | some f => exact fillQueue_settles s₁ f frent
    | none =>
      refine (poolGetFlush_settles s₁ mem).bind ?_
      rintro ⟨got, s₂⟩
      cases got with
      | false => exact Settles.const _
      | true => exact (rbInsert_settles _ _ _).bind fun _ => Settles.const _

theorem pfFragStep_settles (s : PfFragCache) (op : PfFragOp) :
    Settles fun fuel => pfFragStep fuel s op := by
  cases op with
  | create mem => exact (poolGetFlush_settles s mem).bind fun _ => Settles.const _
  | fillup key frent mem => exact (pfFillup_settles s key frent mem).map _
  | free ptr => exact pfFreeFragment_settles s ptr
  | flush => exact flushLoop_settles _ _ s
  | purge timeout => exact purgeLoop_settles _ _ s
  | tick seconds => exact Settles.const _

theorem PfFragCache.Reach.foldlM {ok : PfFragCache → PfFragOp → Prop} {fuel : Nat} :
    ∀ (ops : List PfFragOp) {s s' : PfFragCache}, s.Reach ok → (∀ s op, op ∈ ops → ok s op) →
      ops.foldlM (pfFragStep fuel) s = some s' → s'.Reach ok := by
  intro ops
  induction ops with
  | nil =>
    intro s s' hr _ hrun
    cases hrun
    exact hr
  | cons op ops ih =>
    intro s s' hr hok hrun
    rw [foldlM_cons] at hrun
    obtain ⟨s₁, hstep, hrest⟩ := Option.bind_eq_some_iff.mp hrun
    have hs₁ := Reach.step op hr (hok s op mem_cons_self) (pfFragStep_settles s op fuel s₁ hstep)
    exact ih hs₁ (fun s op hop => hok s op (mem_cons_of_mem _ hop)) hrest

/-! ## Runs -/

/-- A fragment that is not malformed comes with a key that may be compared with the queues and
    is not that of one in the other direction. -/
def FindsQueues (s : PfFragCache) : PfFragOp → Prop
  | .fillup key frent _ => badFragment frent = true ∨ s.Findable key
  | _ => True

theorem pfFillup_bad {frent : PfFrent} {mem : Bool × Bool} {fuel : Nat}
    (hbad : badFragment frent = true) :
    pfFillup fuel s key frent mem = some (none, s.putFrent) := by
  rw [pfFillup, if_pos hbad]

theorem pfFragStep_sound {op : PfFragOp} (h : s.Sound) (hok : FindsQueues s op)
    (hstep : Returns (fun fuel => pfFragStep fuel s op) s') : s'.Sound := by
  cases op with
  | create mem =>
    obtain ⟨got, s₁, hget, hs₁, -⟩ := poolGetFlush_returns h mem
    cases (hget.of_bind hstep).unique (Returns.const _)
    split
    · exact hs₁.perm rfl (List.Perm.refl _)
    · exact hs₁
  | fillup key frent mem =>
    obtain ⟨n, hn⟩ := hstep
    obtain ⟨⟨r, s₁⟩, hfill, heq⟩ := Option.map_eq_some_iff.mp (hn n (Nat.le_refl n))
    cases heq
    rcases hok with hbad | hfind
    · rw [pfFillup_bad hbad] at hfill
      cases hfill
      exact h.perm rfl (List.Perm.refl _)
    · exact pfFillup_sound h hfind.near (pfFillup_settles s key frent mem n _ hfill)
  | free ptr =>
    obtain ⟨n, hn⟩ := hstep
    obtain ⟨removed, -, hrest⟩ := Option.bind_eq_some_iff.mp (hn n (Nat.le_refl n))
    obtain ⟨f, hfrag, -⟩ := Option.bind_eq_some_iff.mp hrest
    obtain ⟨hf, rfl⟩ := PfFragCache.frag_mem hfrag
    obtain ⟨s₁, hfree, hs₁, -⟩ := pfFreeFragment_returns h hf
    cases hfree.unique ⟨n, hn⟩
    exact hs₁
  | flush =>
    obtain ⟨s₁, hflush, hs₁, -⟩ := flushLoop_returns _ s.fragqueue.length s h
    cases hflush.unique hstep
    exact hs₁
  | purge timeout =>
    obtain ⟨s₁, hpurge, hs₁⟩ := purgeLoop_returns _ s.fragqueue.length s h
    cases hpurge.unique hstep
    exact hs₁
  | tick seconds =>
    cases hstep.unique (Returns.const _)
    exact h.perm rfl (List.Perm.refl _)

theorem PfFragCache.init_sound (timeUptime : Int) : (PfFragCache.init timeUptime).Sound where
  tree := ⟨.nil, ⟨⟨trivial, rfl⟩, List.Pairwise.nil, rfl, trivial, 0, rfl⟩, List.Perm.refl _⟩
  among := ⟨fragCompareFrom 0, fragCompareFrom_order 0, fun _ hx => absurd hx not_mem_nil⟩

theorem PfFragCache.Reach.sound (hr : s.Reach FindsQueues) : s.Sound := by
  induction hr with
  | init timeUptime => exact PfFragCache.init_sound timeUptime
  | step op _ hok hstep ih => exact pfFragStep_sound ih hok hstep

/-! ## Lookups -/

theorem PfFragmentCmp.SameButDirection.symm {a b : PfFragmentCmp} (h : a.SameButDirection b) :
    b.SameButDirection a := by
  obtain ⟨hid, hproto, haf, hsrc, hdst⟩ := h
  rw [haf] at hsrc hdst
  exact ⟨hid.symm, hproto.symm, haf.symm, hsrc.symm, hdst.symm⟩

theorem PfFragmentCmp.SameButDirection.trans {a b c : PfFragmentCmp} (h : a.SameButDirection b)
    (h' : b.SameButDirection c) : a.SameButDirection c := by
  obtain ⟨hid, hproto, haf, hsrc, hdst⟩ := h
  obtain ⟨hid', hproto', haf', hsrc', hdst'⟩ := h'
  rw [← haf] at hsrc' hdst'
  exact ⟨hid.trans hid', hproto.trans hproto', haf.trans haf', hsrc.trans hsrc', hdst.trans hdst'⟩

theorem PfFragCache.Sound.eq_of_same (h : s.Sound) {f g : PfFragment} (hf : f ∈ s.fragqueue)
    (hg : g ∈ s.fragqueue) (hsame : f.ptr.key.SameButDirection g.ptr.key) : f = g := by
  obtain ⟨t, hv, hperm⟩ := h.tree
  obtain ⟨cmp', ho, hcmp⟩ := h.among
  have hf' : f.ptr ∈ s.ptrs := mem_map_of_mem hf
  have hg' : g.ptr ∈ s.ptrs := mem_map_of_mem hg
  have hv' : RbValid cmp' s.tree t := hv.congr fun x hx y hy =>
    hcmp x (hperm.subset hx) y (hperm.subset hy)
  have hzero : cmp' f.ptr g.ptr = 0 := by
    rw [← hcmp f.ptr hf' g.ptr hg']
    exact (pfFragCompare_eq_zero _ _).mpr hsame
  have hptr : f.ptr = g.ptr := by
    by_contra hne
    exact ho.ne_zero hv'.ordered (hperm.mem_iff.mpr hf') (hperm.mem_iff.mpr hg') hne hzero
  exact inj_on_of_nodup_map h.nodup hf hg hptr

/-- While the fragments that come find their queues, `pf_find_fragment` finds the queue whose
    key is the same, and nothing where there is none. -/
theorem pfFindFragment_finds_key (hr : s.Reach FindsQueues) (hkey : s.Findable key) :
    (∀ f ∈ s.fragqueue, key.Same f.ptr.key →
        Returns (fun fuel => (pfFindFragment fuel s key).map Prod.fst) (some f)) ∧
      ((∀ f ∈ s.fragqueue, ¬key.Same f.ptr.key) →
        Returns (fun fuel => (pfFindFragment fuel s key).map Prod.fst) none) := by
  have hs := hr.sound
  rcases pfFindFragment_returns hs hkey.near with ⟨f, hf, hsame, hfind⟩ | ⟨hnone, hfind⟩
  · have hfind := hfind.map Prod.fst
    refine ⟨?_, fun hnot => absurd ⟨hsame, hkey.direction f hf hsame⟩ (hnot f hf)⟩
    intro g hg hsame'
    rw [hs.eq_of_same hg hf (hsame'.1.symm.trans hsame)]
    exact hfind
  · exact ⟨fun f hf hsame => absurd hsame.1 (hnone f hf), fun _ => hfind.map Prod.fst⟩

def keyOfId (id : BitVec 32) : PfFragmentCmp :=
  ⟨⟨1, 0, 0, 0⟩, ⟨2, 0, 0, 0⟩, id, .inet, 17, 0⟩

/-- A first fragment of 8 bytes. -/
def firstFrent : PfFrent := ⟨20, 8, 0, true, []⟩

theorem pfFindFragment_finds_key_one :
    ∃ s : PfFragCache, ∃ f ∈ s.fragqueue, f.ptr.key = keyOfId 5 ∧
      Returns (fun fuel => (pfFindFragment fuel s (keyOfId 5)).map Prod.fst) (some f) := by
  have hinit : PfFragCache.Findable (.init 0) (keyOfId 5) :=
    ⟨⟨0, by decide, fun f hf => absurd hf not_mem_nil⟩, fun f hf => absurd hf not_mem_nil⟩
  obtain ⟨s, hs, hlist⟩ : ∃ s, pfFragStep 2 (.init 0)
      (.fillup (keyOfId 5) firstFrent (true, true)) = some s ∧ s.fragqueue = [⟨⟨keyOfId 5, 1⟩, 0, [firstFrent], 8⟩] := ⟨_, rfl, rfl⟩
  have hr : s.Reach FindsQueues :=
    .step (.fillup (keyOfId 5) firstFrent (true, true)) (.init 0) (.inr hinit)
      (pfFragStep_settles _ _ 2 _ hs)
  have hmem : ⟨⟨keyOfId 5, 1⟩, 0, [firstFrent], 8⟩ ∈ s.fragqueue := by
    rw [hlist]
    exact mem_cons_self
  have hfind : s.Findable (keyOfId 5) := by
    refine ⟨⟨0, by decide, ?_⟩, ?_⟩
    · intro f hf
      rw [hlist, mem_singleton] at hf
      rw [hf]
      decide
    · intro f hf _
      rw [hlist, mem_singleton] at hf
      rw [hf]
  exact ⟨s, _, hmem, rfl,
    (pfFindFragment_finds_key hr hfind).1 _ hmem ⟨⟨rfl, rfl, rfl, rfl, rfl⟩, rfl⟩⟩

/-- Three ids that go around the circle: when the queue at the root of the tree is freed, one
    of the other two is not found any more. -/
theorem pfFindFragment_misses_key :
    ∃ s : PfFragCache, s.Reach (fun _ _ => True) ∧
      ∃ f ∈ s.fragqueue, f.ptr.key = keyOfId 0xC0000000 ∧
        Returns (fun fuel => (pfFindFragment fuel s (keyOfId 0xC0000000)).map Prod.fst) none := by
  have hrun : (([.fillup (keyOfId 0) firstFrent (true, true),
        .fillup (keyOfId 0x60000000) firstFrent (true, true),
        .fillup (keyOfId 0xC0000000) firstFrent (true, true), .free ⟨keyOfId 0, 1⟩].foldlM
      (pfFragStep 9) (PfFragCache.init 0)).any fun s =>
        s.fragqueue.map (fun f => f.ptr.key) = [keyOfId 0xC0000000, keyOfId 0x60000000] ∧
          ((pfFindFragment 9 s (keyOfId 0xC0000000)).any fun r => r.1.isNone) = true) = true := by
    decide
  obtain ⟨s, hs, hlook⟩ := (Option.any_eq_true _ _).mp hrun
  obtain ⟨hkeys, hnone⟩ := of_decide_eq_true hlook
  obtain ⟨⟨r, s'⟩, hfind, hr⟩ := (Option.any_eq_true _ _).mp hnone
  have hmem : keyOfId 0xC0000000 ∈ s.fragqueue.map (fun f => f.ptr.key) := by
    rw [hkeys]
    exact mem_cons_self
  obtain ⟨f, hf, hkey⟩ := mem_map.mp hmem
  refine ⟨s, .foldlM _ (.init 0) (fun _ _ _ => trivial) hs, f, hf, hkey, ?_⟩
  obtain rfl : r = none := Option.isNone_iff_eq_none.mp hr
  exact (pfFindFragment_settles s (keyOfId 0xC0000000) 9 _ hfind).map Prod.fst

end OpenBsd.Net
