/-
  OpenBsd.Msdosfs.MsdosfsFatAlloc

  `clusteralloc`: what `fatchain` links, what `chainlength` and the search find, and that
  the map and the count follow the FAT afterwards.
-/

import OpenBsd.Msdosfs.MsdosfsFatSafe

namespace OpenBsd.Msdosfs

open OpenBsd.Lib

/-! ## Links -/

/-- What `fatchain` writes for a cluster in front of `last`. -/
def newc (last fillwith cn : Nat) : Nat := if cn + 1 < last then cn + 1 else fillwith

/-- The entries of `start` up to `stop` now link the clusters in front of `last`, the last of
    which has `fillwith`, and no other entry changed. -/
def Linked (t : FatType) (b b' : Bytes) (start stop last fillwith : Nat) : Prop :=
  ∀ cn, t.entry b' cn =
    if start ≤ cn ∧ cn < stop then newc last fillwith cn % (t.fatmask + 1) else t.entry b cn

section

variable {t : FatType} {b b' b'' : Bytes} {start mid stop last fillwith : Nat}

theorem Linked.refl : Linked t b b start start last fillwith := by
  intro cn
  rw [if_neg (by omega)]

theorem Linked.trans (h : Linked t b b' start mid last fillwith)
    (h' : Linked t b' b'' mid stop last fillwith) (h1 : start ≤ mid) (h2 : mid ≤ stop) :
    Linked t b b'' start stop last fillwith := by
  intro cn
  rw [h' cn, h cn]
  by_cases hmid : mid ≤ cn ∧ cn < stop
  · rw [if_pos hmid, if_pos (by omega)]
  · rw [if_neg hmid]
    by_cases hlow : start ≤ cn ∧ cn < mid
    · rw [if_pos hlow, if_pos (by omega)]
    · rw [if_neg hlow, if_neg (by omega)]

theorem Linked.single :
    Linked t b (t.setEntry b start (newc last fillwith start)) start (start + 1) last
      fillwith := by
  intro cn
  by_cases heq : cn = start
  · subst heq
    rw [if_pos (by omega), t.entry_setEntry_same]
  · rw [if_neg (by omega), t.entry_setEntry_other _ _ heq]

theorem fatofs_succ (t : FatType) (cn : Nat) : t.fatofs (cn + 1) = t.fatofs cn + boStep t cn := by
  cases t with
  | fat12 =>
    show _ = _ + if (cn + 1) % 2 = 1 then 1 else 2
    obtain ⟨k, rfl | rfl⟩ : ∃ k, cn = 2 * k ∨ cn = 2 * k + 1 := ⟨cn / 2, by omega⟩
    · rw [fatofs_odd, fatofs_even, if_pos (by omega)]
    · have hk : 2 * k + 1 + 1 = 2 * (k + 1) := by omega
      rw [if_neg (by omega), hk, fatofs_even, fatofs_odd]
      omega
  | fat16 =>
    rw [fatofs_fat16, fatofs_fat16]
    rfl
  | fat32 =>
    rw [fatofs_fat32, fatofs_fat32]
    rfl

/-- The inner loop of `fatchain` links a part of the chain, at least one cluster of it. -/
theorem fatchainBlock_spec {bn bsize : Nat} :
    ∀ {count start bo : Nat} {b : Bytes}, bData bn bo = t.fatofs start → 0 < count →
      ∃ stop, start < stop ∧ stop ≤ start + count ∧
        (fatchainBlock t bn bsize fillwith count start bo b).1 = start + count - stop ∧
        (fatchainBlock t bn bsize fillwith count start bo b).2.1 = stop ∧
        Linked t b (fatchainBlock t bn bsize fillwith count start bo b).2.2
          start stop (start + count) fillwith := by
  intro count
  induction count with
  | zero =>
    intro start bo b _ hpos
    exact absurd hpos (Nat.lt_irrefl 0)
  | succ n ih =>
    intro start bo b hbo _
    unfold fatchainBlock
    have hnewc : (if 0 < n then start + 1 else fillwith) =
        newc (start + (n + 1)) fillwith start := by
      unfold newc
      by_cases hn : 0 < n
      · rw [if_pos hn, if_pos (by omega)]
      · rw [if_neg hn, if_neg (by omega)]
    dsimp only
    rw [hbo, hnewc]
    have hone : Linked t b (t.setEntry b start (newc (start + (n + 1)) fillwith start))
        start (start + 1) (start + (n + 1)) fillwith := Linked.single
    have hnext : bData bn (bo + boStep t start) = t.fatofs (start + 1) := by
      rw [fatofs_succ, ← hbo]
      exact (Nat.add_assoc _ _ _).symm
    change Linked t b (t.putEntry b (t.fatofs start) start _) _ _ _ _ at hone
    generalize t.putEntry b (t.fatofs start) start (newc (start + (n + 1)) fillwith start) = b₁
      at hone ⊢
    split
    · refine ⟨start + 1, by omega, by omega, by omega, rfl, hone⟩
    · by_cases hn : 0 < n
      · obtain ⟨stop, h1, h2, h3, h4, h5⟩ := @ih (start + 1) _ b₁ hnext hn
        have hlast : start + 1 + n = start + (n + 1) := by omega
        rw [hlast] at h2 h3 h5
        exact ⟨stop, by omega, h2, h3, h4, hone.trans h5 (by omega) (by omega)⟩
      · have hzero : n = 0 := by omega
        subst hzero
        exact ⟨start + 1, by omega, by omega, by simp [fatchainBlock], rfl, hone⟩

end

variable {pmp : Msdosfsmount}

/-- No read to come fails. -/
def Reads.AllGood (io : Reads) : Prop := ∀ error ∈ io, error = false

variable {io : Reads}

theorem Reads.AllGood.bread (h : io.AllGood) :
    (Msdosfs.bread io).1 = false ∧ Reads.AllGood (Msdosfs.bread io).2 := by
  cases io with
  | nil => exact ⟨rfl, h⟩
  | cons error io =>
    exact ⟨h error List.mem_cons_self, fun e he => h e (List.mem_cons_of_mem _ he)⟩

theorem fatchainLoop_spec {fillwith : Nat} :
    ∀ {fuel count start : Nat} {b : Bytes} {io : Reads}, count ≤ fuel → io.AllGood →
      (fatchainLoop pmp fillwith fuel count start b io).1 = .ok () ∧
      Linked pmp.fat b (fatchainLoop pmp fillwith fuel count start b io).2
        start (start + count) (start + count) fillwith := by
  intro fuel
  induction fuel with
  | zero =>
    intro count start b io hle _
    have hzero : count = 0 := by omega
    subst hzero
    exact ⟨rfl, Linked.refl⟩
  | succ fuel ih =>
    intro count start b io hle hio
    unfold fatchainLoop
    by_cases hzero : count = 0
    · subst hzero
      rw [if_pos rfl]
      exact ⟨rfl, Linked.refl⟩
    · rw [if_neg hzero, hio.bread.1]
      obtain ⟨stop, h1, h2, h3, h4, h5⟩ := @fatchainBlock_spec pmp.fat fillwith
        (fatblock pmp (pmp.fatofs start)).bn (fatblock pmp (pmp.fatofs start)).bsize count start
        (fatblock pmp (pmp.fatofs start)).bo b (bData_fatblock pmp _) (by omega)
      dsimp only
      rw [if_neg Bool.false_ne_true]
      generalize fatchainBlock pmp.fat (fatblock pmp (pmp.fatofs start)).bn
        (fatblock pmp (pmp.fatofs start)).bsize fillwith count start
        (fatblock pmp (pmp.fatofs start)).bo b = r at h3 h4 h5 ⊢
      rw [h3, h4]
      obtain ⟨hok, hrest⟩ := @ih (start + count - stop) stop r.2.2 (Msdosfs.bread io).2
        (by omega) hio.bread.2
      have hend : stop + (start + count - stop) = start + count := by omega
      rw [hend] at hrest
      exact ⟨hok, h5.trans hrest (by omega) h2⟩

variable {s : FatState} {count : Nat}

/-- Taking a run of free clusters. -/
theorem chainalloc_ok {start fillwith : Nat}
    (h : MapOk pmp s) (hfree : FreeRange pmp s start count) (hio : io.AllGood)
    (hfill : fillwith % (pmp.fat.fatmask + 1) ≠ 0)
    (hmask : count ≤ 1 ∨ pmp.maxcluster ≤ pmp.fat.fatmask) :
    MapOk pmp (chainalloc pmp s start count fillwith io).2 := by
  obtain ⟨hcount, hfat, htest⟩ := usemapAllocRange_spec h.toCountOk hfree
  by_cases hzero : count = 0
  · -- nothing is taken, whether or not `fatchain` takes the arguments
    subst hzero
    have hsame : (fatchain pmp s.fat start 0 fillwith io).2 = s.fat := by
      unfold fatchain
      split
      · rfl
      · rfl
    have hres : (chainalloc pmp s start 0 fillwith io).2 = s := by
      show { s with fat := (fatchain pmp s.fat start 0 fillwith io).2 } = s
      rw [hsame]
    rw [hres]
    exact h
  · have hv1 := (hfree start (Nat.le_refl _) (by omega)).1
    have hv2 := (hfree (start + count - 1) (by omega) (by omega)).1
    have hrange : ¬ (start < clustFirst ∨ pmp.maxcluster < start + count - 1) := by
      have h1 := hv1.1
      have h2 := hv2.2
      omega
    have hlink := (@fatchainLoop_spec pmp fillwith count count start
      (usemapAllocRange s start count).fat io (Nat.le_refl _) hio).2
    have hres : (chainalloc pmp s start count fillwith io).2 = { usemapAllocRange s start count with
          fat := (fatchainLoop pmp fillwith count count start
            (usemapAllocRange s start count).fat io).2 } := by
      unfold chainalloc fatchain
      dsimp only
      rw [if_neg hrange]
    rw [hres]
    refine ⟨hcount.congr rfl rfl, ?_⟩
    intro cn hv
    show (usemapAllocRange s start count).inusemap.test cn = false ↔
      pmp.fat.entry (fatchainLoop pmp fillwith count count start
        (usemapAllocRange s start count).fat io).2 cn = 0
    rw [htest cn, hlink cn, hfat]
    by_cases hin : start ≤ cn ∧ cn < start + count
    · rw [decide_eq_true hin, if_pos hin]
      simp only [Bool.true_or, Bool.true_eq_false, false_iff]
      by_cases hlast : cn + 1 < start + count
      · -- a link fits into an entry, and it is not the mark of a free cluster
        have hnext := (hfree (cn + 1) (by omega) hlast).1.2
        have hle : pmp.maxcluster ≤ pmp.fat.fatmask := by
          rcases hmask with h1 | h1
          · omega
          · exact h1
        show newc _ _ _ % _ ≠ 0
        unfold newc
        rw [if_pos hlast, Nat.mod_eq_of_lt (by omega)]
        omega
      · show newc _ _ _ % _ ≠ 0
        unfold newc
        rw [if_neg hlast]
        exact hfill
    · rw [decide_eq_false hin, if_neg hin, Bool.false_or]
      exact h.entries cn hv

/-! ## Free runs in the map -/

/-- The bits of `start` to `start + len` are clear. -/
def ClearRun (m : Bitmap 32) (start len : Nat) : Prop :=
  ∀ cn, start ≤ cn → cn < start + len → m.test cn = false

variable {m : Bitmap 32} {len len' : Nat}

theorem ClearRun.mono {start : Nat} (h : ClearRun m start len)
    (hle : len' ≤ len) : ClearRun m start len' :=
  fun cn h1 h2 => h cn h1 (by omega)

theorem clearRun_word {start : Nat} (hlen : start % nInusebits + len ≤ nInusebits)
    (h : ∀ i, start % nInusebits ≤ i → i < start % nInusebits + len →
      (m (start / nInusebits)).getLsbD i = false) : ClearRun m start len := by
  intro cn h1 h2
  show (m (cn / nInusebits)).getLsbD (cn % nInusebits) = false
  unfold nInusebits at *
  have hdiv : cn / 32 = start / 32 := by omega
  rw [hdiv]
  apply h
  · omega
  · omega

theorem ClearRun.append {start mid : Nat} (h : ClearRun m start len)
    (h' : ClearRun m mid len') (hmid : start + len = mid) : ClearRun m start (len + len') := by
  intro cn h1 h2
  by_cases hlow : cn < start + len
  · exact h cn h1 hlow
  · exact h' cn (by omega) (by omega)

theorem chainlengthLoop_spec {m : Bitmap 32} {start count : Nat} :
    ∀ {n idx len : Nat}, start + len = idx * nInusebits → ClearRun m start len →
      ClearRun m start (chainlengthLoop m count n idx len) ∧
      start + chainlengthLoop m count n idx len ≤ (idx + n) * nInusebits := by
  intro n
  induction n with
  | zero =>
    intro idx len hlen hrun
    exact ⟨hrun, Nat.le_of_eq hlen⟩
  | succ n ih =>
    intro idx len hlen hrun
    have hdiv : idx * nInusebits / nInusebits = idx := Nat.mul_div_cancel idx (by decide)
    have hmod : idx * nInusebits % nInusebits = 0 := Nat.mul_mod_left idx nInusebits
    unfold chainlengthLoop
    split
    · refine ⟨hrun, ?_⟩
      unfold nInusebits at *
      omega
    · by_cases hword : m idx = 0
      · -- the whole word is clear
        rw [if_neg (by simp [hword])]
        have hclear : ClearRun m (idx * nInusebits) nInusebits := by
          apply clearRun_word
          · omega
          · intro i _ _
            rw [hdiv, hword]
            simp
        obtain ⟨h1, h2⟩ := @ih (idx + 1) (len + nInusebits)
          (by unfold nInusebits at *; omega) (hrun.append hclear hlen)
        refine ⟨h1, ?_⟩
        have hassoc : idx + 1 + n = idx + (n + 1) := by omega
        rw [hassoc] at h2
        exact h2
      · rw [if_pos hword]
        obtain ⟨_, hlt, _, hlow⟩ := ffs_spec hword
        have hclear : ClearRun m (idx * nInusebits) (ffs (m idx) - 1) := by
          apply clearRun_word
          · unfold nInusebits at *
            omega
          · intro i _ hi
            rw [hdiv]
            exact hlow i (by omega)
        refine ⟨hrun.append hclear hlen, ?_⟩
        unfold nInusebits at *
        omega

/-- What `chainlength` counts is clear, and inside of the words of the map. -/
theorem chainlength_spec {m : Bitmap 32} {start count : Nat}
    (hstart : start / nInusebits ≤ pmp.maxcluster / nInusebits) :
    ClearRun m start (chainlength pmp m start count) ∧
    ∀ cn, cn < start + chainlength pmp m start count →
      cn / nInusebits ≤ pmp.maxcluster / nInusebits := by
  have hbit : start % nInusebits < 32 := Nat.mod_lt _ (by decide)
  have hmask : ∀ i, start % nInusebits ≤ i → i < 32 →
      (m (start / nInusebits) &&& ~~~(lowBits 32 (start % nInusebits))).getLsbD i =
        (m (start / nInusebits)).getLsbD i := by
    intro i h1 h2
    rw [BitVec.getLsbD_and, BitVec.getLsbD_not, getLsbD_lowBits hbit, decide_eq_true h2,
      decide_eq_false (by omega)]
    simp
  unfold chainlength
  dsimp only
  by_cases hmap : m (start / nInusebits) &&& ~~~(lowBits 32 (start % nInusebits)) = 0
  · rw [if_neg (by simp [hmap])]
    -- the rest of the first word is clear
    have hfirst : ClearRun m start (nInusebits - start % nInusebits) := by
      apply clearRun_word
      · unfold nInusebits at *
        omega
      · intro i h1 h2
        have hi : i < 32 := by
          unfold nInusebits at *
          omega
        rw [← hmask i h1 hi, hmap]
        simp
    split
    · next hcount =>
      refine ⟨hfirst.mono hcount, ?_⟩
      intro cn hcn
      unfold nInusebits at *
      omega
    · obtain ⟨h1, h2⟩ := @chainlengthLoop_spec m start count
        (pmp.maxcluster / nInusebits - start / nInusebits) (start / nInusebits + 1)
        (nInusebits - start % nInusebits) (by unfold nInusebits at *; omega) hfirst
      refine ⟨h1.mono (Nat.min_le_left _ _), ?_⟩
      intro cn hcn
      generalize chainlengthLoop m count _ _ _ = r at h2 hcn
      unfold nInusebits at *
      omega
  · rw [if_pos hmap]
    obtain ⟨_, hlt, _, hlow⟩ := ffs_spec hmap
    refine ⟨?_, ?_⟩
    · apply ClearRun.mono _ (Nat.min_le_left _ _)
      apply clearRun_word
      · unfold nInusebits at *
        omega
      · intro i h1 h2
        rw [← hmask i h1 (by unfold nInusebits at *; omega)]
        exact hlow i (by omega)
    · intro cn hcn
      generalize ffs _ = r at hlt hcn
      unfold nInusebits at *
      omega

theorem chainlength_le (m : Bitmap 32) (start count : Nat) :
    chainlength pmp m start count ≤ count := by
  unfold chainlength
  dsimp only
  split
  · exact Nat.min_le_right _ _
  · split
    · exact Nat.le_refl count
    · exact Nat.min_le_right _ _

theorem CountOk.freeRange (h : CountOk pmp s) {start count len : Nat}
    (hstart : start / nInusebits ≤ pmp.maxcluster / nInusebits)
    (hlen : len ≤ chainlength pmp s.inusemap start count) : FreeRange pmp s start len := by
  obtain ⟨hclear, hidx⟩ := @chainlength_spec pmp s.inusemap start count hstart
  intro cn h1 h2
  have hcn := hclear cn h1 (by omega)
  exact ⟨h.valid (hidx cn (by omega)) hcn, hcn⟩

/-! ## The search -/

theorem nextFree_spec {cn cn' : Nat} (h : nextFree m cn = some cn') :
    cn ≤ cn' ∧ cn' / nInusebits = cn / nInusebits := by
  have hbit : cn % nInusebits < 32 := Nat.mod_lt _ (by decide)
  unfold nextFree at h
  dsimp only at h
  split at h
  · next hne =>
    have hx : (m (cn / nInusebits) ||| lowBits 32 (cn % nInusebits)) ^^^ BitVec.allOnes 32 ≠ 0 := by
      intro hzero
      exact hne (BitVec.xor_eq_zero_iff.mp hzero)
    obtain ⟨hpos, hlt, hset, _⟩ := ffs_spec hx
    have hcn' := Option.some.inj h
    -- the bits below that of `cn` are set in the word that is looked at
    have hge : cn % nInusebits ≤ ffs ((m (cn / nInusebits) |||
        lowBits 32 (cn % nInusebits)) ^^^ BitVec.allOnes 32) - 1 := by
      by_contra hlow
      rw [BitVec.getLsbD_xor, BitVec.getLsbD_or, getLsbD_lowBits hbit,
        decide_eq_true (by omega), BitVec.getLsbD_allOnes, decide_eq_true hlt] at hset
      simp at hset
    generalize ffs _ = r at hcn' hge hlt hpos
    unfold nInusebits at *
    omega
  · exact absurd h (by simp)

/-- What a search ends with. -/
def FoundOk (pmp : Msdosfsmount) (m : Bitmap 32) (count : Nat) : Found → Prop
  | .enough cn => cn / nInusebits ≤ pmp.maxcluster / nInusebits ∧
      count ≤ chainlength pmp m cn count
  | .longest foundcn foundl => foundl = 0 ∨
      (foundcn / nInusebits ≤ pmp.maxcluster / nInusebits ∧
        foundl = chainlength pmp m foundcn count)

theorem searchLoop_spec {m : Bitmap 32} {count limit : Nat} (hlimit : limit ≤ pmp.maxcluster + 1) :
    ∀ {fuel cn foundcn foundl : Nat}, FoundOk pmp m count (.longest foundcn foundl) →
      limit - cn < fuel →
      ∃ r, searchLoop pmp m count limit fuel cn foundcn foundl = some r ∧
        FoundOk pmp m count r := by
  intro fuel
  induction fuel with
  | zero =>
    intro cn foundcn foundl hfound hfuel
    exact absurd hfuel (Nat.not_lt_zero _)
  | succ fuel ih =>
    intro cn foundcn foundl hfound hfuel
    unfold searchLoop
    split
    · next hcn =>
      cases hnext : nextFree m cn with
      | none =>
        have hstep : cn % nInusebits < nInusebits := Nat.mod_lt _ (by decide)
        exact ih hfound (by omega)
      | some cn' =>
        obtain ⟨hge, hidx⟩ := nextFree_spec hnext
        have hword : cn' / nInusebits ≤ pmp.maxcluster / nInusebits := by
          rw [hidx]
          exact Nat.div_le_div_right (by omega)
        dsimp only
        split
        · next hl => exact ⟨_, rfl, hword, hl⟩
        · split
          · exact ih (Or.inr ⟨hword, rfl⟩) (by omega)
          · exact ih hfound (by omega)
    · exact ⟨_, rfl, hfound⟩

theorem search_spec {m : Bitmap 32} {count newst : Nat} (hnewst : newst ≤ pmp.maxcluster) :
    ∃ r, search pmp m count newst (pmp.maxcluster + 2) = some r ∧ FoundOk pmp m count r := by
  obtain ⟨r, hr, hok⟩ := @searchLoop_spec pmp m count (pmp.maxcluster + 1) (Nat.le_refl _)
    (pmp.maxcluster + 2) newst 0 0 (Or.inl rfl) (by omega)
  unfold search
  rw [hr]
  cases r with
  | enough cn => exact ⟨_, rfl, hok⟩
  | longest foundcn foundl => exact searchLoop_spec (by omega) hok (by omega)

/-! ## `clusteralloc` -/

/-- `clusteralloc` returns, and keeps the map and the count after the FAT, as long as `start`
    is in the map, no read fails and no entry it writes is that of a free cluster. -/
theorem clusteralloc_ok {start fillwith : Nat} (usec : Nat)
    (h : MapOk pmp s)
    (hstart : start / nInusebits ≤ pmp.maxcluster / nInusebits) (hio : io.AllGood)
    (hfill : fillwith % (pmp.fat.fatmask + 1) ≠ 0)
    (hmask : count ≤ 1 ∨ pmp.maxcluster ≤ pmp.fat.fatmask) :
    ∃ r s', clusteralloc pmp s start count fillwith usec (pmp.maxcluster + 2) io = some (r, s') ∧
      MapOk pmp s' := by
  have htake : ∀ {cn len : Nat}, FreeRange pmp s cn len → len ≤ count →
      ∃ r s', some (chainalloc pmp s cn len fillwith io) = some (r, s') ∧ MapOk pmp s' := by
    intro cn len hfree hle
    refine ⟨_, _, rfl, chainalloc_ok h hfree hio hfill ?_⟩
    rcases hmask with h1 | h1
    · exact Or.inl (by omega)
    · exact Or.inr h1
  have hlen : (if start ≠ 0 then chainlength pmp s.inusemap start count else 0) ≤
      chainlength pmp s.inusemap start count := by
    split
    · exact Nat.le_refl _
    · exact Nat.zero_le _
  unfold clusteralloc
  generalize (if start ≠ 0 then chainlength pmp s.inusemap start count else 0) = len at hlen ⊢
  dsimp only
  by_cases henough : start ≠ 0 ∧ count ≤ len
  · rw [if_pos henough]
    exact htake (h.freeRange hstart (henough.2.trans hlen)) (Nat.le_refl count)
  · rw [if_neg henough]
    have hnewst : allocNewst pmp (allocStart start usec) ≤ pmp.maxcluster :=
      Nat.lt_succ_iff.mp (Nat.mod_lt _ (Nat.succ_pos _))
    obtain ⟨r, hr, hok⟩ := @search_spec pmp s.inusemap count _ hnewst
    rw [hr]
    cases r with
    | enough cn => exact htake (h.freeRange hok.1 hok.2) (Nat.le_refl count)
    | longest foundcn foundl =>
      dsimp only
      by_cases hzero : foundl = 0
      · rw [if_pos hzero]
        exact ⟨_, _, rfl, h⟩
      · rw [if_neg hzero]
        split
        · exact htake (h.freeRange hstart hlen) (hlen.trans (chainlength_le _ _ _))
        · obtain ⟨hidx, hl⟩ := hok.resolve_left hzero
          exact htake (h.freeRange hidx (Nat.le_of_eq hl)) (hl ▸ chainlength_le _ _ _)

end OpenBsd.Msdosfs
