/-
  OpenBsd.Msdosfs.MsdosfsFatFind

  The free run that `clusteralloc` finds: which words of the map it reads, that the run is long
  enough if there is one that is, and what the FAT and the map hold afterwards.

  The search is followed over the map alone.  All that it needs to know of the map is that the
  bits behind the last cluster are set, which is so from `fillinusemap` on.
-/

import OpenBsd.Msdosfs.MsdosfsFatEntry
import OpenBsd.Msdosfs.MsdosfsFatRun

namespace OpenBsd.Msdosfs

open OpenBsd.Lib List

variable {idx count n len i fuel usec cn : Nat} {s : FatState} {io : Reads}

/-! ## The run that is chosen -/

/-- The first cluster and the length that `clusteralloc` hands to `chainalloc`, or `none` where it
    returns `ENOSPC`. -/
def allocRun (pmp : Msdosfsmount) (m : Bitmap 32) (start count usec fuel : Nat) :
    Option (Option (Nat × Nat)) :=
  let len := if start ≠ 0 then chainlength pmp m start count else 0
  if start ≠ 0 ∧ count ≤ len then some (some (start, count))
  else
    match search pmp m count (allocNewst pmp (allocStart start usec)) fuel with
    | none => none
    | some (.enough cn) => some (some (cn, count))
    | some (.longest foundcn foundl) =>
      if foundl = 0 then some none
      else if len ≠ 0 then some (some (start, len))
      else some (some (foundcn, foundl))

theorem clusteralloc_eq (pmp : Msdosfsmount) (s : FatState)
    (start count fillwith usec fuel : Nat) (io : Reads) :
    clusteralloc pmp s start count fillwith usec fuel io =
      (allocRun pmp s.inusemap start count usec fuel).map fun run =>
        match run with
        | none => (.error .enospc, s)
        | some (cn, len) => chainalloc pmp s cn len fillwith io := by
  rw [clusteralloc, allocRun]
  generalize (if start ≠ 0 then chainlength pmp s.inusemap start count else 0) = len
  split
  · rfl
  · generalize search pmp s.inusemap count _ fuel = r
    match r with
    | none => rfl
    | some (.enough cn) => rfl
    | some (.longest foundcn foundl) =>
      dsimp only
      split
      · rfl
      · split
        · rfl
        · rfl

/-! ## The words of the map -/

/-- `howmany(pm_maxcluster + 1, N_INUSEBITS)`, the words that `msdosfs_mountfs` allocates. -/
def bmapsiz (pmp : Msdosfsmount) : Nat := (pmp.maxcluster + 1 + (nInusebits - 1)) / nInusebits

def chainlengthLoopReads (m : Bitmap 32) (count : Nat) : Nat → Nat → Nat → Nat × List Nat
  | 0, _, len => (len, [])
  | n + 1, idx, len =>
    if count ≤ len then (len, [])
    else if m idx ≠ 0 then (len + (ffs (m idx) - 1), [idx])
    else
      let r := chainlengthLoopReads m count n (idx + 1) (len + nInusebits)
      (r.1, idx :: r.2)

def chainlengthReads (pmp : Msdosfsmount) (m : Bitmap 32) (start count : Nat) : Nat × List Nat :=
  let maxIdx := pmp.maxcluster / nInusebits
  let idx := start / nInusebits
  let bit := start % nInusebits
  let map := m idx &&& ~~~(lowBits 32 bit)
  if map ≠ 0 then (min (ffs map - 1 - bit) count, [idx])
  else if count ≤ nInusebits - bit then (count, [idx])
  else
    let r := chainlengthLoopReads m count (maxIdx - idx) (idx + 1) (nInusebits - bit)
    (min r.1 count, idx :: r.2)

def searchLoopReads (pmp : Msdosfsmount) (m : Bitmap 32) (count limit : Nat) :
    Nat → Nat → Nat → Nat → Option Found × List Nat
  | 0, _, _, _ => (none, [])
  | fuel + 1, cn, foundcn, foundl =>
    if cn < limit then
      match nextFree m cn with
      | some cn' =>
        let c := chainlengthReads pmp m cn' count
        if count ≤ c.1 then (some (.enough cn'), cn / nInusebits :: c.2)
        else
          let r :=
            if foundl < c.1 then searchLoopReads pmp m count limit fuel (cn' + c.1 + 1) cn' c.1
            else searchLoopReads pmp m count limit fuel (cn' + c.1 + 1) foundcn foundl
          (r.1, cn / nInusebits :: (c.2 ++ r.2))
      | none =>
        let r := searchLoopReads pmp m count limit fuel (cn + (nInusebits - cn % nInusebits))
          foundcn foundl
        (r.1, cn / nInusebits :: r.2)
    else (some (.longest foundcn foundl), [])

/-- The two searches with the words they read. -/
def searchReads (pmp : Msdosfsmount) (m : Bitmap 32) (count newst fuel : Nat) :
    Option Found × List Nat :=
  let r := searchLoopReads pmp m count (pmp.maxcluster + 1) fuel newst 0 0
  match r.1 with
  | some (.longest foundcn foundl) =>
    let r' := searchLoopReads pmp m count newst fuel 0 foundcn foundl
    (r'.1, r.2 ++ r'.2)
  | _ => r

/-- The choice of a run with the words that are read for it. -/
def allocRunReads (pmp : Msdosfsmount) (m : Bitmap 32) (start count usec fuel : Nat) :
    Option (Option (Nat × Nat)) × List Nat :=
  let c := if start ≠ 0 then chainlengthReads pmp m start count else (0, [])
  if start ≠ 0 ∧ count ≤ c.1 then (some (some (start, count)), c.2)
  else
    let r := searchReads pmp m count (allocNewst pmp (allocStart start usec)) fuel
    (match r.1 with
      | none => none
      | some (.enough cn) => some (some (cn, count))
      | some (.longest foundcn foundl) =>
        if foundl = 0 then some none
        else if c.1 ≠ 0 then some (some (start, c.1))
        else some (some (foundcn, foundl)),
      c.2 ++ r.2)

variable {pmp : Msdosfsmount} {m : Bitmap 32}

@[simp] theorem chainlengthLoopReads_fst (count n idx len : Nat) :
    (chainlengthLoopReads m count n idx len).1 = chainlengthLoop m count n idx len := by
  induction n generalizing idx len with
  | zero => rfl
  | succ n ih =>
    rw [chainlengthLoopReads, chainlengthLoop]
    split
    · rfl
    · split
      · rfl
      · exact ih _ _

@[simp] theorem chainlengthReads_fst (start count : Nat) :
    (chainlengthReads pmp m start count).1 = chainlength pmp m start count := by
  rw [chainlengthReads, chainlength]
  dsimp only
  split
  · rfl
  · split
    · rfl
    · rw [chainlengthLoopReads_fst]

@[simp] theorem searchLoopReads_fst (count limit fuel cn foundcn foundl : Nat) :
    (searchLoopReads pmp m count limit fuel cn foundcn foundl).1 =
      searchLoop pmp m count limit fuel cn foundcn foundl := by
  induction fuel generalizing cn foundcn foundl with
  | zero => rfl
  | succ fuel ih =>
    rw [searchLoopReads, searchLoop]
    by_cases hcn : cn < limit
    · rw [if_pos hcn, if_pos hcn]
      cases nextFree m cn with
      | none => exact ih _ _ _
      | some cn' =>
        simp only [chainlengthReads_fst]
        split
        · rfl
        · split
          · exact ih _ _ _
          · exact ih _ _ _
    · rw [if_neg hcn, if_neg hcn]

@[simp] theorem searchReads_fst (count newst fuel : Nat) :
    (searchReads pmp m count newst fuel).1 = search pmp m count newst fuel := by
  rw [searchReads, search, searchLoopReads_fst]
  cases hr : searchLoop pmp m count (pmp.maxcluster + 1) fuel newst 0 0 with
  | none => exact (searchLoopReads_fst _ _ _ _ _ _).trans hr
  | some r =>
    cases r with
    | enough cn => exact (searchLoopReads_fst _ _ _ _ _ _).trans hr
    | longest foundcn foundl => exact searchLoopReads_fst _ _ _ _ _ _

theorem allocRunReads_fst (start count usec fuel : Nat) :
    (allocRunReads pmp m start count usec fuel).1 =
      allocRun pmp m start count usec fuel := by
  have hlen : (if start ≠ 0 then chainlengthReads pmp m start count else (0, [])).1 =
      if start ≠ 0 then chainlength pmp m start count else 0 := by
    split
    · exact chainlengthReads_fst start count
    · rfl
  rw [allocRunReads, allocRun, ← hlen]
  generalize (if start ≠ 0 then chainlengthReads pmp m start count else (0, [])) = c
  dsimp only
  rw [searchReads_fst]
  split
  · rfl
  · rfl

theorem lt_bmapsiz : idx < bmapsiz pmp ↔ idx ≤ pmp.maxcluster / nInusebits := by
  simp only [bmapsiz, nInusebits]
  omega

theorem chainlengthLoopReads_mem (h : i ∈ (chainlengthLoopReads m count n idx len).2) :
    i < idx + n := by
  induction n generalizing idx len with
  | zero => exact absurd h (not_mem_nil)
  | succ n ih =>
    rw [chainlengthLoopReads] at h
    split at h
    · exact absurd h (not_mem_nil)
    · split at h
      · rw [mem_singleton] at h
        omega
      · rcases mem_cons.mp h with rfl | h
        · omega
        · have hlt := ih h
          omega

variable {start : Nat}

theorem chainlengthReads_mem (hstart : start / nInusebits ≤ pmp.maxcluster / nInusebits)
    (h : i ∈ (chainlengthReads pmp m start count).2) : i ≤ pmp.maxcluster / nInusebits := by
  rw [chainlengthReads] at h
  dsimp only at h
  split at h
  · rw [mem_singleton] at h
    exact h ▸ hstart
  · split at h
    · rw [mem_singleton] at h
      exact h ▸ hstart
    · rcases mem_cons.mp h with rfl | h
      · exact hstart
      · have hlt := chainlengthLoopReads_mem h
        omega

theorem searchLoopReads_mem {limit : Nat} (hlimit : limit ≤ pmp.maxcluster + 1)
    (fuel cn foundcn foundl : Nat)
    (h : i ∈ (searchLoopReads pmp m count limit fuel cn foundcn foundl).2) :
    i ≤ pmp.maxcluster / nInusebits := by
  induction fuel generalizing cn foundcn foundl with
  | zero => exact absurd h (not_mem_nil)
  | succ fuel ih =>
    rw [searchLoopReads] at h
    split at h
    · next hcn =>
      have hidx : cn / nInusebits ≤ pmp.maxcluster / nInusebits :=
        Nat.div_le_div_right (by omega)
      cases hnext : nextFree m cn with
      | none =>
        rw [hnext] at h
        rcases mem_cons.mp h with rfl | h
        · exact hidx
        · exact ih _ _ _ h
      | some cn' =>
        rw [hnext] at h
        have hword : cn' / nInusebits ≤ pmp.maxcluster / nInusebits := by
          rw [(nextFree_spec hnext).2]
          exact hidx
        dsimp only at h
        split at h
        · rcases mem_cons.mp h with rfl | h
          · exact hidx
          · exact chainlengthReads_mem hword h
        · rcases mem_cons.mp h with rfl | h
          · exact hidx
          · rcases mem_append.mp h with h | h
            · exact chainlengthReads_mem hword h
            · split at h
              · exact ih _ _ _ h
              · exact ih _ _ _ h
    · exact absurd h (not_mem_nil)

theorem searchReads_mem {newst : Nat} (hnewst : newst ≤ pmp.maxcluster)
    (h : i ∈ (searchReads pmp m count newst fuel).2) : i ≤ pmp.maxcluster / nInusebits := by
  rw [searchReads] at h
  dsimp only at h
  split at h
  · rcases mem_append.mp h with h | h
    · exact searchLoopReads_mem (Nat.le_refl _) _ _ _ _ h
    · exact searchLoopReads_mem (by omega) _ _ _ _ h
  · exact searchLoopReads_mem (Nat.le_refl _) _ _ _ _ h

theorem allocNewst_le (start : Nat) : allocNewst pmp start ≤ pmp.maxcluster :=
  Nat.lt_succ_iff.mp (Nat.mod_lt _ (Nat.succ_pos _))

theorem allocRunReads_mem (hstart : start ≠ 0 → start / nInusebits ≤ pmp.maxcluster / nInusebits)
    (h : i ∈ (allocRunReads pmp m start count usec fuel).2) : i < bmapsiz pmp := by
  rw [lt_bmapsiz]
  have hfirst : ∀ j ∈ (if start ≠ 0 then chainlengthReads pmp m start count else (0, [])).2,
      j ≤ pmp.maxcluster / nInusebits := by
    intro j hj
    split at hj
    · next hne => exact chainlengthReads_mem (hstart hne) hj
    · exact absurd hj (not_mem_nil)
  rw [allocRunReads] at h
  generalize (if start ≠ 0 then chainlengthReads pmp m start count else (0, [])) = c at hfirst h
  dsimp only at h
  split at h
  · exact hfirst i h
  · rcases mem_append.mp h with h | h
    · exact hfirst i h
    · exact searchReads_mem (allocNewst_le _) h

/-! ## What the search leaves out -/

/-- The bits of the map that belong to no cluster are set. -/
def Reserved (pmp : Msdosfsmount) (m : Bitmap 32) : Prop :=
  ∀ cn, ¬ pmp.Valid cn → cn / nInusebits ≤ pmp.maxcluster / nInusebits → m.test cn = true

def FreeRun (pmp : Msdosfsmount) (m : Bitmap 32) (start count : Nat) : Prop :=
  ∀ cn, start ≤ cn → cn < start + count → pmp.Valid cn ∧ m.test cn = false

theorem FreeRun.clear (h : FreeRun pmp m start count) :
    ClearRun m start count := fun cn h1 h2 => (h cn h1 h2).2

theorem Reserved.freeRun (h : Reserved pmp m) {start : Nat}
    (hstart : start / nInusebits ≤ pmp.maxcluster / nInusebits)
    (hlen : len ≤ chainlength pmp m start count) : FreeRun pmp m start len := by
  obtain ⟨hclear, hidx⟩ := @chainlength_spec pmp m start count hstart
  intro cn h1 h2
  have hcn := hclear cn h1 (by omega)
  refine ⟨?_, hcn⟩
  by_contra hnot
  rw [h cn hnot (hidx cn (by omega))] at hcn
  exact Bool.noConfusion hcn

theorem test_word (hi : i < nInusebits) : m.test (idx * nInusebits + i) = (m idx).getLsbD i := by
  show (m ((idx * nInusebits + i) / nInusebits)).getLsbD ((idx * nInusebits + i) % nInusebits) = _
  unfold nInusebits at *
  have hdiv : (idx * 32 + i) / 32 = idx := by omega
  have hmod : (idx * 32 + i) % 32 = i := by omega
  rw [hdiv, hmod]

theorem chainlengthLoop_max (hrun : ClearRun m start n) (hn : n ≤ count)
    (words idx len : Nat) (hlen : start + len = idx * nInusebits)
    (hend : start + n ≤ (idx + words) * nInusebits) :
    n ≤ chainlengthLoop m count words idx len := by
  induction words generalizing idx len with
  | zero =>
    show n ≤ len
    rw [Nat.add_zero] at hend
    omega
  | succ words ih =>
    rw [chainlengthLoop]
    split
    · omega
    · split
      · next hword =>
        -- the run ends in front of the first bit that is set
        obtain ⟨_, hlt, hset, _⟩ := ffs_spec hword
        by_contra hlong
        have hclear := hrun (idx * nInusebits + (ffs (m idx) - 1)) (by omega) (by omega)
        rw [test_word hlt, hset] at hclear
        exact Bool.noConfusion hclear
      · apply ih
        · rw [Nat.succ_mul]
          omega
        · rw [Nat.add_assoc, Nat.add_comm 1 words]
          exact hend

theorem chainlength_max (hstart : start / nInusebits ≤ pmp.maxcluster / nInusebits)
    (hrun : ClearRun m start n) (hn : n ≤ count) (hend : start + n ≤ pmp.maxcluster + 1) :
    n ≤ chainlength pmp m start count := by
  have hbits : nInusebits = 32 := rfl
  have hbit : start % nInusebits < 32 := Nat.mod_lt _ (by decide)
  have hdm := Nat.div_add_mod' start nInusebits
  have hmax : pmp.maxcluster % nInusebits < 32 := Nat.mod_lt _ (by decide)
  have hmdm := Nat.div_add_mod' pmp.maxcluster nInusebits
  rw [chainlength]
  split
  · next hmap =>
    obtain ⟨_, hlt, hset, _⟩ := ffs_spec hmap
    -- the bit found is one of the word, not below that of `start`
    rw [BitVec.getLsbD_and, BitVec.getLsbD_not, getLsbD_lowBits hbit, Bool.and_eq_true,
      Bool.and_eq_true, Bool.not_eq_true', decide_eq_false_iff_not] at hset
    obtain ⟨hset, _, hge⟩ := hset
    apply Nat.le_min.mpr ⟨?_, hn⟩
    by_contra hlong
    generalize ffs (m (start / nInusebits) &&& ~~~lowBits 32 (start % nInusebits)) - 1 = b at *
    have hclear := hrun (start / nInusebits * nInusebits + b) (by omega) (by omega)
    rw [test_word hlt, hset] at hclear
    exact Bool.noConfusion hclear
  · split
    · exact hn
    · apply Nat.le_min.mpr ⟨?_, hn⟩
      apply chainlengthLoop_max hrun hn
      · rw [Nat.succ_mul]
        omega
      · have hwords : start / nInusebits + 1 + (pmp.maxcluster / nInusebits - start / nInusebits) =
            pmp.maxcluster / nInusebits + 1 := by omega
        rw [hwords, Nat.succ_mul]
        omega

theorem getLsbD_nextFree (hi : i < nInusebits) :
    (m (cn / nInusebits) ||| lowBits 32 (cn % nInusebits)).getLsbD i =
      (m.test (cn / nInusebits * nInusebits + i) || decide (i < cn % nInusebits)) := by
  have hbit : cn % nInusebits < 32 := Nat.mod_lt _ (by decide)
  rw [BitVec.getLsbD_or, getLsbD_lowBits hbit, test_word hi]

theorem nextFree_some {cn' : Nat} (h : nextFree m cn = some cn') :
    m.test cn' = false ∧ ∀ a, cn ≤ a → a < cn' → m.test a = true := by
  have hbits : nInusebits = 32 := rfl
  have hdm := Nat.div_add_mod' cn nInusebits
  obtain ⟨_, hidx⟩ := nextFree_spec h
  rw [nextFree] at h
  split at h
  · next hne =>
    rw [BitVec.xor_allOnes] at h
    obtain ⟨hpos, hlt, hclear, hlow⟩ := ffs_not_spec hne
    have hcn' := Option.some.inj h
    generalize ffs (~~~(m (cn / nInusebits) ||| lowBits 32 (cn % nInusebits))) = f at *
    have hplace : cn / nInusebits * nInusebits + (f - 1) = cn' := by omega
    rw [getLsbD_nextFree hlt, hplace, Bool.or_eq_false_iff] at hclear
    refine ⟨hclear.1, ?_⟩
    intro a h1 h2
    have hbit := hlow (a - cn / nInusebits * nInusebits) (by omega)
    rw [getLsbD_nextFree (by omega), decide_eq_false (by omega), Bool.or_false] at hbit
    have hpos' : cn / nInusebits * nInusebits + (a - cn / nInusebits * nInusebits) = a := by omega
    rwa [hpos'] at hbit
  · exact absurd h (by simp)

theorem nextFree_none {a : Nat} (h : nextFree m cn = none) (h1 : cn ≤ a)
    (h2 : a < cn + (nInusebits - cn % nInusebits)) : m.test a = true := by
  have hbits : nInusebits = 32 := rfl
  have hbit : cn % nInusebits < 32 := Nat.mod_lt _ (by decide)
  have hdm := Nat.div_add_mod' cn nInusebits
  rw [nextFree] at h
  split at h
  · exact absurd h (by simp)
  · next hfull =>
    have hbit := eq_allOnes_iff_getLsbD.mp (not_not.mp hfull)
      (a - cn / nInusebits * nInusebits) (by omega)
    rw [getLsbD_nextFree (by omega), decide_eq_false (by omega), Bool.or_false] at hbit
    have hpos' : cn / nInusebits * nInusebits + (a - cn / nInusebits * nInusebits) = a := by omega
    rwa [hpos'] at hbit

/-- A search that ends with a shorter run has passed no run that is long enough, and has kept one
    if it has passed a free cluster. -/
theorem searchLoop_longest {limit : Nat} (hcount : 1 ≤ count) (hlimit : limit ≤ pmp.maxcluster + 1)
    (fuel cn foundcn foundl : Nat) {c l : Nat}
    (h : searchLoop pmp m count limit fuel cn foundcn foundl = some (.longest c l)) :
    foundl ≤ l ∧ ∀ a, cn ≤ a → a < limit →
      (m.test a = false → 0 < l) ∧ ¬ FreeRun pmp m a count := by
  induction fuel generalizing cn foundcn foundl with
  | zero => exact absurd h (by simp [searchLoop])
  | succ fuel ih =>
    rw [searchLoop] at h
    split at h
    · next hcn =>
      -- a cluster in use is not the first one of a run
      have hused : ∀ {a : Nat}, m.test a = true →
          (m.test a = false → 0 < l) ∧ ¬ FreeRun pmp m a count := by
        intro a ha
        rw [ha]
        refine ⟨fun hclear => Bool.noConfusion hclear, ?_⟩
        intro hfree
        rw [(hfree a (Nat.le_refl a) (by omega)).2] at ha
        exact Bool.noConfusion ha
      cases hnext : nextFree m cn with
      | none =>
        rw [hnext] at h
        obtain ⟨hle, hpast⟩ := ih _ _ _ h
        refine ⟨hle, ?_⟩
        intro a h1 h2
        by_cases hword : a < cn + (nInusebits - cn % nInusebits)
        · exact hused (nextFree_none hnext h1 hword)
        · exact hpast a (by omega) h2
      | some cn' =>
        rw [hnext] at h
        obtain ⟨hclear, hbefore⟩ := nextFree_some hnext
        obtain ⟨hge, hidx⟩ := nextFree_spec hnext
        have hword : cn' / nInusebits ≤ pmp.maxcluster / nInusebits := by
          rw [hidx]
          exact Nat.div_le_div_right (by omega)
        dsimp only at h
        generalize hl : chainlength pmp m cn' count = l' at h
        by_cases henough : count ≤ l'
        · rw [if_pos henough] at h
          exact absurd h (by simp)
        · rw [if_neg henough] at h
          have hrest : foundl ≤ l ∧ l' ≤ l ∧ ∀ a, cn' + l' + 1 ≤ a → a < limit →
              (m.test a = false → 0 < l) ∧ ¬ FreeRun pmp m a count := by
            split at h
            · obtain ⟨hle, hpast⟩ := ih _ _ _ h
              exact ⟨by omega, hle, hpast⟩
            · obtain ⟨hle, hpast⟩ := ih _ _ _ h
              exact ⟨hle, by omega, hpast⟩
          obtain ⟨hle, hle', hpast⟩ := hrest
          refine ⟨hle, ?_⟩
          intro a h1 h2
          by_cases hlow : a < cn'
          · exact hused (hbefore a h1 hlow)
          · by_cases hhigh : cn' + l' + 1 ≤ a
            · exact hpast a hhigh h2
            · -- the run that was measured reaches `a`, and ends in front of the count
              have hone : 1 ≤ l' := by
                rw [← hl]
                apply chainlength_max hword _ hcount (by omega)
                intro b h3 h4
                obtain rfl : b = cn' := by omega
                exact hclear
              refine ⟨fun _ => by omega, ?_⟩
              intro hfree
              have hlast := (hfree (a + count - 1) (by omega) (by omega)).1.2
              have hlong : l' + 1 ≤ chainlength pmp m cn' count := by
                apply chainlength_max hword _ (by omega) (by omega)
                intro b h3 h4
                by_cases hb : b < a
                · exact (@chainlength_spec pmp m cn' count hword).1 b h3 (by omega)
                · exact (hfree b (by omega) (by omega)).2
              omega
    · obtain ⟨rfl, rfl⟩ := Found.longest.inj (Option.some.inj h)
      exact ⟨Nat.le_refl _, fun a h1 h2 => by omega⟩

/-- The run chosen is free, and long enough if there is one that is. -/
theorem allocRun_spec {start count : Nat} (usec : Nat) (hres : Reserved pmp m)
    (hstart : start / nInusebits ≤ pmp.maxcluster / nInusebits) (hcount : 1 ≤ count) :
    ∃ run, allocRun pmp m start count usec (pmp.maxcluster + 2) = some run ∧
      (run = none → ∀ cn, pmp.Valid cn → m.test cn = true) ∧
      ∀ cn len, run = some (cn, len) → FreeRun pmp m cn len ∧ 1 ≤ len ∧ len ≤ count ∧
        ((∃ a, FreeRun pmp m a count) → len = count) := by
  -- a run as long as the count asked for
  have henough : ∀ {cn : Nat}, cn / nInusebits ≤ pmp.maxcluster / nInusebits →
      count ≤ chainlength pmp m cn count →
      ∃ run, (some (some (cn, count)) : Option (Option (Nat × Nat))) = some run ∧
        (run = none → ∀ cn, pmp.Valid cn → m.test cn = true) ∧
        ∀ cn len, run = some (cn, len) → FreeRun pmp m cn len ∧ 1 ≤ len ∧ len ≤ count ∧
          ((∃ a, FreeRun pmp m a count) → len = count) := by
    intro cn hcn hl
    refine ⟨_, rfl, fun h => absurd h (by simp), ?_⟩
    intro cn' len h
    obtain ⟨rfl, rfl⟩ := Prod.mk.inj (Option.some.inj h)
    exact ⟨hres.freeRun hcn hl, hcount, Nat.le_refl _, fun _ => rfl⟩
  rw [allocRun]
  generalize hlen : (if start ≠ 0 then chainlength pmp m start count else 0) = len
  by_cases hfirst : start ≠ 0 ∧ count ≤ len
  · rw [if_pos hfirst]
    rw [if_pos hfirst.1] at hlen
    exact henough hstart (hlen ▸ hfirst.2)
  · rw [if_neg hfirst]
    have hnewst := @allocNewst_le pmp (allocStart start usec)
    obtain ⟨r, hr, hok⟩ := @search_spec pmp m count _ hnewst
    rw [hr]
    cases r with
    | enough cn => exact henough hok.1 hok.2
    | longest foundcn foundl =>
      have hpast : ∀ a, a ≤ pmp.maxcluster → (m.test a = false → 0 < foundl) ∧
          ¬ FreeRun pmp m a count := by
        rw [search] at hr
        cases hr₁ : searchLoop pmp m count (pmp.maxcluster + 1) (pmp.maxcluster + 2)
            (allocNewst pmp (allocStart start usec)) 0 0 with
        | none =>
          rw [hr₁] at hr
          exact absurd hr (by simp)
        | some r₁ =>
          rw [hr₁] at hr
          cases r₁ with
          | enough cn => exact absurd hr (by simp)
          | longest c₁ l₁ =>
            obtain ⟨_, hhigh⟩ := searchLoop_longest hcount (Nat.le_refl _) _ _ _ _ hr₁
            obtain ⟨hle, hlow⟩ := searchLoop_longest hcount (by omega) _ _ _ _ hr
            intro a ha
            by_cases hnew : a < allocNewst pmp (allocStart start usec)
            · exact hlow a (Nat.zero_le a) hnew
            · obtain ⟨hfree, hnone⟩ := hhigh a (by omega) (by omega)
              exact ⟨fun hclear => Nat.lt_of_lt_of_le (hfree hclear) hle, hnone⟩
      have hnorun : ¬ ∃ a, FreeRun pmp m a count := by
        rintro ⟨a, ha⟩
        have hv := (ha a (Nat.le_refl a) (by omega)).1
        exact (hpast a hv.2).2 ha
      dsimp only
      by_cases hzero : foundl = 0
      · rw [if_pos hzero]
        refine ⟨none, rfl, ?_, fun cn len h => absurd h (by simp)⟩
        intro _ cn hv
        by_contra hclear
        have hpos := (hpast cn hv.2).1 (Bool.not_eq_true _ ▸ hclear)
        omega
      · rw [if_neg hzero]
        split
        · next hpart =>
          refine ⟨_, rfl, fun h => absurd h (by simp), ?_⟩
          intro cn len' h
          obtain ⟨rfl, rfl⟩ := Prod.mk.inj (Option.some.inj h)
          have hne : start ≠ 0 := by
            intro h0
            rw [if_neg (not_not_intro h0)] at hlen
            exact hpart hlen.symm
          rw [if_pos hne] at hlen
          exact ⟨hres.freeRun hstart (Nat.le_of_eq hlen.symm), by omega,
            hlen ▸ chainlength_le _ _ _, fun h => absurd h hnorun⟩
        · refine ⟨_, rfl, fun h => absurd h (by simp), ?_⟩
          intro cn len' h
          obtain ⟨rfl, rfl⟩ := Prod.mk.inj (Option.some.inj h)
          obtain ⟨hidx, hl⟩ := hok.resolve_left hzero
          exact ⟨hres.freeRun hidx (Nat.le_of_eq hl), by omega, hl ▸ chainlength_le _ _ _,
            fun h => absurd h hnorun⟩

/-! ## The chain that is made -/

/-- The clusters of the run link one another, the last one has `fillwith`, and no other entry
    changed. -/
def Chained (t : FatType) (b b' : Bytes) (start len fillwith : Nat) : Prop :=
  ∀ cn, t.entry b' cn =
    if start ≤ cn ∧ cn < start + len then
      if cn + 1 < start + len then cn + 1 else fillwith % (t.fatmask + 1)
    else t.entry b cn

theorem Linked.chained {t : FatType} {b b' : Bytes} {fillwith : Nat}
    (h : Linked t b b' start (start + len) (start + len) fillwith)
    (hfit : start + len ≤ t.fatmask + 1 ∨ len ≤ 1) : Chained t b b' start len fillwith := by
  intro cn
  rw [h cn]
  by_cases hin : start ≤ cn ∧ cn < start + len
  · rw [if_pos hin, if_pos hin, newc]
    by_cases hlast : cn + 1 < start + len
    · rw [if_pos hlast, if_pos hlast, Nat.mod_eq_of_lt (by omega)]
    · rw [if_neg hlast, if_neg hlast]
  · rw [if_neg hin, if_neg hin]

theorem fillinusemapLoop_reads (n cn : Nat) (bp : Option Nat) (s : FatState) :
    ∃ s', fillinusemapLoop pmp n cn bp s [] = .ok s' := by
  induction n generalizing cn bp s with
  | zero => exact ⟨s, rfl⟩
  | succ n ih =>
    cases bp with
    | none =>
      simp only [fillinusemapLoop, bread, Bool.false_eq_true, if_false]
      exact ih _ _ _
    | some bn =>
      simp only [fillinusemapLoop, bread]
      split
      · exact ih _ _ _
      · exact ih _ _ _

theorem fillinusemap_empty (pmp : Msdosfsmount) :
    ∃ s, fillinusemap pmp { fat := fun _ => 0, inusemap := fun _ => 0, freeclustercount := 0 } [] =
        .ok s ∧ MapOk pmp s ∧ ∀ cn, pmp.Valid cn → s.inusemap.test cn = false := by
  obtain ⟨s, hs⟩ := @fillinusemapLoop_reads pmp (pmp.maxcluster + 1 - clustFirst) clustFirst
    none { fat := fun _ => 0, inusemap := markInUse pmp (fun _ => 0), freeclustercount := 0 }
  obtain ⟨hmap, hfat⟩ := @fillinusemap_ok pmp
    { fat := fun _ => 0, inusemap := fun _ => 0, freeclustercount := 0 } s [] hs
  refine ⟨s, hs, hmap, ?_⟩
  intro cn hv
  rw [hmap.entries cn hv, hfat]
  have hzero : ∀ t : FatType, t.entry (fun _ => 0) cn = 0 := by
    intro t
    have hword : ∀ p, getushort (fun _ => 0) p = 0 := fun p => by simp [getushort]
    cases t <;> simp only [FatType.entry, FatType.getEntry, getulong, hword, Nat.zero_mul,
      Nat.zero_div, Nat.zero_mod, ite_self]
  exact hzero pmp.fat

/-- `clusteralloc` reads words of the map only, and the clusters that `chainalloc` marks are of
    the volume and have their bit in the map. -/
def InMap (pmp : Msdosfsmount) (m : Bitmap 32) (start count usec : Nat) : Prop :=
  (∀ idx ∈ (allocRunReads pmp m start count usec (pmp.maxcluster + 2)).2, idx < bmapsiz pmp) ∧
    ∀ cn len, (allocRunReads pmp m start count usec (pmp.maxcluster + 2)).1 =
        some (some (cn, len)) →
      ∀ c, cn ≤ c → c < cn + len → c ≤ pmp.maxcluster ∧ c / nInusebits < bmapsiz pmp

theorem usemapAllocRange_keeps (h : s.inusemap.test cn = true) :
    (usemapAllocRange s start count).inusemap.test cn = true := by
  induction count generalizing s start with
  | zero => exact h
  | succ count ih =>
    apply ih
    rw [usemapAlloc_test, h, Bool.or_true]

theorem Reserved.usemapFree (h : Reserved pmp s.inusemap) (hv : pmp.Valid cn) :
    Reserved pmp (usemapFree s cn).inusemap := by
  intro cn' hnot hidx
  have hne : cn' ≠ cn := fun heq => hnot (heq ▸ hv)
  rw [usemapFree_test, decide_eq_false hne, h cn' hnot hidx]
  rfl

theorem freeclusterchainLoop_reserved {s' : FatState} {lbn : Option Nat} {cluster : Nat}
    {r : Except Errno Unit} (h : Reserved pmp s.inusemap)
    (hrun : freeclusterchainLoop pmp fuel s lbn cluster io = some (r, s')) :
    Reserved pmp s'.inusemap := by
  induction fuel generalizing s lbn cluster io with
  | zero => exact absurd hrun (by simp [freeclusterchainLoop])
  | succ fuel ih =>
    rw [freeclusterchainLoop_succ] at hrun
    split at hrun
    · next hv =>
      dsimp only at hrun
      have hfree : Reserved pmp ({ usemapFree s cluster with
          fat := pmp.fat.setEntry s.fat cluster 0 } : FatState).inusemap := h.usemapFree hv
      split at hrun
      · exact ih hfree hrun
      · split at hrun
        · obtain ⟨_, rfl⟩ := Prod.mk.inj (Option.some.inj hrun)
          exact h
        · exact ih hfree hrun
    · obtain ⟨_, rfl⟩ := Prod.mk.inj (Option.some.inj hrun)
      exact h

theorem step_reserved {s' : FatState} {c : Call} (h : Reserved pmp s.inusemap)
    (hstep : step pmp s c = some s') : Reserved pmp s'.inusemap := by
  obtain ⟨op, io⟩ := c
  cases op with
  | clusteralloc start count fillwith usec =>
    rw [step, clusteralloc_eq, Option.map_map, Option.map_eq_some_iff] at hstep
    obtain ⟨run, _, rfl⟩ := hstep
    cases run with
    | none => exact h
    | some r => exact fun cn hnot hidx => usemapAllocRange_keeps (h cn hnot hidx)
  | clusterfree cluster =>
    obtain rfl := Option.some.inj hstep
    have hback : Reserved pmp (usemapAlloc (usemapFree s cluster) cluster).inusemap := by
      intro cn hnot hidx
      rw [usemapAlloc_test, usemapFree_test, h cn hnot hidx]
      cases decide (cn = cluster) <;> rfl
    show Reserved pmp (clusterfree pmp s cluster io).2.inusemap
    rw [clusterfree, fatentry]
    by_cases hrange : cluster < clustFirst ∨ pmp.maxcluster < cluster
    · rw [if_pos hrange]
      exact hback
    · rw [if_neg hrange]
      dsimp only
      cases (bread io).1 with
      | true => exact hback
      | false => exact h.usemapFree ⟨by omega, by omega⟩
  | freeclusterchain cluster =>
    obtain ⟨⟨r, s''⟩, hres, rfl⟩ := Option.map_eq_some_iff.mp hstep
    exact freeclusterchainLoop_reserved h hres

theorem reserved_of_run {s₀ s₁ : FatState} {calls : List Call}
    (hfill : fillinusemap pmp s₀ io = .ok s₁) (hrun : Run (step pmp) (fun _ _ => True) s₁ calls s) :
    Reserved pmp s.inusemap :=
  hrun.invariant (fun _ _ _ h _ hstep => step_reserved h hstep)
    (fillinusemap_ok hfill).1.reserved

theorem inMap_of_word (usec : Nat) (h : Reserved pmp m)
    (hstart : start / nInusebits ≤ pmp.maxcluster / nInusebits) (hcount : 1 ≤ count) :
    InMap pmp m start count usec := by
  refine ⟨fun idx hmem => allocRunReads_mem (fun _ => hstart) hmem, ?_⟩
  intro cn len hrun c h1 h2
  rw [allocRunReads_fst] at hrun
  obtain ⟨run, hspec, _, hsome⟩ := @allocRun_spec _ _ start _ usec h hstart hcount
  rw [hrun] at hspec
  have hv := ((hsome cn len (Option.some.inj hspec).symm).1 c h1 h2).1
  exact ⟨hv.2, lt_bmapsiz.mpr (Nat.div_le_div_right hv.2)⟩

theorem start_mem_allocRunReads (hne : start ≠ 0) :
    start / nInusebits ∈ (allocRunReads pmp m start count usec fuel).2 := by
  have hfirst : start / nInusebits ∈ (chainlengthReads pmp m start count).2 := by
    rw [chainlengthReads]
    dsimp only
    split
    · exact mem_singleton.mpr rfl
    · split
      · exact mem_singleton.mpr rfl
      · exact mem_cons_self
  rw [allocRunReads, if_pos hne]
  dsimp only
  split
  · exact hfirst
  · exact mem_append_left _ hfirst

theorem not_inMap_behind (hword : nInusebits ∣ pmp.maxcluster + 1) :
    ¬ InMap pmp m (pmp.maxcluster + 1) count usec := by
  intro h
  have hlt := h.1 _ (start_mem_allocRunReads (Nat.succ_ne_zero _))
  rw [lt_bmapsiz] at hlt
  unfold nInusebits at hlt hword
  omega

/-- After any operations on a mounted volume, an allocation behind the last cluster of a file stays
    in the map unless the file ends at the last cluster of all and the map at its last bit. -/
theorem clusteralloc_inMap_iff (pmp : Msdosfsmount) {s₀ s₁ s : FatState} {io : Reads}
    {calls : List Call} (hfill : fillinusemap pmp s₀ io = .ok s₁)
    (hrun : Run (step pmp) (fun _ _ => True) s₁ calls s) {start count : Nat} (usec : Nat)
    (hstart : start = 0 ∨ ∃ last, pmp.Valid last ∧ start = last + 1) (hcount : 1 ≤ count) :
    InMap pmp s.inusemap start count usec ↔
      ¬ (start = pmp.maxcluster + 1 ∧ nInusebits ∣ pmp.maxcluster + 1) := by
  constructor
  · rintro hin ⟨rfl, hword⟩
    exact not_inMap_behind hword hin
  · intro hnot
    apply inMap_of_word usec (reserved_of_run hfill hrun) _ hcount
    rcases hstart with rfl | ⟨last, hv, rfl⟩
    · exact Nat.div_le_div_right (Nat.zero_le _)
    · by_cases hend : last = pmp.maxcluster
      · subst hend
        have hword : ¬ nInusebits ∣ pmp.maxcluster + 1 := fun hword => hnot ⟨rfl, hword⟩
        unfold nInusebits at hword ⊢
        omega
      · exact Nat.div_le_div_right (Nat.lt_of_le_of_ne hv.2 hend)

/-- A FAT12 with the clusters 2 to 31, whose map is one word. -/
def oneWord : Msdosfsmount where
  fat := .fat12
  maxcluster := 31
  bytesPerSec := 512
  fatSecs := 1
  secPos := sector_pos
  sector := dvd_sector
  maxcluster_lt := by decide

/-- Behind any other cluster than the last one the call stays in the map. -/
theorem clusteralloc_inMap_behind_first :
    ∃ s, fillinusemap oneWord (unfilled emptyFat) [] = .ok s ∧
      (InMap oneWord s.inusemap 3 1 7 ↔ ¬ (3 = 31 + 1 ∧ 32 ∣ 31 + 1)) := by
  obtain ⟨s, hs, _⟩ := fillinusemap_empty oneWord
  exact ⟨s, hs, clusteralloc_inMap_iff oneWord hs (Run.nil s) 7
    (Or.inr ⟨2, by decide, rfl⟩) (Nat.le_refl 1)⟩

/-- The map of the empty volume, in front of a clear word that belongs to something else. -/
def filledWord : FatState :=
  match fillinusemap oneWord (unfilled emptyFat) [] with
  | .ok s => s
  | .error _ => unfilled emptyFat

theorem filledWord_eq : fillinusemap oneWord (unfilled emptyFat) [] = .ok filledWord := by
  obtain ⟨s, hs, _⟩ := fillinusemap_empty oneWord
  have hres : fillinusemap oneWord (unfilled emptyFat) [] = .ok s := hs
  rw [filledWord, hres]

/-- Behind cluster 31 the second word of a map of one word is read, and where it is clear the bit
    of cluster 32 is set in it. -/
theorem clusteralloc_leaves_map :
    fillinusemap oneWord (unfilled emptyFat) [] = .ok filledWord ∧ oneWord.Valid 31 ∧
      bmapsiz oneWord = 1 ∧
      1 ∈ (allocRunReads oneWord filledWord.inusemap (31 + 1) 1 7 33).2 ∧
      (clusteralloc oneWord filledWord (31 + 1) 1 0xffffffff 7 33 []).any
        (fun r => !filledWord.inusemap.test 32 && r.2.inusemap.test 32) = true ∧
      ¬ InMap oneWord filledWord.inusemap (31 + 1) 1 7 :=
  ⟨filledWord_eq, by decide, by decide, by decide +kernel, by decide +kernel,
    not_inMap_behind ⟨1, rfl⟩⟩

end OpenBsd.Msdosfs
