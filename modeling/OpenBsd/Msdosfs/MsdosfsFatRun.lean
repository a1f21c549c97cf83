/-
  OpenBsd.Msdosfs.MsdosfsFatRun

  The map of the clusters in use over whole runs: filled at mount time, then changed by
  `clusteralloc`, `clusterfree` and `freeclusterchain` in any order.
-/

import OpenBsd.Lib.Run
import OpenBsd.Msdosfs.MsdosfsFatAlloc

namespace OpenBsd.Msdosfs

open OpenBsd.Lib

variable {pmp : Msdosfsmount}

/-! ## `fillinusemap` -/

/-- The scan has passed the clusters in front of `cn`. -/
structure FillInv (pmp : Msdosfsmount) (s : FatState) (cn : Nat) : Prop extends CountOk pmp s where
  passed : ∀ cn', pmp.Valid cn' →
    (s.inusemap.test cn' = false ↔ cn' < cn ∧ pmp.fat.entry s.fat cn' = 0)

/-- The block in `bp` is that of the cluster before. -/
def BufOf (pmp : Msdosfsmount) (bp : Option Nat) (cn : Nat) : Prop :=
  ∀ bn, bp = some bn → ∃ c, cn = c + 1 ∧ bn = (fatblock pmp (pmp.fatofs c)).bn

variable {s : FatState} {cn : Nat}

theorem FillInv.step (h : FillInv pmp s cn) (hv : pmp.Valid cn) :
    FillInv pmp (if pmp.fat.entry s.fat cn = 0 then usemapFree s cn else s) (cn + 1) := by
  have hset : s.inusemap.test cn = true := by
    by_contra hclear
    have hlt := ((h.passed cn hv).mp (by simpa using hclear)).1
    exact Nat.lt_irrefl cn hlt
  split
  · next hfree =>
    refine ⟨h.toCountOk.usemapFree hv hset, ?_⟩
    intro cn' hv'
    rw [usemapFree_test, usemapFree_fat]
    by_cases heq : cn' = cn
    · subst heq
      simp [hfree]
    · have hlt : cn' < cn + 1 ↔ cn' < cn := by omega
      rw [hlt, decide_eq_false heq]
      exact h.passed cn' hv'
  · next hused =>
    refine ⟨h.toCountOk, ?_⟩
    intro cn' hv'
    rw [h.passed cn' hv']
    by_cases heq : cn' = cn
    · subst heq
      simp [hused]
    · have hlt : cn' < cn + 1 ↔ cn' < cn := by omega
      rw [hlt]

theorem bData_same_block {bn : Nat} (hbuf : BufOf pmp (some bn) cn)
    (hbo : pmp.fatofs cn % pmp.fatblocksize ≠ 0) : bn = (fatblock pmp (pmp.fatofs cn)).bn := by
  obtain ⟨c, rfl, hbn⟩ := hbuf bn rfl
  rw [hbn]
  show _ * _ = _ * _
  rw [fatofs_same_block pmp c hbo]

theorem fillinusemapLoop_spec :
    ∀ {n cn : Nat} {bp : Option Nat} {s s' : FatState} {io : Reads},
      fillinusemapLoop pmp n cn bp s io = .ok s' → FillInv pmp s cn → BufOf pmp bp cn →
      clustFirst ≤ cn → cn + n ≤ pmp.maxcluster + 1 → FillInv pmp s' (cn + n) ∧ s'.fat = s.fat := by
  intro n
  induction n with
  | zero =>
    intro cn bp s s' io hrun hinv _ _ _
    obtain rfl := Except.ok.inj hrun
    exact ⟨hinv, rfl⟩
  | succ n ih =>
    intro cn bp s s' io hrun hinv hbuf hfirst hlast
    -- whichever block is in hand, it is the one of `cn`
    have hgo : ∀ {error : Bool} {io' : Reads} {bn : Nat}, bn = (fatblock pmp (pmp.fatofs cn)).bn →
        (if error then Except.error Errno.eio
          else fillinusemapLoop pmp n (cn + 1) (some bn)
            (if pmp.fat.getEntry s.fat (bData bn (pmp.fatofs cn % pmp.fatblocksize)) cn = 0
              then usemapFree s cn else s) io') = .ok s' →
        FillInv pmp s' (cn + (n + 1)) ∧ s'.fat = s.fat := by
      intro error io' bn hbn hres
      have hpos : bData bn (pmp.fatofs cn % pmp.fatblocksize) = pmp.fatofs cn := by
        rw [hbn]
        exact bData_fatblock pmp (pmp.fatofs cn)
      rw [hpos] at hres
      cases error with
      | true => exact absurd hres (by simp)
      | false =>
        rw [if_neg Bool.false_ne_true] at hres
        have hnext : BufOf pmp (some bn) (cn + 1) :=
          fun bn' heq => ⟨cn, rfl, (Option.some.inj heq) ▸ hbn⟩
        obtain ⟨hdone, hfat⟩ := ih hres (hinv.step ⟨hfirst, by omega⟩) hnext (by omega) (by omega)
        rw [Nat.add_assoc, Nat.add_comm 1 n] at hdone
        refine ⟨hdone, hfat.trans ?_⟩
        split
        · rfl
        · rfl
    unfold fillinusemapLoop at hrun
    cases bp with
    | none => exact hgo rfl hrun
    | some bn =>
      dsimp only at hrun
      by_cases hbo : pmp.fatofs cn % pmp.fatblocksize = 0
      · rw [if_pos hbo] at hrun
        exact hgo rfl hrun
      · rw [if_neg hbo] at hrun
        exact hgo (bData_same_block hbuf hbo) hrun

theorem markInUse_test {m : Bitmap 32} (hidx : cn / nInusebits ≤ pmp.maxcluster / nInusebits) :
    (markInUse pmp m).test cn = true := by
  show (if _ < _ then _ else _ : BitVec 32).getLsbD (cn % 32) = true
  rw [if_pos (by unfold nInusebits at *; omega), BitVec.getLsbD_allOnes]
  exact decide_eq_true (Nat.mod_lt cn (by decide))

theorem markInUse_fillInv (fat : Bytes) (m : Bitmap 32) :
    FillInv pmp { fat := fat, inusemap := markInUse pmp m, freeclustercount := 0 } clustFirst := by
  have hset : ∀ cn, pmp.Valid cn → (markInUse pmp m).test cn = true :=
    fun cn hv => markInUse_test (Nat.div_le_div_right hv.2)
  refine ⟨⟨?_, fun cn _ hidx => markInUse_test hidx⟩, ?_⟩
  · have hnone : clearBits pmp
        { fat := fat, inusemap := markInUse pmp m, freeclustercount := 0 } = ∅ := by
      apply Finset.eq_empty_of_forall_notMem
      intro cn hmem
      obtain ⟨hv, hclear⟩ := mem_clearBits.mp hmem
      rw [hset cn hv] at hclear
      exact Bool.noConfusion hclear
    rw [hnone]
    rfl
  · intro cn hv
    rw [hset cn hv]
    have h1 := hv.1
    simp only [Bool.true_eq_false, false_iff, not_and]
    intro hlt
    omega

theorem fillinusemap_ok {s s' : FatState} {io : Reads} (h : fillinusemap pmp s io = .ok s') :
    MapOk pmp s' ∧ s'.fat = s.fat := by
  unfold fillinusemap at h
  have hinit := @markInUse_fillInv pmp s.fat s.inusemap
  by_cases hmax : clustFirst ≤ pmp.maxcluster + 1
  · obtain ⟨hdone, hfat⟩ := fillinusemapLoop_spec h hinit
      (fun bn heq => absurd heq (by simp)) (Nat.le_refl _) (by omega)
    refine ⟨⟨hdone.toCountOk, ?_⟩, hfat⟩
    intro cn hv
    have h2 := hv.2
    rw [hdone.passed cn hv]
    exact and_iff_right (by omega)
  · -- a volume without clusters
    have hzero : pmp.maxcluster + 1 - clustFirst = 0 := by omega
    rw [hzero] at h
    obtain rfl := Except.ok.inj h
    refine ⟨⟨hinit.toCountOk, ?_⟩, rfl⟩
    intro cn hv
    exact absurd (hv.1.trans hv.2) (by omega)

/-! ## `clusterfree` -/

theorem MapOk.free (h : MapOk pmp s) {cn : Nat} (hv : pmp.Valid cn)
    (hset : s.inusemap.test cn = true) :
    MapOk pmp { Msdosfs.usemapFree s cn with fat := pmp.fat.setEntry s.fat cn 0 } := by
  refine ⟨(h.toCountOk.usemapFree hv hset).congr rfl rfl, ?_⟩
  intro cn' hv'
  show (usemapFree s cn).inusemap.test cn' = false ↔
    pmp.fat.entry (pmp.fat.setEntry s.fat cn 0) cn' = 0
  rw [usemapFree_test]
  by_cases heq : cn' = cn
  · subst heq
    simp [pmp.fat.entry_setEntry_same]
  · rw [pmp.fat.entry_setEntry_other _ _ heq, decide_eq_false heq]
    exact h.entries cn' hv'

theorem usemapAlloc_usemapFree (hset : s.inusemap.test cn = true) :
    usemapAlloc (usemapFree s cn) cn = s := by
  obtain ⟨fat, m, count⟩ := s
  show FatState.mk fat ((m.clear cn).set cn) (count + 1 - 1) = _
  rw [Bitmap.set_clear (by decide) hset, BitVec.add_sub_cancel]

theorem clusterfree_ok {cluster : Nat} (io : Reads) (h : MapOk pmp s)
    (hv : pmp.Valid cluster) (hset : s.inusemap.test cluster = true) :
    MapOk pmp (clusterfree pmp s cluster io).2 := by
  unfold clusterfree
  have hrange : ¬ (cluster < clustFirst ∨ pmp.maxcluster < cluster) := by
    have h1 := hv.1
    have h2 := hv.2
    omega
  unfold fatentry
  rw [if_neg hrange]
  dsimp only
  cases hread : (bread io).1 with
  | true =>
    rw [if_pos rfl]
    show MapOk pmp (usemapAlloc (usemapFree s cluster) cluster)
    rw [usemapAlloc_usemapFree hset]
    exact h
  | false =>
    rw [if_neg Bool.false_ne_true, bData_fatblock]
    exact h.free hv hset

/-! ## `freeclusterchain` -/

/-- The clusters along the chain from `cluster` in a FAT that nobody changes, up to the first
    read that fails. -/
def visited (pmp : Msdosfsmount) (b : Bytes) : Nat → Option Nat → Nat → Reads → List Nat
  | 0, _, _, _ => []
  | fuel + 1, lbn, cluster, io =>
    if pmp.Valid cluster then
      let bn := (fatblock pmp (pmp.fatofs cluster)).bn
      let next := nextCluster pmp (pmp.fat.entry b cluster)
      if lbn = some bn then cluster :: visited pmp b fuel (some bn) next io
      else if (bread io).1 then []
      else cluster :: visited pmp b fuel (some bn) next (bread io).2
    else []

theorem freeclusterchainLoop_succ (s : FatState) (fuel : Nat) (lbn : Option Nat) (cluster : Nat)
    (io : Reads) :
    freeclusterchainLoop pmp (fuel + 1) s lbn cluster io =
      if pmp.Valid cluster then
        let bn := (fatblock pmp (pmp.fatofs cluster)).bn
        let s' : FatState :=
          { usemapFree s cluster with fat := pmp.fat.setEntry s.fat cluster 0 }
        let next := nextCluster pmp (pmp.fat.entry s.fat cluster)
        if lbn = some bn then freeclusterchainLoop pmp fuel s' (some bn) next io
        else if (bread io).1 then some (.error .eio, s)
        else freeclusterchainLoop pmp fuel s' (some bn) next (bread io).2
      else some (.ok (), s) := by
  rw [freeclusterchainLoop]
  simp only [bData_fatblock, usemapFree_fat]
  by_cases hv : pmp.Valid cluster
  · rw [if_pos hv]
    unfold Msdosfsmount.Valid at hv
    rw [if_pos hv]
    by_cases hlbn : lbn = some (fatblock pmp (pmp.fatofs cluster)).bn
    · simp only [hlbn, ne_eq, not_true_eq_false, if_false, if_true, Bool.false_eq_true]
      rfl
    · simp only [hlbn, ne_eq, not_false_eq_true, if_false, if_true]
      rfl
  · rw [if_neg hv]
    unfold Msdosfsmount.Valid at hv
    rw [if_neg hv]

/-- A chain of clusters in use, none of them twice, is freed with its bits. -/
theorem freeclusterchainLoop_ok {b : Bytes} :
    ∀ {fuel : Nat} {s : FatState} {lbn : Option Nat} {cluster : Nat} {io : Reads}
      {r : Except Errno Unit} {s' : FatState},
      freeclusterchainLoop pmp fuel s lbn cluster io = some (r, s') → MapOk pmp s →
      (visited pmp b fuel lbn cluster io).Nodup →
      (∀ c ∈ visited pmp b fuel lbn cluster io,
        pmp.fat.entry s.fat c = pmp.fat.entry b c ∧ pmp.fat.entry b c ≠ 0) →
      MapOk pmp s' := by
  intro fuel
  induction fuel with
  | zero =>
    intro s lbn cluster io r s' hrun _ _ _
    exact absurd hrun (by simp [freeclusterchainLoop])
  | succ fuel ih =>
    intro s lbn cluster io r s' hrun h hnodup hused
    rw [freeclusterchainLoop_succ] at hrun
    unfold visited at hnodup hused
    by_cases hv : pmp.Valid cluster
    · rw [if_pos hv] at hrun hnodup hused
      dsimp only at hrun hnodup hused
      -- the turn frees this cluster and leaves the others of the chain as they are
      have hgo : ∀ {io' : Reads}, freeclusterchainLoop pmp fuel
            { usemapFree s cluster with fat := pmp.fat.setEntry s.fat cluster 0 }
            (some (fatblock pmp (pmp.fatofs cluster)).bn)
            (nextCluster pmp (pmp.fat.entry s.fat cluster)) io' = some (r, s') →
          (cluster :: visited pmp b fuel (some (fatblock pmp (pmp.fatofs cluster)).bn)
            (nextCluster pmp (pmp.fat.entry b cluster)) io').Nodup →
          (∀ c ∈ cluster :: visited pmp b fuel (some (fatblock pmp (pmp.fatofs cluster)).bn)
            (nextCluster pmp (pmp.fat.entry b cluster)) io',
            pmp.fat.entry s.fat c = pmp.fat.entry b c ∧ pmp.fat.entry b c ≠ 0) →
          MapOk pmp s' := by
        intro io' hrest hnodup hused
        obtain ⟨hsame, hne⟩ := hused cluster List.mem_cons_self
        obtain ⟨hnot, hnodup'⟩ := List.nodup_cons.mp hnodup
        have hset : s.inusemap.test cluster = true := by
          by_contra hclear
          exact hne (hsame ▸ (h.entries cluster hv).mp (by simpa using hclear))
        rw [hsame] at hrest
        apply ih hrest (h.free hv hset) hnodup'
        intro c hc
        have hother : c ≠ cluster := fun heq => hnot (heq ▸ hc)
        show pmp.fat.entry (pmp.fat.setEntry s.fat cluster 0) c = _ ∧ _
        rw [pmp.fat.entry_setEntry_other _ _ hother]
        exact hused c (List.mem_cons_of_mem _ hc)
      by_cases hlbn : lbn = some (fatblock pmp (pmp.fatofs cluster)).bn
      · rw [if_pos hlbn] at hrun hnodup hused
        exact hgo hrun hnodup hused
      · rw [if_neg hlbn] at hrun hnodup hused
        by_cases herr : (bread io).1 = true
        · rw [if_pos herr] at hrun
          obtain ⟨_, rfl⟩ := Prod.mk.inj (Option.some.inj hrun)
          exact h
        · rw [if_neg herr] at hrun hnodup hused
          exact hgo hrun hnodup hused
    · rw [if_neg hv] at hrun
      obtain ⟨_, rfl⟩ := Prod.mk.inj (Option.some.inj hrun)
      exact h

/-- The clusters of the volume whose entry is not free. -/
def usedEntries (pmp : Msdosfsmount) (b : Bytes) : Finset Nat :=
  (Finset.Icc clustFirst pmp.maxcluster).filter (fun cn => pmp.fat.entry b cn ≠ 0)

theorem card_usedEntries_setEntry {b : Bytes} (hv : pmp.Valid cn)
    (hused : pmp.fat.entry b cn ≠ 0) :
    (usedEntries pmp (pmp.fat.setEntry b cn 0)).card < (usedEntries pmp b).card := by
  apply Finset.card_lt_card
  have hmem : ∀ b' cn', cn' ∈ usedEntries pmp b' ↔ pmp.Valid cn' ∧ pmp.fat.entry b' cn' ≠ 0 := by
    intro b' cn'
    unfold usedEntries Msdosfsmount.Valid
    rw [Finset.mem_filter, Finset.mem_Icc]
  rw [Finset.ssubset_iff_of_subset]
  · refine ⟨cn, (hmem _ _).mpr ⟨hv, hused⟩, ?_⟩
    rw [hmem, pmp.fat.entry_setEntry_same]
    simp
  · intro cn' hcn'
    rw [hmem] at hcn' ⊢
    refine ⟨hcn'.1, ?_⟩
    by_cases heq : cn' = cn
    · rw [heq]
      exact hused
    · rw [← pmp.fat.entry_setEntry_other b 0 heq]
      exact hcn'.2

/-- A walk on any FAT ends: each turn makes an entry free, and a free entry ends it. -/
theorem freeclusterchainLoop_returns :
    ∀ {fuel : Nat} {s : FatState} (lbn : Option Nat) (cluster : Nat) (io : Reads),
      (usedEntries pmp s.fat).card + 2 ≤ fuel →
      ∃ r, freeclusterchainLoop pmp fuel s lbn cluster io = some r := by
  intro fuel
  induction fuel with
  | zero =>
    intro s lbn cluster io hfuel
    exact absurd hfuel (by omega)
  | succ fuel ih =>
    intro s lbn cluster io hfuel
    rw [freeclusterchainLoop_succ]
    by_cases hv : pmp.Valid cluster
    · have hgo : ∀ io', ∃ r, freeclusterchainLoop pmp fuel
          { usemapFree s cluster with fat := pmp.fat.setEntry s.fat cluster 0 }
          (some (fatblock pmp (pmp.fatofs cluster)).bn)
          (nextCluster pmp (pmp.fat.entry s.fat cluster)) io' = some r := by
        intro io'
        by_cases hfree : pmp.fat.entry s.fat cluster = 0
        · -- the cluster behind a free entry is none of the volume
          obtain ⟨n, rfl⟩ : ∃ n, fuel = n + 1 := ⟨fuel - 1, by omega⟩
          have hnext : nextCluster pmp 0 = 0 := by
            unfold nextCluster Msdosfsmount.rsrvd
            cases pmp.fat <;> rfl
          have hout : ¬ pmp.Valid 0 := fun h0 => absurd h0.1 (by decide)
          rw [hfree, hnext, freeclusterchainLoop_succ, if_neg hout]
          exact ⟨_, rfl⟩
        · apply ih
          have hlt := card_usedEntries_setEntry hv hfree
          show (usedEntries pmp (pmp.fat.setEntry s.fat cluster 0)).card + 2 ≤ fuel
          omega
      rw [if_pos hv]
      dsimp only
      split
      · exact hgo _
      · split
        · exact ⟨_, rfl⟩
        · exact hgo _
    · rw [if_neg hv]
      exact ⟨_, rfl⟩

theorem freeclusterchain_returns (s : FatState) (cluster : Nat) (io : Reads) :
    ∃ r, freeclusterchain pmp s cluster (pmp.maxcluster + 2) io = some r := by
  apply freeclusterchainLoop_returns
  have hle := Finset.card_filter_le (Finset.Icc clustFirst pmp.maxcluster)
    (fun cn => pmp.fat.entry s.fat cn ≠ 0)
  rw [Nat.card_Icc] at hle
  show (Finset.filter _ _).card + 2 ≤ _
  unfold clustFirst at *
  omega

/-! ## Runs -/

/-- The operations on the map after `fillinusemap`. -/
inductive Op where
  | clusteralloc (start count fillwith usec : Nat)
  | clusterfree (cluster : Nat)
  | freeclusterchain (cluster : Nat)

/-- An operation and the outcomes of its reads. -/
abbrev Call := Op × Reads

/-- The state that a call leaves, whether or not it fails. -/
def step (pmp : Msdosfsmount) (s : FatState) : Call → Option FatState
  | (.clusteralloc start count fillwith usec, io) =>
    (clusteralloc pmp s start count fillwith usec (pmp.maxcluster + 2) io).map (·.2)
  | (.clusterfree cluster, io) => some (clusterfree pmp s cluster io).2
  | (.freeclusterchain cluster, io) =>
    (freeclusterchain pmp s cluster (pmp.maxcluster + 2) io).map (·.2)

/-- The calls that keep the map after the FAT. -/
def CallOk (pmp : Msdosfsmount) (s : FatState) : Call → Prop
  | (.clusteralloc start count fillwith _, io) =>
    start / nInusebits ≤ pmp.maxcluster / nInusebits ∧ io.AllGood ∧
      fillwith % (pmp.fat.fatmask + 1) ≠ 0 ∧ (count ≤ 1 ∨ pmp.maxcluster ≤ pmp.fat.fatmask)
  | (.clusterfree cluster, _) => pmp.Valid cluster ∧ s.inusemap.test cluster = true
  | (.freeclusterchain cluster, io) =>
    (visited pmp s.fat (pmp.maxcluster + 2) none cluster io).Nodup ∧
      ∀ c ∈ visited pmp s.fat (pmp.maxcluster + 2) none cluster io, pmp.fat.entry s.fat c ≠ 0

theorem step_ok (h : MapOk pmp s) {c : Call} (hc : CallOk pmp s c) :
    ∃ s', step pmp s c = some s' ∧ MapOk pmp s' := by
  obtain ⟨op, io⟩ := c
  cases op with
  | clusteralloc start count fillwith usec =>
    obtain ⟨hstart, hio, hfill, hmask⟩ := hc
    obtain ⟨r, s', hres, hok⟩ := clusteralloc_ok usec h hstart hio hfill hmask
    refine ⟨s', ?_, hok⟩
    show (Msdosfs.clusteralloc pmp s start count fillwith usec _ io).map (·.2) = some s'
    rw [hres]
    rfl
  | clusterfree cluster => exact ⟨_, rfl, clusterfree_ok io h hc.1 hc.2⟩
  | freeclusterchain cluster =>
    obtain ⟨⟨r, s'⟩, hres⟩ := @freeclusterchain_returns pmp s cluster io
    refine ⟨s', ?_, ?_⟩
    · show (Msdosfs.freeclusterchain pmp s cluster _ io).map (·.2) = some s'
      rw [hres]
      rfl
    · exact freeclusterchainLoop_ok hres h hc.1 (fun c hc' => ⟨rfl, hc.2 c hc'⟩)

/-- After `fillinusemap`, over every run of calls that meet `CallOk`, a bit is clear exactly
    when the entry of its cluster is free and the count is that of the clear bits.
    `freeclusterchain` returns in every state. -/
theorem msdosfs_run_tracks (pmp : Msdosfsmount) :
    (∀ (s s₀ s₁ : FatState) (io : Reads) (calls : List Call),
      fillinusemap pmp s io = .ok s₀ → Run (step pmp) (CallOk pmp) s₀ calls s₁ →
      Tracks pmp s₁) ∧
    ∀ (s : FatState) (cluster : Nat) (io : Reads),
      ∃ r, freeclusterchain pmp s cluster (pmp.maxcluster + 2) io = some r := by
  constructor
  · intro s s₀ s₁ io calls hfill hrun
    apply MapOk.tracks
    apply hrun.invariant _ (fillinusemap_ok hfill).1
    intro s c s' h hc hstep
    obtain ⟨s'', hres, hok⟩ := step_ok h hc
    rw [hstep] at hres
    obtain rfl := Option.some.inj hres
    exact hok
  · exact freeclusterchain_returns

/-! ## One volume -/

/-- A FAT12 of one sector with the clusters 2 to 4. -/
def smallVolume : Msdosfsmount where
  fat := .fat12
  maxcluster := 4
  bytesPerSec := 512
  fatSecs := 1
  secPos := sector_pos
  sector := dvd_sector
  maxcluster_lt := four_lt

/-- Before `fillinusemap`: only the FAT matters. -/
def unfilled (b : Bytes) : FatState := { fat := b, inusemap := fun _ => 0, freeclustercount := 0 }

/-- The FAT without a cluster in use. -/
def emptyFat : Bytes := fun _ => 0

/-- The FAT whose cluster 2 has itself as the next one. -/
def loopedFat : Bytes := fun p => if p = 3 then 2 else 0

/-- The state that `fillinusemap` leaves. -/
def filled (b : Bytes) : FatState :=
  match fillinusemap smallVolume (unfilled b) [] with
  | .ok s => s
  | .error _ => unfilled b

/-- The state after a call. -/
def after (s : FatState) (c : Call) : FatState := (step smallVolume s c).getD s

theorem step_after {c : Call} (h : (step smallVolume s c).isSome = true) :
    step smallVolume s c = some (after s c) := by
  unfold after
  cases hs : step smallVolume s c with
  | none =>
    rw [hs] at h
    exact absurd h (by simp)
  | some s' => rfl

/-- A chain of two clusters is taken and freed again. -/
theorem msdosfs_run_tracks_two :
    ∃ s, Run (step smallVolume) (CallOk smallVolume) (filled emptyFat)
      [(.clusteralloc 0 2 0xffffffff 7, []), (.freeclusterchain 2, [])] s ∧
      Tracks smallVolume s := by
  have hrun : Run (step smallVolume) (CallOk smallVolume) (filled emptyFat)
      [(.clusteralloc 0 2 0xffffffff 7, []), (.freeclusterchain 2, [])]
      (after (after (filled emptyFat) (.clusteralloc 0 2 0xffffffff 7, []))
        (.freeclusterchain 2, [])) := by
    apply Run.cons _ (step_after (by decide))
    · apply Run.cons _ (step_after (by decide)) (Run.nil _)
      show List.Nodup _ ∧ ∀ c ∈ visited _ _ _ _ _ _, _ ≠ _
      decide
    · refine ⟨by decide, ?_, by decide, by decide⟩
      intro error herror
      exact absurd herror (List.not_mem_nil)
  exact ⟨_, hrun, (msdosfs_run_tracks smallVolume).1 (unfilled emptyFat) _ _ [] _ rfl hrun⟩

/-- A cluster that is its own successor is freed twice and counted twice, and the clusters of an
    allocation whose block cannot be read stay marked in use. -/
theorem freed_twice_and_not_undone :
    (fillinusemap smallVolume (unfilled loopedFat) [] = .ok (filled loopedFat) ∧
      step smallVolume (filled loopedFat) (.freeclusterchain 2, []) =
        some (after (filled loopedFat) (.freeclusterchain 2, [])) ∧
      ¬ Tracks smallVolume (after (filled loopedFat) (.freeclusterchain 2, []))) ∧
    (fillinusemap smallVolume (unfilled emptyFat) [] = .ok (filled emptyFat) ∧
      step smallVolume (filled emptyFat) (.clusteralloc 0 1 0xffffffff 7, [true]) =
        some (after (filled emptyFat) (.clusteralloc 0 1 0xffffffff 7, [true])) ∧
      ¬ Tracks smallVolume
        (after (filled emptyFat) (.clusteralloc 0 1 0xffffffff 7, [true]))) := by
  refine ⟨⟨rfl, step_after (by decide), ?_⟩, ⟨rfl, step_after (by decide), ?_⟩⟩
  · intro h
    have hcount := h.count_eq
    revert hcount
    decide
  · intro h
    have hclear := h.clear_iff_free 4 (by decide) (by decide)
    revert hclear
    decide

end OpenBsd.Msdosfs
