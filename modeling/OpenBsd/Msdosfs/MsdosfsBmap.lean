/-
  OpenBsd.Msdosfs.MsdosfsBmap

  `pcbmap`: the cluster of a file by its place in the chain, with the cache of the denode, and
  when it stays inside the FAT and the data area.

  The chain is followed through whatever the FAT holds.  A bytes function stands for the disk from
  the start of the current FAT on; a read over the end of a block takes the bytes behind it.
-/

import OpenBsd.Msdosfs.MsdosfsFatEntry

namespace OpenBsd.Msdosfs

/-! ## The volume and the file -/

/-- What `pcbmap` reads of `struct msdosfsmount` beside the FAT. -/
structure Msdosfsvol extends Msdosfsmount where
  fatSecs_lt : fatSecs < 2 ^ 32
  firstcluster : Nat
  rootdirblk : Nat
  rootdirsize : Nat
  bpcluster : Nat
  cnshift : Nat
  bnshift : Nat

namespace Msdosfsvol

variable (pmp : Msdosfsvol)

def cn2bn (cn : Nat) : Nat := cn * 2 ^ (pmp.cnshift - pmp.bnshift) % 2 ^ 32

def bn2cn (bn : Nat) : Nat := bn / 2 ^ (pmp.cnshift - pmp.bnshift)

def cn2off (cn : Nat) : Nat := cn * 2 ^ pmp.cnshift % 2 ^ 32

def cntobn (cn : Nat) : Nat := (pmp.cn2bn (cn - clustFirst) + pmp.firstcluster) % 2 ^ 32

end Msdosfsvol

/-- `(cn | ~pm_fatmask) >= CLUST_RSRVD`, also for a number with bits above the mask. -/
def Msdosfsmount.rsrvdCn (pmp : Msdosfsmount) (cn : Nat) : Bool :=
  pmp.fat.fatmask - 9 ≤ cn % (pmp.fat.fatmask + 1)

/-- `MSDOSFSEOF`. -/
def Msdosfsmount.eofCn (pmp : Msdosfsmount) (cn : Nat) : Bool :=
  pmp.fat.fatmask - 7 ≤ cn % (pmp.fat.fatmask + 1)

/-- `fatblock`, where `pm_FATsecs - bn` wraps around for a block behind the FAT. -/
def fatblock32 (pmp : Msdosfsmount) (ofs : Nat) : Fatblock :=
  let bn := ofs / pmp.fatblocksize * pmp.fatblocksec
  { bn := bn
    bsize := min pmp.fatblocksec ((pmp.fatSecs + 2 ^ 32 - bn) % 2 ^ 32) * devBsize
    bo := ofs % pmp.fatblocksize }

def fceEmpty : Nat := 0xffffffff

/-- `struct fatcache`. -/
structure Fatcache where
  frcn : Nat
  fsrcn : Nat

def fcLastmap : Fin 3 := 0
def fcLastfc : Fin 3 := 1
def fcOlastfc : Fin 3 := 2

/-- What `pcbmap` and `extendfile` use of `struct denode`; `directory` is `ATTR_DIRECTORY`. -/
structure Denode where
  startCluster : Nat
  directory : Bool
  fileSize : Nat
  fc : Fin 3 → Fatcache

def Denode.setcache (dep : Denode) (slot : Fin 3) (frcn fsrcn : Nat) : Denode :=
  { dep with fc := fun k => if k = slot then { frcn := frcn, fsrcn := fsrcn } else dep.fc k }

/-! ## `fc_lookup` and `fc_purge` -/

/-- One turn of the loop of `fc_lookup`. -/
def fcCloser (findcn : Nat) (closest : Option Fatcache) (e : Fatcache) : Option Fatcache :=
  if e.frcn ≠ fceEmpty ∧ e.frcn ≤ findcn then
    match closest with
    | none => some e
    | some c => if c.frcn < e.frcn then some e else some c
  else closest

/-- `fc_lookup`: the entry that is the closest one, if there is any. -/
def fcLookup (dep : Denode) (findcn : Nat) : Option Fatcache :=
  [dep.fc 0, dep.fc 1, dep.fc 2].foldl (fcCloser findcn) none

def fcPurge (dep : Denode) (frcn : Nat) : Denode :=
  { dep with fc := fun k =>
      if frcn ≤ (dep.fc k).frcn then { dep.fc k with frcn := fceEmpty } else dep.fc k }

/-! ## `pcbmap` -/

/-- How the loop of `pcbmap` ends. -/
inductive WalkEnd where
  | found (i cn prevcn : Nat)
  | hiteof (i prevcn : Nat)
  | eio

/-- The loop of `pcbmap` over `n` links, with the block in `bp`, and the blocks that it reads:
    where they start in the FAT, in device blocks, and their size. -/
def pcbmapLoop (pmp : Msdosfsmount) (b : Bytes) :
    Nat → Nat → Nat → Nat → Option Nat → Reads → WalkEnd × List (Nat × Nat)
  | 0, i, cn, prevcn, _, _ => (.found i cn prevcn, [])
  | n + 1, i, cn, prevcn, bpBn, io =>
    if pmp.rsrvdCn cn then (.hiteof i prevcn, [])
    else
      let blk := fatblock32 pmp (pmp.fatofs cn)
      let hit := bpBn = some blk.bn
      let reads := if hit then [] else [(blk.bn, blk.bsize)]
      if ¬ hit ∧ (bread io).1 then (.eio, reads)
      else if blk.bsize ≤ blk.bo then (.eio, reads)
      else
        let next := pmp.extend (pmp.fat.getEntry b (bData blk.bn blk.bo) cn)
        let r := pcbmapLoop pmp b n (i + 1) next cn (some blk.bn)
          (if hit then io else (bread io).2)
        (r.1, reads ++ r.2)

/-- What `pcbmap` returns: 0 with `*bnp`, `*cnp` and `*sp`, `E2BIG` with `*cnp`, or the error of a
    read. -/
inductive BmapRes where
  | ok (bn cn sp : Nat)
  | e2big (cn : Nat)
  | eio
  deriving DecidableEq

/-- `pcbmap(dep, findcn, ...)`: what it returns, the denode with its cache, and the blocks of the
    FAT that it reads. -/
def pcbmap (pmp : Msdosfsvol) (b : Bytes) (dep : Denode) (findcn : Nat) (io : Reads) :
    BmapRes × Denode × List (Nat × Nat) :=
  if dep.startCluster = 0 then
    if dep.directory then
      -- the root directory is contiguous
      if dep.fileSize ≤ pmp.cn2off findcn then (.e2big (pmp.bn2cn pmp.rootdirsize), dep, [])
      else
        (.ok ((pmp.rootdirblk + pmp.cn2bn findcn) % 2 ^ 32) 0
          (min pmp.bpcluster (dep.fileSize - pmp.cn2off findcn)), dep, [])
    else (.e2big 0, dep, [])
  else
    let c := (fcLookup dep findcn).getD { frcn := 0, fsrcn := dep.startCluster }
    let r := pcbmapLoop pmp.toMsdosfsmount b (findcn - c.frcn) c.frcn c.fsrcn 0 none io
    match r.1 with
    | .eio => (.eio, dep, r.2)
    | .hiteof i prevcn =>
      (.e2big i, dep.setcache fcLastfc ((i + (2 ^ 32 - 1)) % 2 ^ 32) prevcn, r.2)
    | .found i cn prevcn =>
      if pmp.eofCn cn then
        (.e2big i, dep.setcache fcLastfc ((i + (2 ^ 32 - 1)) % 2 ^ 32) prevcn, r.2)
      else (.ok (pmp.cntobn cn) cn pmp.bpcluster, dep.setcache fcLastmap i cn, r.2)

/-! ## The chain in the FAT -/

/-- The clusters along the links of the FAT from `start` on, whatever they are. -/
def walk (pmp : Msdosfsmount) (b : Bytes) (start : Nat) : Nat → Nat
  | 0 => start
  | i + 1 => pmp.extend (pmp.fat.entry b (walk pmp b start i))

/-- None of the first `i` clusters of the walk is a reserved value. -/
def Passed (pmp : Msdosfsmount) (b : Bytes) (start i : Nat) : Prop :=
  ∀ j < i, pmp.rsrvdCn (walk pmp b start j) = false

/-- Up to the first reserved value the walk meets clusters of the volume only, and that value marks
    the end of the file. -/
def LinksOk (pmp : Msdosfsmount) (b : Bytes) (start : Nat) : Prop :=
  ∀ i, Passed pmp b start i →
    pmp.Valid (walk pmp b start i) ∨ pmp.eofCn (walk pmp b start i) = true

/-- A block that lies in the FAT. -/
def InFat (pmp : Msdosfsmount) (blk : Nat × Nat) : Prop :=
  blk.1 * devBsize + blk.2 ≤ pmp.fatSecs * devBsize

variable {pmp : Msdosfsmount} {b : Bytes} {start : Nat}

theorem rsrvdCn_of_eofCn {cn : Nat} (h : pmp.eofCn cn = true) : pmp.rsrvdCn cn = true := by
  simp only [Msdosfsmount.eofCn, Msdosfsmount.rsrvdCn, decide_eq_true_eq] at *
  omega

variable {i : Nat}

theorem Passed.mono {j : Nat} (h : Passed pmp b start i) (hle : j ≤ i) :
    Passed pmp b start j := fun k hk => h k (Nat.lt_of_lt_of_le hk hle)

theorem Passed.succ (h : Passed pmp b start i)
    (hi : pmp.rsrvdCn (walk pmp b start i) = false) : Passed pmp b start (i + 1) := by
  intro j hj
  rcases Nat.lt_succ_iff_lt_or_eq.mp hj with hlt | rfl
  · exact h j hlt
  · exact hi

theorem fatblock32_eq {cn : Nat} (hsecs : pmp.fatSecs < 2 ^ 32) (hv : pmp.Valid cn) :
    fatblock32 pmp (pmp.fatofs cn) = fatblock pmp (pmp.fatofs cn) ∧
      InFat pmp ((fatblock pmp (pmp.fatofs cn)).bn, (fatblock pmp (pmp.fatofs cn)).bsize) ∧
      (fatblock pmp (pmp.fatofs cn)).bo < (fatblock pmp (pmp.fatofs cn)).bsize := by
  have hfat := fatofs_lt_fatsize pmp hv.2
  have hin := entry_in_block pmp hv.2
  have hwidth : 0 < pmp.fat.width := by
    cases pmp.fat <;> exact Nat.succ_pos _
  have hbn : (fatblock pmp (pmp.fatofs cn)).bn ≤ pmp.fatSecs := by
    have hpos := bData_fatblock pmp (pmp.fatofs cn)
    unfold bData devBsize at hpos
    unfold devBsize at hfat
    omega
  have hsub : (pmp.fatSecs + 2 ^ 32 - (fatblock pmp (pmp.fatofs cn)).bn) % 2 ^ 32 =
      pmp.fatSecs - (fatblock pmp (pmp.fatofs cn)).bn := by
    omega
  refine ⟨?_, ?_, by omega⟩
  · show Fatblock.mk _ (min _ _ * _) _ = Fatblock.mk _ (min _ _ * _) _
    rw [show (pmp.fatSecs + 2 ^ 32 - pmp.fatofs cn / pmp.fatblocksize * pmp.fatblocksec) % 2 ^ 32 =
      pmp.fatSecs - pmp.fatofs cn / pmp.fatblocksize * pmp.fatblocksec from hsub]
  · show (fatblock pmp (pmp.fatofs cn)).bn * devBsize +
      min pmp.fatblocksec (pmp.fatSecs - (fatblock pmp (pmp.fatofs cn)).bn) * devBsize ≤ _
    rw [← Nat.add_mul]
    exact Nat.mul_le_mul_right _ (by omega)

/-- What the loop of `pcbmap` finds from place `i` of the walk on, as long as the links it takes are
    clusters of the volume. -/
theorem pcbmapLoop_spec (hsecs : pmp.fatSecs < 2 ^ 32) (n i cn prevcn : Nat) (bpBn : Option Nat)
    (io : Reads) (hcn : cn = walk pmp b start i) (hpass : Passed pmp b start i)
    (hv : ∀ j, i ≤ j → j < i + n → Passed pmp b start (j + 1) → pmp.Valid (walk pmp b start j)) :
    (∀ blk ∈ (pcbmapLoop pmp b n i cn prevcn bpBn io).2, InFat pmp blk) ∧
      (io.AllGood → (pcbmapLoop pmp b n i cn prevcn bpBn io).1 ≠ .eio) ∧
      (∀ i' cn' prevcn', (pcbmapLoop pmp b n i cn prevcn bpBn io).1 = .found i' cn' prevcn' →
        i' = i + n ∧ cn' = walk pmp b start i' ∧ Passed pmp b start i' ∧
          prevcn' = if n = 0 then prevcn else walk pmp b start (i' - 1)) ∧
      ∀ i' prevcn', (pcbmapLoop pmp b n i cn prevcn bpBn io).1 = .hiteof i' prevcn' →
        i ≤ i' ∧ i' < i + n ∧ pmp.rsrvdCn (walk pmp b start i') = true ∧
          Passed pmp b start i' ∧
          prevcn' = if i' = i then prevcn else walk pmp b start (i' - 1) := by
  induction n generalizing i cn prevcn bpBn io with
  | zero =>
    refine ⟨fun blk h => absurd h (List.not_mem_nil), fun _ => by simp [pcbmapLoop], ?_, ?_⟩
    · intro i' cn' prevcn' h
      obtain ⟨rfl, rfl, rfl⟩ := WalkEnd.found.inj h
      exact ⟨rfl, hcn, hpass, rfl⟩
    · intro i' prevcn' h
      exact absurd h (by simp [pcbmapLoop])
  | succ n ih =>
    rw [pcbmapLoop]
    by_cases hrsrvd : pmp.rsrvdCn cn = true
    · rw [if_pos hrsrvd]
      refine ⟨fun blk h => absurd h (List.not_mem_nil), fun _ => by simp, ?_, ?_⟩
      · intro i' cn' prevcn' h
        exact absurd h (by simp)
      · intro i' prevcn' h
        obtain ⟨rfl, rfl⟩ := WalkEnd.hiteof.inj h
        exact ⟨Nat.le_refl _, by omega, hcn ▸ hrsrvd, hpass, (if_pos rfl).symm⟩
    · rw [if_neg hrsrvd]
      have hnext : Passed pmp b start (i + 1) :=
        hpass.succ (hcn ▸ (Bool.not_eq_true _).mp hrsrvd)
      have hvalid : pmp.Valid cn := hcn ▸ hv i (Nat.le_refl i) (by omega) hnext
      obtain ⟨hblk, hin, hbo⟩ := fatblock32_eq hsecs hvalid
      dsimp only
      rw [hblk, getEntry_fatblock]
      have hread : ∀ blk ∈ (if bpBn = some (fatblock pmp (pmp.fatofs cn)).bn then []
          else [((fatblock pmp (pmp.fatofs cn)).bn, (fatblock pmp (pmp.fatofs cn)).bsize)]),
          InFat pmp blk := by
        intro blk hmem
        split at hmem
        · exact absurd hmem (List.not_mem_nil)
        · rw [List.mem_singleton] at hmem
          exact hmem ▸ hin
      by_cases herr : ¬ bpBn = some (fatblock pmp (pmp.fatofs cn)).bn ∧ (bread io).1 = true
      · rw [if_pos herr]
        refine ⟨hread, fun hio => ?_, ?_, ?_⟩
        · rw [hio.bread.1] at herr
          exact absurd herr.2 (by simp)
        · exact fun _ _ _ h => absurd h (by simp)
        · exact fun _ _ h => absurd h (by simp)
      · rw [if_neg herr, if_neg (Nat.not_le.mpr hbo)]
        -- the next place of the walk
        have hwalk : pmp.extend (pmp.fat.entry b cn) = walk pmp b start (i + 1) := by
          rw [hcn]
          rfl
        obtain ⟨h1, h2, h3, h4⟩ := ih (i + 1) (pmp.extend (pmp.fat.entry b cn)) cn
          (some (fatblock pmp (pmp.fatofs cn)).bn)
          (if bpBn = some (fatblock pmp (pmp.fatofs cn)).bn then io else (bread io).2) hwalk hnext
          (fun j hj hlt => hv j (by omega) (by omega))
        refine ⟨?_, ?_, ?_, ?_⟩
        · intro blk hmem
          rcases List.mem_append.mp hmem with hmem | hmem
          · exact hread blk hmem
          · exact h1 blk hmem
        · intro hio
          apply h2
          split
          · exact hio
          · exact hio.bread.2
        · intro i' cn' prevcn' h
          obtain ⟨rfl, hcn', hpass', hprev⟩ := h3 i' cn' prevcn' h
          refine ⟨by omega, hcn', hpass', ?_⟩
          rw [hprev, if_neg (Nat.succ_ne_zero n)]
          split
          · next hn =>
            subst hn
            exact hcn
          · rfl
        · intro i' prevcn' h
          obtain ⟨hle, hlt, hres, hpass', hprev⟩ := h4 i' prevcn' h
          refine ⟨by omega, by omega, hres, hpass', ?_⟩
          rw [hprev, if_neg (by omega : ¬ i' = i)]
          split
          · next heq =>
            subst heq
            exact hcn
          · rfl

/-! ## The walk -/

theorem walk_add (i j : Nat) : walk pmp b start (i + j) = walk pmp b (walk pmp b start i) j := by
  induction j with
  | zero => rfl
  | succ j ih =>
    show pmp.extend (pmp.fat.entry b (walk pmp b start (i + j))) = _
    rw [ih]
    rfl

theorem not_valid_of_rsrvd (h : pmp.rsrvdCn (walk pmp b start (i + 1)) = true) :
    ¬ pmp.Valid (walk pmp b start (i + 1)) := by
  have hmax := pmp.maxcluster_bound
  have hstep : walk pmp b start (i + 1) = pmp.extend (pmp.fat.entry b (walk pmp b start i)) := rfl
  rw [hstep] at h ⊢
  generalize pmp.fat.entry b (walk pmp b start i) = c at h ⊢
  intro hv
  have hle := hv.2
  have hmask : pmp.fat.fatmask ≤ 0x0fffffff ∧ 9 < pmp.fat.fatmask := by
    cases pmp.fat <;> decide
  by_cases hc : pmp.rsrvd c = true
  · have hge : pmp.fat.fatmask - 9 ≤ c := of_decide_eq_true hc
    rw [Msdosfsmount.extend, if_pos hc] at hle
    omega
  · have hlt : ¬ pmp.fat.fatmask - 9 ≤ c := fun hge => hc (decide_eq_true hge)
    rw [Msdosfsmount.extend, if_neg hc] at h
    have hmod : pmp.fat.fatmask - 9 ≤ c % (pmp.fat.fatmask + 1) := of_decide_eq_true h
    rw [Nat.mod_eq_of_lt (by omega)] at hmod
    exact hlt hmod

theorem LinksOk.valid (h : LinksOk pmp b start) (hpass : Passed pmp b start (i + 1)) :
    pmp.Valid (walk pmp b start i) := by
  refine (h i (hpass.mono (Nat.le_succ i))).resolve_right ?_
  intro heof
  have hno := hpass i (Nat.lt_succ_self i)
  rw [rsrvdCn_of_eofCn heof] at hno
  exact Bool.noConfusion hno

/-- Clusters of the volume all the way to a link that is none: the way is not longer than the
    volume, since one that came to a cluster again would never leave it. -/
theorem walk_short (hv : ∀ j < i, pmp.Valid (walk pmp b start j))
    (hnot : ¬ pmp.Valid (walk pmp b start i)) : i ≤ pmp.maxcluster := by
  by_contra hlong
  have hmaps : ∀ j ∈ Finset.range i, walk pmp b start j ∈ Finset.Icc clustFirst pmp.maxcluster :=
    fun j hj => Finset.mem_Icc.mpr (hv j (Finset.mem_range.mp hj))
  have hcard : (Finset.Icc clustFirst pmp.maxcluster).card < (Finset.range i).card := by
    rw [Nat.card_Icc, Finset.card_range]
    unfold clustFirst
    omega
  obtain ⟨x, hx, y, hy, hne, heq⟩ := Finset.exists_ne_map_eq_of_card_lt_of_maps_to hcard hmaps
  rw [Finset.mem_range] at hx hy
  have hback : ∀ {a c : Nat}, a < c → c < i → walk pmp b start a = walk pmp b start c → False := by
    intro a c hac hci hsame
    have hend : walk pmp b start i = walk pmp b start (a + (i - c)) := by
      rw [walk_add, hsame, ← walk_add]
      congr 1
      omega
    exact hnot (hend ▸ hv (a + (i - c)) (by omega))
  rcases Nat.lt_or_gt_of_ne hne with hlt | hlt
  · exact hback hlt hy heq
  · exact hback hlt hx heq.symm

/-! ## The cache -/

/-- Each entry of the cache that is in use is a place of the walk, in front of the end of the
    file. -/
def CacheOk (pmp : Msdosfsmount) (b : Bytes) (dep : Denode) : Prop :=
  ∀ k, (dep.fc k).frcn ≠ fceEmpty →
    (dep.fc k).fsrcn = walk pmp b dep.startCluster (dep.fc k).frcn ∧
      Passed pmp b dep.startCluster (dep.fc k).frcn ∧
      pmp.eofCn (walk pmp b dep.startCluster (dep.fc k).frcn) = false

theorem fcCloser_some {findcn : Nat} {closest : Option Fatcache} {e c : Fatcache}
    (h : fcCloser findcn closest e = some c) :
    closest = some c ∨ (c = e ∧ e.frcn ≠ fceEmpty ∧ e.frcn ≤ findcn) := by
  unfold fcCloser at h
  split at h
  · next huse =>
    cases closest with
    | none => exact Or.inr ⟨(Option.some.inj h).symm, huse⟩
    | some c' =>
      dsimp only at h
      split at h
      · exact Or.inr ⟨(Option.some.inj h).symm, huse⟩
      · exact Or.inl h
  · exact Or.inl h

theorem fcLookup_some {dep : Denode} {findcn : Nat} {c : Fatcache}
    (h : fcLookup dep findcn = some c) :
    (∃ k, c = dep.fc k) ∧ c.frcn ≠ fceEmpty ∧ c.frcn ≤ findcn := by
  have hentry : ∀ {k : Fin 3}, c = dep.fc k ∧ (dep.fc k).frcn ≠ fceEmpty ∧
      (dep.fc k).frcn ≤ findcn →
      (∃ k, c = dep.fc k) ∧ c.frcn ≠ fceEmpty ∧ c.frcn ≤ findcn := by
    rintro k ⟨rfl, hne, hle⟩
    exact ⟨⟨k, rfl⟩, hne, hle⟩
  rcases fcCloser_some h with h | h
  · rcases fcCloser_some h with h | h
    · rcases fcCloser_some h with h | h
      · exact absurd h (by simp)
      · exact hentry h
    · exact hentry h
  · exact hentry h

theorem CacheOk.lookup {dep : Denode} (h : CacheOk pmp b dep) (findcn : Nat) {c : Fatcache}
    (hc : c = (fcLookup dep findcn).getD { frcn := 0, fsrcn := dep.startCluster }) :
    c.frcn ≤ findcn ∧ c.fsrcn = walk pmp b dep.startCluster c.frcn ∧
      Passed pmp b dep.startCluster c.frcn ∧
      (c.frcn = 0 ∨ pmp.eofCn (walk pmp b dep.startCluster c.frcn) = false) := by
  cases hl : fcLookup dep findcn with
  | none =>
    rw [hl, Option.getD_none] at hc
    subst hc
    exact ⟨Nat.zero_le _, rfl, fun j hj => absurd hj (Nat.not_lt_zero j), Or.inl rfl⟩
  | some c' =>
    rw [hl, Option.getD_some] at hc
    subst hc
    obtain ⟨⟨k, rfl⟩, hne, hle⟩ := fcLookup_some hl
    obtain ⟨h1, h2, h3⟩ := h k hne
    exact ⟨hle, h1, h2, Or.inr h3⟩

theorem CacheOk.setcache {dep : Denode} (h : CacheOk pmp b dep) (slot : Fin 3) {frcn fsrcn : Nat}
    (hnew : frcn ≠ fceEmpty → fsrcn = walk pmp b dep.startCluster frcn ∧
      Passed pmp b dep.startCluster frcn ∧
      pmp.eofCn (walk pmp b dep.startCluster frcn) = false) :
    CacheOk pmp b (dep.setcache slot frcn fsrcn) := by
  intro k hk
  by_cases hslot : k = slot
  · have hfc : (dep.setcache slot frcn fsrcn).fc k = { frcn := frcn, fsrcn := fsrcn } :=
      if_pos hslot
    rw [hfc] at hk ⊢
    exact hnew hk
  · have hfc : (dep.setcache slot frcn fsrcn).fc k = dep.fc k := if_neg hslot
    rw [hfc] at hk ⊢
    exact h k hk

theorem CacheOk.purge {dep : Denode} (h : CacheOk pmp b dep) (frcn : Nat) :
    CacheOk pmp b (fcPurge dep frcn) := by
  intro k hk
  by_cases hout : frcn ≤ (dep.fc k).frcn
  · have hfc : (fcPurge dep frcn).fc k = { dep.fc k with frcn := fceEmpty } := if_pos hout
    rw [hfc] at hk
    exact absurd rfl hk
  · have hfc : (fcPurge dep frcn).fc k = dep.fc k := if_neg hout
    rw [hfc] at hk ⊢
    exact h k hk

/-! ## One call -/

section

variable {vol : Msdosfsvol} {dep : Denode} {findcn : Nat} {io : Reads}

/-- What a call does on a file, as long as the links it takes are clusters of the volume. -/
theorem pcbmap_spec (hne : dep.startCluster ≠ 0) (hcache : CacheOk vol.toMsdosfsmount b dep)
    (hv : ∀ j < findcn, Passed vol.toMsdosfsmount b dep.startCluster (j + 1) →
      vol.Valid (walk vol.toMsdosfsmount b dep.startCluster j)) :
    (∀ blk ∈ (pcbmap vol b dep findcn io).2.2, InFat vol.toMsdosfsmount blk) ∧
      (io.AllGood → (pcbmap vol b dep findcn io).1 ≠ .eio) ∧
      ((pcbmap vol b dep findcn io).1 = .eio → (pcbmap vol b dep findcn io).2.1 = dep) ∧
      (∀ bn cn sp, (pcbmap vol b dep findcn io).1 = .ok bn cn sp →
        cn = walk vol.toMsdosfsmount b dep.startCluster findcn ∧
          Passed vol.toMsdosfsmount b dep.startCluster findcn ∧ vol.eofCn cn = false ∧
          bn = vol.cntobn cn ∧
          (pcbmap vol b dep findcn io).2.1 = dep.setcache fcLastmap findcn cn) ∧
      ∀ i, (pcbmap vol b dep findcn io).1 = .e2big i →
        i ≤ findcn ∧ Passed vol.toMsdosfsmount b dep.startCluster i ∧
          vol.rsrvdCn (walk vol.toMsdosfsmount b dep.startCluster i) = true ∧
          (i = findcn → vol.eofCn (walk vol.toMsdosfsmount b dep.startCluster i) = true) ∧
          ∃ c prevcn, c ≤ i ∧ (c = 0 ∨ vol.eofCn
              (walk vol.toMsdosfsmount b dep.startCluster c) = false) ∧
            (prevcn = if i = c then 0 else walk vol.toMsdosfsmount b dep.startCluster (i - 1)) ∧
            (pcbmap vol b dep findcn io).2.1 =
              dep.setcache fcLastfc ((i + (2 ^ 32 - 1)) % 2 ^ 32) prevcn := by
  rw [pcbmap, if_neg hne]
  dsimp only
  generalize hc : (fcLookup dep findcn).getD { frcn := 0, fsrcn := dep.startCluster } = c
  obtain ⟨hle, hcn, hpass, hfirst⟩ := hcache.lookup findcn hc.symm
  obtain ⟨h1, h2, h3, h4⟩ := pcbmapLoop_spec (b := b) vol.fatSecs_lt (findcn - c.frcn) c.frcn
    c.fsrcn 0 none io hcn hpass (fun j _ hlt => hv j (by omega))
  generalize pcbmapLoop vol.toMsdosfsmount b (findcn - c.frcn) c.frcn c.fsrcn 0 none io = r at *
  obtain ⟨e, blks⟩ := r
  cases e with
  | eio =>
    exact ⟨h1, fun hio => absurd rfl (h2 hio), fun _ => rfl, fun _ _ _ h => absurd h (by simp),
      fun _ h => absurd h (by simp)⟩
  | hiteof i prevcn =>
    obtain ⟨hci, hlt, hrsrvd, hpass', hprev⟩ := h4 i prevcn rfl
    refine ⟨h1, fun _ => by simp, fun h => absurd h (by simp), fun _ _ _ h => absurd h (by simp),
      ?_⟩
    intro i' h
    obtain rfl := BmapRes.e2big.inj h
    exact ⟨by omega, hpass', hrsrvd, fun heq => by omega, c.frcn, prevcn, hci, hfirst, hprev, rfl⟩
  | found i cn prevcn =>
    obtain ⟨hi, hcn', hpass', hprev⟩ := h3 i cn prevcn rfl
    have hi' : i = findcn := by omega
    subst hi'
    dsimp only
    by_cases heof : vol.eofCn cn = true
    · rw [if_pos heof]
      refine ⟨h1, fun _ => by simp, fun h => absurd h (by simp), fun _ _ _ h => absurd h (by simp),
        ?_⟩
      intro i' h
      obtain rfl := BmapRes.e2big.inj h
      refine ⟨Nat.le_refl _, hpass', rsrvdCn_of_eofCn (hcn' ▸ heof), fun _ => hcn' ▸ heof,
        c.frcn, prevcn, hle, hfirst, ?_, rfl⟩
      rw [hprev]
      by_cases hzero : i - c.frcn = 0
      · rw [if_pos hzero, if_pos (by omega)]
      · rw [if_neg hzero, if_neg (by omega)]
    · rw [if_neg heof]
      refine ⟨h1, fun _ => by simp, fun h => absurd h (by simp), ?_, fun _ h => absurd h (by simp)⟩
      intro bn cn'' sp h
      obtain ⟨rfl, rfl, rfl⟩ := BmapRes.ok.inj h
      exact ⟨hcn', hpass', (Bool.not_eq_true _).mp heof, rfl, rfl⟩

/-- On a file whose links are good the cache stays right. -/
theorem pcbmap_cacheOk (hne : dep.startCluster ≠ 0) (hcache : CacheOk vol.toMsdosfsmount b dep)
    (hlinks : LinksOk vol.toMsdosfsmount b dep.startCluster) :
    (pcbmap vol b dep findcn io).2.1.startCluster = dep.startCluster ∧
      CacheOk vol.toMsdosfsmount b (pcbmap vol b dep findcn io).2.1 := by
  obtain ⟨_, _, heio, hok, hbig⟩ := @pcbmap_spec b vol dep findcn io hne hcache
    (fun j _ hpass => hlinks.valid hpass)
  cases hres : (pcbmap vol b dep findcn io).1 with
  | eio =>
    rw [heio hres]
    exact ⟨rfl, hcache⟩
  | ok bn cn sp =>
    obtain ⟨hcn, hpass, heof, _, hdep⟩ := hok bn cn sp hres
    rw [hdep]
    exact ⟨rfl, hcache.setcache _ fun _ => ⟨hcn, hpass, hcn ▸ heof⟩⟩
  | e2big i =>
    obtain ⟨_, hpass, hrsrvd, _, c, prevcn, hci, hfirst, hprev, hdep⟩ := hbig i hres
    rw [hdep]
    refine ⟨rfl, hcache.setcache _ ?_⟩
    intro hne'
    have hi : i ≠ 0 := by
      rintro rfl
      exact hne' rfl
    obtain ⟨j, rfl⟩ : ∃ j, i = j + 1 := ⟨i - 1, by omega⟩
    have heof : vol.eofCn (walk vol.toMsdosfsmount b dep.startCluster (j + 1)) = true :=
      (hlinks (j + 1) hpass).resolve_left (not_valid_of_rsrvd hrsrvd)
    have hcj : j + 1 ≠ c := by
      rintro rfl
      rcases hfirst with h0 | hno
      · omega
      · rw [heof] at hno
        exact Bool.noConfusion hno
    rw [if_neg hcj, Nat.add_sub_cancel] at hprev
    have hno := hpass j (Nat.lt_succ_self j)
    -- the file is not longer than the volume, so `i - 1` does not wrap around
    have hshort : j + 1 ≤ vol.maxcluster :=
      walk_short (fun k hk => hlinks.valid (hpass.mono hk)) (not_valid_of_rsrvd hrsrvd)
    have hmax := vol.maxcluster_bound
    have hfrcn : (j + 1 + (2 ^ 32 - 1)) % 2 ^ 32 = j := by omega
    rw [hfrcn]
    refine ⟨hprev, hpass.mono (Nat.le_succ j), ?_⟩
    by_contra hjeof
    rw [rsrvdCn_of_eofCn ((Bool.not_eq_false _).mp hjeof)] at hno
    exact Bool.noConfusion hno

end

/-! ## Every call on a file -/

/-- What changes the cache of a denode while the FAT stays as it is. -/
inductive BmapOp where
  | pcbmap (findcn : Nat) (io : Reads)
  | purge (frcn : Nat)

def bmapStep (vol : Msdosfsvol) (b : Bytes) (dep : Denode) : BmapOp → Denode
  | .pcbmap findcn io => (pcbmap vol b dep findcn io).2.1
  | .purge frcn => fcPurge dep frcn

/-- A denode as `deget` makes it, with an empty cache. -/
def freshDenode (start : Nat) (directory : Bool) (fileSize : Nat) : Denode where
  startCluster := start
  directory := directory
  fileSize := fileSize
  fc := fun _ => { frcn := fceEmpty, fsrcn := 0 }

/-- What a call that returns 0 stores is a cluster of the volume and its block, and every block
    that the call reads lies in the FAT. -/
def BmapOk (vol : Msdosfsvol) (r : BmapRes × Denode × List (Nat × Nat)) : Prop :=
  (∀ bn cn sp, r.1 = .ok bn cn sp → vol.Valid cn ∧ bn = vol.cntobn cn) ∧
    ∀ blk ∈ r.2.2, InFat vol.toMsdosfsmount blk

/-- Every call on a file, after any other calls on it. -/
def AllBmapOk (vol : Msdosfsvol) (b : Bytes) (start : Nat) (directory : Bool) (fileSize : Nat) :
    Prop :=
  ∀ (ops : List BmapOp) (findcn : Nat) (io : Reads), findcn < 2 ^ 32 →
    BmapOk vol (pcbmap vol b
      (ops.foldl (bmapStep vol b) (freshDenode start directory fileSize)) findcn io)

theorem freshDenode_cacheOk (start : Nat) (directory : Bool) (fileSize : Nat) :
    CacheOk pmp b (freshDenode start directory fileSize) :=
  fun _ hk => absurd rfl hk

theorem bmapRun_cacheOk {vol : Msdosfsvol} (hne : start ≠ 0)
    (hlinks : LinksOk vol.toMsdosfsmount b start) (ops : List BmapOp) {dep : Denode}
    (hstart : dep.startCluster = start) (hcache : CacheOk vol.toMsdosfsmount b dep) :
    (ops.foldl (bmapStep vol b) dep).startCluster = start ∧
      CacheOk vol.toMsdosfsmount b (ops.foldl (bmapStep vol b) dep) := by
  induction ops generalizing dep with
  | nil => exact ⟨hstart, hcache⟩
  | cons op ops ih =>
    cases op with
    | pcbmap findcn io =>
      subst hstart
      obtain ⟨hsame, hcache'⟩ := @pcbmap_cacheOk b vol dep findcn io hne hcache hlinks
      exact ih hsame hcache'
    | purge frcn => exact ih hstart (hcache.purge frcn)

/-- The first link that leads out of the volume is what the call for its place returns. -/
theorem not_allBmapOk {vol : Msdosfsvol} (hstart : vol.Valid start) (directory : Bool)
    (fileSize : Nat) (hbad : ¬ LinksOk vol.toMsdosfsmount b start) :
    ∃ i < 2 ^ 32, ∃ bn cn sp,
      (pcbmap vol b (freshDenode start directory fileSize) i []).1 = .ok bn cn sp ∧
        ¬ vol.Valid cn := by
  have hex : ∃ i, Passed vol.toMsdosfsmount b start i ∧
      ¬ vol.Valid (walk vol.toMsdosfsmount b start i) ∧
      ¬ vol.eofCn (walk vol.toMsdosfsmount b start i) = true := by
    by_contra hnone
    apply hbad
    intro i hpass
    by_contra hno
    rw [not_or] at hno
    exact hnone ⟨i, hpass, hno⟩
  classical
  obtain ⟨hpass, hnot, heof⟩ := Nat.find_spec hex
  have hmin := fun {j : Nat} (hj : j < Nat.find hex) => Nat.find_min hex hj
  generalize Nat.find hex = i at *
  -- in front of it are clusters of the volume only
  have hv : ∀ j < i, vol.Valid (walk vol.toMsdosfsmount b start j) := by
    intro j hj
    by_contra hjnot
    refine hmin hj ⟨hpass.mono (Nat.le_of_lt hj), hjnot, ?_⟩
    intro hjeof
    have hno := hpass j hj
    rw [rsrvdCn_of_eofCn hjeof] at hno
    exact Bool.noConfusion hno
  have hshort := walk_short hv hnot
  have hmax := vol.maxcluster_bound
  have hne : (freshDenode start directory fileSize).startCluster ≠ 0 := by
    have h2 := hstart.1
    show start ≠ 0
    unfold clustFirst at h2
    omega
  obtain ⟨_, hgood, _, hok, hbig⟩ := @pcbmap_spec b vol _ i [] hne
    (freshDenode_cacheOk start directory fileSize) (fun j hj _ => hv j hj)
  refine ⟨i, by omega, ?_⟩
  cases hres : (pcbmap vol b (freshDenode start directory fileSize) i []).1 with
  | eio => exact absurd hres (hgood Reads.allGood_nil)
  | ok bn cn sp =>
    obtain ⟨hcn, _⟩ := hok bn cn sp hres
    exact ⟨bn, cn, sp, rfl, hcn ▸ hnot⟩
  | e2big i' =>
    obtain ⟨hle, _, hrsrvd, hlast, _⟩ := hbig i' hres
    rcases Nat.lt_or_eq_of_le hle with hlt | heq
    · have hno := hpass i' hlt
      have hyes : vol.rsrvdCn (walk vol.toMsdosfsmount b start i') = true := hrsrvd
      rw [hno] at hyes
      exact Bool.noConfusion hyes
    · exact absurd (hlast heq) (heq ▸ heof)

/-- The calls of `pcbmap` on a file stay inside the FAT and the data area exactly when the links of
    the file up to the first reserved value are clusters of the volume, and that value marks the
    end of the file. -/
theorem pcbmap_inVolume_iff (vol : Msdosfsvol) (b : Bytes) {start : Nat} (hstart : vol.Valid start)
    (directory : Bool) (fileSize : Nat) :
    AllBmapOk vol b start directory fileSize ↔ LinksOk vol.toMsdosfsmount b start := by
  constructor
  · intro hall
    by_contra hbad
    obtain ⟨i, hi, bn, cn, sp, hres, hnot⟩ := not_allBmapOk hstart directory fileSize hbad
    exact hnot ((hall [] i [] hi).1 bn cn sp hres).1
  · intro hlinks ops findcn io _
    have hne : start ≠ 0 := by
      have h2 := hstart.1
      unfold clustFirst at h2
      omega
    obtain ⟨hsame, hcache⟩ := @bmapRun_cacheOk b start vol hne hlinks ops
      (freshDenode start directory fileSize) rfl (freshDenode_cacheOk _ _ _)
    generalize ops.foldl (bmapStep vol b) (freshDenode start directory fileSize) = dep at *
    subst hsame
    obtain ⟨hblks, _, _, hok, _⟩ := @pcbmap_spec b vol dep findcn io hne hcache
      (fun j _ hpass => hlinks.valid hpass)
    refine ⟨?_, hblks⟩
    intro bn cn sp hres
    obtain ⟨hcn, hpass, heof, hbn, _⟩ := hok bn cn sp hres
    refine ⟨?_, hbn⟩
    rw [hcn] at heof ⊢
    refine (hlinks findcn hpass).resolve_right ?_
    rw [heof]
    exact Bool.false_ne_true

/-- A FAT12 of one sector with the clusters 2 to 4 of one block each, behind a root directory of
    four blocks. -/
def smallVol : Msdosfsvol where
  fat := .fat12
  maxcluster := 4
  bytesPerSec := 512
  fatSecs := 1
  secPos := sector_pos
  sector := dvd_sector
  maxcluster_lt := four_lt
  fatSecs_lt := by decide
  firstcluster := 6
  rootdirblk := 2
  rootdirsize := 4
  bpcluster := 512
  cnshift := 9
  bnshift := 9

/-- Cluster 2 is the whole file. -/
def oneClusterFat : Bytes := fun p => if p = 3 then 0xff else if p = 4 then 0x0f else 0

theorem oneClusterFat_links : LinksOk smallVol.toMsdosfsmount oneClusterFat 2 := by
  intro i hpass
  match i with
  | 0 => exact Or.inl (by decide)
  | 1 => exact Or.inr (by decide)
  | i + 2 =>
    have hno := hpass 1 (by omega)
    have hyes : smallVol.rsrvdCn (walk smallVol.toMsdosfsmount oneClusterFat 2 1) = true := by
      decide
    rw [hno] at hyes
    exact Bool.noConfusion hyes

theorem pcbmap_inVolume_one : AllBmapOk smallVol oneClusterFat 2 false 512 :=
  (@pcbmap_inVolume_iff smallVol oneClusterFat 2 (by decide) false 512).mpr
    oneClusterFat_links

/-- The entry of cluster 2 is 1100. -/
def strayFat : Bytes := fun p => if p = 3 then 0x4c else if p = 4 then 0x04 else 0

/-- The second cluster of the file is returned although the volume has none with that number, and
    the lookup of the third one reads a block behind the FAT. -/
theorem pcbmap_strays :
    smallVol.Valid 2 ∧
      (pcbmap smallVol strayFat (freshDenode 2 false 1536) 1 []).1 = .ok 1104 1100 512 ∧
      (3, 1536) ∈ (pcbmap smallVol strayFat (freshDenode 2 false 1536) 2 []).2.2 ∧
      ¬ AllBmapOk smallVol strayFat 2 false 1536 := by
  have hmap : (pcbmap smallVol strayFat (freshDenode 2 false 1536) 1 []).1 = .ok 1104 1100 512 := by
    decide
  refine ⟨by decide, hmap, by decide, ?_⟩
  intro hall
  have hin := ((hall [] 1 [] (by decide)).1 1104 1100 512 hmap).1
  exact absurd hin.2 (by decide)

end OpenBsd.Msdosfs
