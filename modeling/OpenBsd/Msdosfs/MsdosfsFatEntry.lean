/-
  OpenBsd.Msdosfs.MsdosfsFatEntry

  Single and bulk updates of the FAT: `fatentry` with `FAT_GET` or `FAT_SET`, and `fatchain`
  against the sequence of single updates it stands for, with every access to a block.

  The two routines test the parity of a FAT12 entry the other way round, since `fatchain` has
  counted the cluster up before it writes the entry.  Here its loop is the one of the source,
  and the shared `putEntry` is a theorem.
-/

import OpenBsd.Msdosfs.MsdosfsFatAlloc

namespace OpenBsd.Msdosfs

/-! ## `fatentry` -/

/-- `readcn |= ~pm_fatmask` for the reserved values. -/
def Msdosfsmount.extend (pmp : Msdosfsmount) (readcn : Nat) : Nat :=
  if pmp.rsrvd readcn then readcn + (2 ^ 32 - 1 - pmp.fat.fatmask) else readcn

def fatentryGet (pmp : Msdosfsmount) (b : Bytes) (cn : Nat) (io : Reads) : Except Errno Nat :=
  if cn < clustFirst ∨ pmp.maxcluster < cn then .error .einval
  else
    let blk := fatblock pmp (pmp.fatofs cn)
    if (bread io).1 then .error .eio
    else .ok (pmp.extend (pmp.fat.getEntry b (bData blk.bn blk.bo) cn))

def fatentrySet (pmp : Msdosfsmount) (b : Bytes) (cn newcontents : Nat) (io : Reads) :
    Except Errno Unit × Bytes :=
  if cn < clustFirst ∨ pmp.maxcluster < cn then (.error .einval, b)
  else
    let blk := fatblock pmp (pmp.fatofs cn)
    if (bread io).1 then (.error .eio, b)
    else (.ok (), pmp.fat.putEntry b (bData blk.bn blk.bo) cn newcontents)

/-- The access of `fatentry` to the block it has read: its size, and the first byte with the
    number of bytes. -/
def fatentryAccess (pmp : Msdosfsmount) (cn : Nat) : Nat × Nat × Nat :=
  let blk := fatblock pmp (pmp.fatofs cn)
  (blk.bsize, blk.bo, pmp.fat.width)

/-- The calls of `fatentry` with `FAT_SET` that link `count` clusters from `start` on, each
    without an error of `bread`. -/
def fatentrySets (pmp : Msdosfsmount) (fillwith : Nat) : Nat → Nat → Bytes → Bytes
  | 0, _, b => b
  | count + 1, start, b =>
    fatentrySets pmp fillwith count (start + 1)
      (fatentrySet pmp b start (if 0 < count then start + 1 else fillwith) []).2

/-! ## `fatchain` -/

/-- The `switch` of `fatchain`, with `start` counted up already. -/
def fatchainPut (t : FatType) (b : Bytes) (ofs start newc : Nat) : Bytes :=
  match t with
  | .fat12 =>
    let readcn := getushort b ofs
    if start % 2 = 1 then putushort b ofs (readcn / 4096 * 4096 + newc % 4096)
    else putushort b ofs (readcn % 16 + newc * 16)
  | .fat16 => putushort b ofs newc
  | .fat32 =>
    let readcn := getulong b ofs
    putulong b ofs (readcn / 0x10000000 * 0x10000000 + newc % 0x10000000)

/-- The inner loop of `fatchain`, with the first byte of each access. -/
def fatchainInner (t : FatType) (bn bsize fillwith : Nat) :
    Nat → Nat → Nat → Bytes → (Nat × Nat × Bytes) × List Nat
  | 0, start, _, b => ((0, start, b), [])
  | count + 1, start, bo, b =>
    let newc := if 0 < count then start + 1 else fillwith
    let b' := fatchainPut t b (bData bn bo) (start + 1) newc
    let bo' := bo + boStep t start
    if bsize ≤ bo' then ((count, start + 1, b'), [bo])
    else
      let r := fatchainInner t bn bsize fillwith count (start + 1) bo' b'
      (r.1, bo :: r.2)

/-- The outer loop of `fatchain`, with each access to a block. -/
def fatchainOuter (pmp : Msdosfsmount) (fillwith : Nat) :
    Nat → Nat → Nat → Bytes → Reads → (Except Errno Unit × Bytes) × List (Nat × Nat × Nat)
  | 0, _, _, b, _ => ((.ok (), b), [])
  | fuel + 1, count, start, b, io =>
    if count = 0 then ((.ok (), b), [])
    else
      let blk := fatblock pmp (pmp.fatofs start)
      if (bread io).1 then ((.error .eio, b), [])
      else
        let r := fatchainInner pmp.fat blk.bn blk.bsize fillwith count start blk.bo b
        let rest := fatchainOuter pmp fillwith fuel r.1.1 r.1.2.1 r.1.2.2 (bread io).2
        (rest.1, r.2.map (fun bo => (blk.bsize, bo, pmp.fat.width)) ++ rest.2)

/-- `fatchain` with each access to a block. -/
def fatchainAccesses (pmp : Msdosfsmount) (b : Bytes) (start count fillwith : Nat) (io : Reads) :
    (Except Errno Unit × Bytes) × List (Nat × Nat × Nat) :=
  if start < clustFirst ∨ pmp.maxcluster < start + count - 1 then ((.error .einval, b), [])
  else fatchainOuter pmp fillwith count count start b io

/-- The access lies in the block. -/
def InBlock (access : Nat × Nat × Nat) : Prop := access.2.1 + access.2.2 ≤ access.1

/-! ## One entry -/

theorem fatchainPut_eq (t : FatType) (b : Bytes) (ofs start newc : Nat) :
    fatchainPut t b ofs (start + 1) newc = t.putEntry b ofs start newc := by
  cases t with
  | fat12 =>
    show (if (start + 1) % 2 = 1 then _ else _) = if start % 2 = 1 then _ else _
    by_cases hodd : start % 2 = 1
    · rw [if_neg (by omega), if_pos hodd]
    · rw [if_pos (by omega), if_neg hodd]
  | fat16 => rfl
  | fat32 => rfl

variable {pmp : Msdosfsmount}

theorem putEntry_fatblock (b : Bytes) (cn new : Nat) :
    pmp.fat.putEntry b (bData (fatblock pmp (pmp.fatofs cn)).bn (fatblock pmp (pmp.fatofs cn)).bo)
      cn new = pmp.fat.setEntry b cn new := by
  rw [bData_fatblock]
  rfl

theorem getEntry_fatblock (b : Bytes) (cn : Nat) :
    pmp.fat.getEntry b (bData (fatblock pmp (pmp.fatofs cn)).bn (fatblock pmp (pmp.fatofs cn)).bo)
      cn = pmp.fat.entry b cn := by
  rw [bData_fatblock]
  rfl

theorem fatentryGet_eq {cn : Nat} (hv : pmp.Valid cn) (b : Bytes) {io : Reads} (hio : io.AllGood) :
    fatentryGet pmp b cn io = .ok (pmp.extend (pmp.fat.entry b cn)) := by
  have hrange : ¬ (cn < clustFirst ∨ pmp.maxcluster < cn) :=
    fun h => h.elim (Nat.not_lt.mpr hv.1) (Nat.not_lt.mpr hv.2)
  simp only [fatentryGet, if_neg hrange, hio.bread.1, Bool.false_eq_true, if_false,
    getEntry_fatblock]

theorem fatentrySet_eq {cn : Nat} (hv : pmp.Valid cn) (b : Bytes) (new : Nat) {io : Reads}
    (hio : io.AllGood) : fatentrySet pmp b cn new io = (.ok (), pmp.fat.setEntry b cn new) := by
  have hrange : ¬ (cn < clustFirst ∨ pmp.maxcluster < cn) :=
    fun h => h.elim (Nat.not_lt.mpr hv.1) (Nat.not_lt.mpr hv.2)
  simp only [fatentrySet, if_neg hrange, hio.bread.1, Bool.false_eq_true, if_false,
    putEntry_fatblock]

theorem Reads.allGood_nil : Reads.AllGood [] := fun _ h => absurd h (List.not_mem_nil)

/-! ## The bytes -/

/-- The entries of `n` clusters from `start` on, with the links of a chain that ends in front of
    `last`. -/
def linkBytes (t : FatType) (last fillwith : Nat) : Nat → Nat → Bytes → Bytes
  | 0, _, b => b
  | n + 1, start, b =>
    linkBytes t last fillwith n (start + 1) (t.setEntry b start (newc last fillwith start))

theorem linkBytes_add (t : FatType) (last fillwith : Nat) (n m start : Nat) (b : Bytes) :
    linkBytes t last fillwith (n + m) start b =
      linkBytes t last fillwith m (start + n) (linkBytes t last fillwith n start b) := by
  induction n generalizing start b with
  | zero => rw [Nat.zero_add]; rfl
  | succ n ih =>
    rw [Nat.succ_add, linkBytes, ih, linkBytes, Nat.add_assoc, Nat.add_comm 1 n]

theorem newc_count (start count fillwith : Nat) :
    (if 0 < count then start + 1 else fillwith) = newc (start + (count + 1)) fillwith start := by
  unfold newc
  by_cases hcount : 0 < count
  · rw [if_pos hcount, if_pos (by omega)]
  · rw [if_neg hcount, if_neg (by omega)]

theorem fatentrySets_eq {fillwith : Nat} (count start : Nat) (b : Bytes)
    (hv : ∀ cn, start ≤ cn → cn < start + count → pmp.Valid cn) :
    fatentrySets pmp fillwith count start b =
      linkBytes pmp.fat (start + count) fillwith count start b := by
  induction count generalizing start b with
  | zero => rfl
  | succ count ih =>
    rw [fatentrySets, fatentrySet_eq (hv start (Nat.le_refl _) (by omega)) _ _ Reads.allGood_nil,
      newc_count, ih (start + 1) _ (fun cn h1 h2 => hv cn (by omega) (by omega)), linkBytes,
      Nat.add_assoc start 1 count, Nat.add_comm 1 count]

/-- The inner loop writes the entries of a part of the chain, at least one of them, and its
    accesses are those of the entries. -/
theorem fatchainInner_spec {t : FatType} {bn bsize fillwith : Nat} (count start bo : Nat)
    (b : Bytes) (hbo : bData bn bo = t.fatofs start) (hlt : bo < bsize) (hpos : 0 < count) :
    ∃ n, 0 < n ∧ n ≤ count ∧
      (fatchainInner t bn bsize fillwith count start bo b).1 =
        (count - n, start + n, linkBytes t (start + count) fillwith n start b) ∧
      ∀ bo' ∈ (fatchainInner t bn bsize fillwith count start bo b).2,
        ∃ cn, start ≤ cn ∧ cn < start + count ∧ bData bn bo' = t.fatofs cn ∧ bo' < bsize := by
  induction count generalizing start bo b with
  | zero => exact absurd hpos (Nat.lt_irrefl 0)
  | succ count ih =>
    have hput : fatchainPut t b (bData bn bo) (start + 1)
        (if 0 < count then start + 1 else fillwith) =
        t.setEntry b start (newc (start + (count + 1)) fillwith start) := by
      rw [fatchainPut_eq, newc_count, hbo]
      rfl
    rw [fatchainInner, hput]
    dsimp only
    have hhere : ∃ cn, start ≤ cn ∧ cn < start + (count + 1) ∧ bData bn bo = t.fatofs cn ∧
        bo < bsize := ⟨start, Nat.le_refl _, by omega, hbo, hlt⟩
    split
    · refine ⟨1, by omega, by omega, rfl, ?_⟩
      intro bo' hmem
      rw [List.mem_singleton] at hmem
      exact hmem ▸ hhere
    · next hmore =>
      have hnext : bData bn (bo + boStep t start) = t.fatofs (start + 1) := by
        rw [fatofs_succ, ← hbo]
        exact (Nat.add_assoc _ _ _).symm
      cases count with
      | zero =>
        refine ⟨1, by omega, by omega, rfl, ?_⟩
        intro bo' hmem
        change bo' ∈ [bo] at hmem
        rw [List.mem_singleton] at hmem
        exact hmem ▸ hhere
      | succ count =>
        obtain ⟨n, h1, h2, hres, hacc⟩ := ih (start + 1) (bo + boStep t start)
          (t.setEntry b start (newc (start + (count + 1 + 1)) fillwith start)) hnext
          (by omega) (by omega)
        refine ⟨n + 1, by omega, by omega, ?_, ?_⟩
        · rw [hres, linkBytes]
          have hlast : start + 1 + (count + 1) = start + (count + 1 + 1) := by omega
          have hstart : start + 1 + n = start + (n + 1) := by omega
          have hleft : count + 1 - n = count + 1 + 1 - (n + 1) := by omega
          rw [hlast, hstart, hleft]
        · intro bo' hmem
          rcases List.mem_cons.mp hmem with rfl | hmem
          · exact hhere
          · obtain ⟨cn, h3, h4, h5⟩ := hacc bo' hmem
            exact ⟨cn, by omega, by omega, h5⟩

theorem inBlock_of_fatofs {cn start bo : Nat} (hcn : cn ≤ pmp.maxcluster)
    (hbo : bData (fatblock pmp (pmp.fatofs start)).bn bo = pmp.fatofs cn)
    (hlt : bo < (fatblock pmp (pmp.fatofs start)).bsize) :
    bo + pmp.fat.width ≤ (fatblock pmp (pmp.fatofs start)).bsize := by
  have hsize : (fatblock pmp (pmp.fatofs start)).bsize ≤ pmp.fatblocksize := by
    rw [← pmp.fatblocksize_eq]
    exact Nat.mul_le_mul_right _ (Nat.min_le_left _ _)
  have hpos := pmp.fatblocksize_pos
  have hbolt : bo < pmp.fatblocksize := Nat.lt_of_lt_of_le hlt hsize
  have hofs : pmp.fatofs cn = pmp.fatblocksize * (pmp.fatofs start / pmp.fatblocksize) + bo := by
    rw [← hbo]
    show pmp.fatofs start / pmp.fatblocksize * pmp.fatblocksec * devBsize + bo = _
    rw [Nat.mul_assoc, pmp.fatblocksize_eq, Nat.mul_comm]
  -- both entries are in the same block
  have hdiv : pmp.fatofs cn / pmp.fatblocksize = pmp.fatofs start / pmp.fatblocksize := by
    rw [hofs, Nat.mul_add_div hpos, Nat.div_eq_of_lt hbolt, Nat.add_zero]
  have hmod : pmp.fatofs cn % pmp.fatblocksize = bo := by
    rw [hofs, Nat.mul_add_mod, Nat.mod_eq_of_lt hbolt]
  have hin := entry_in_block pmp hcn
  have hblk : fatblock pmp (pmp.fatofs cn) = { fatblock pmp (pmp.fatofs start) with bo := bo } := by
    simp only [fatblock, hdiv, hmod]
  rw [hblk] at hin
  exact hin

/-- `fatchain` without a failed read: the bytes of the single updates, and no access out of a
    block. -/
theorem fatchainOuter_spec {fillwith : Nat} (fuel count start : Nat) (b : Bytes) (io : Reads)
    (hfuel : count ≤ fuel) (hio : io.AllGood)
    (hv : ∀ cn, start ≤ cn → cn < start + count → pmp.Valid cn) :
    (fatchainOuter pmp fillwith fuel count start b io).1 =
        (.ok (), linkBytes pmp.fat (start + count) fillwith count start b) ∧
      ∀ a ∈ (fatchainOuter pmp fillwith fuel count start b io).2, InBlock a := by
  induction fuel generalizing count start b io with
  | zero =>
    obtain rfl : count = 0 := by omega
    exact ⟨rfl, fun a h => absurd h (List.not_mem_nil)⟩
  | succ fuel ih =>
    rw [fatchainOuter]
    by_cases hzero : count = 0
    · subst hzero
      rw [if_pos rfl]
      exact ⟨rfl, fun a h => absurd h (List.not_mem_nil)⟩
    · rw [if_neg hzero, hio.bread.1]
      dsimp only
      rw [if_neg Bool.false_ne_true]
      have hfirst := entry_in_block pmp (hv start (Nat.le_refl _) (by omega)).2
      have hwidth : 0 < pmp.fat.width := by
        cases pmp.fat <;> exact Nat.succ_pos _
      obtain ⟨n, h1, h2, hres, hacc⟩ := @fatchainInner_spec pmp.fat
        (fatblock pmp (pmp.fatofs start)).bn (fatblock pmp (pmp.fatofs start)).bsize fillwith count
        start
        (fatblock pmp (pmp.fatofs start)).bo b (bData_fatblock pmp _) (by omega) (by omega)
      rw [hres]
      dsimp only
      obtain ⟨hok, hrest⟩ := ih (count - n) (start + n)
        (linkBytes pmp.fat (start + count) fillwith n start b) (bread io).2 (by omega) hio.bread.2
        (fun cn h3 h4 => hv cn (by omega) (by omega))
      constructor
      · rw [hok]
        have hend : start + n + (count - n) = start + count := by omega
        have hcount : count = n + (count - n) := by omega
        rw [hend, ← linkBytes_add, ← hcount]
      · intro a hmem
        rcases List.mem_append.mp hmem with hmem | hmem
        · obtain ⟨bo, hbo, rfl⟩ := List.mem_map.mp hmem
          obtain ⟨cn, h3, h4, h5, h6⟩ := hacc bo hbo
          exact inBlock_of_fatofs (hv cn h3 h4).2 h5 h6
        · exact hrest a hmem

/-- `fatchain` leaves the bytes of the calls of `fatentry` that set the same links, both routines
    stay inside the blocks they read, and what `fatentry` sets is what it gets, cut to an entry. -/
theorem fatchain_eq_fatentrySets (pmp : Msdosfsmount) (b : Bytes) (start count fillwith : Nat)
    (io : Reads) (hio : io.AllGood) (hfirst : clustFirst ≤ start)
    (hlast : start + count - 1 ≤ pmp.maxcluster) :
    (fatchainAccesses pmp b start count fillwith io).1 =
        (.ok (), fatentrySets pmp fillwith count start b) ∧
      (∀ a ∈ (fatchainAccesses pmp b start count fillwith io).2, InBlock a) ∧
      ∀ cn, pmp.Valid cn → InBlock (fatentryAccess pmp cn) ∧
        ∀ new, (fatentrySet pmp b cn new io).1 = .ok () ∧
          fatentryGet pmp (fatentrySet pmp b cn new io).2 cn io =
            .ok (pmp.extend (new % (pmp.fat.fatmask + 1))) ∧
          ∀ cn', cn' ≠ cn → pmp.fat.entry (fatentrySet pmp b cn new io).2 cn' =
              pmp.fat.entry b cn' ∧
            fatentryGet pmp (fatentrySet pmp b cn new io).2 cn' io =
              fatentryGet pmp b cn' io := by
  have hv : ∀ cn, start ≤ cn → cn < start + count → pmp.Valid cn :=
    fun cn h1 h2 => ⟨by omega, by omega⟩
  have hrange : ¬ (start < clustFirst ∨ pmp.maxcluster < start + count - 1) := by omega
  obtain ⟨hbytes, hacc⟩ := @fatchainOuter_spec pmp fillwith count count start b io
    (Nat.le_refl _) hio hv
  refine ⟨?_, ?_, ?_⟩
  · rw [fatchainAccesses, if_neg hrange, hbytes, fatentrySets_eq count start b hv]
  · rw [fatchainAccesses, if_neg hrange]
    exact hacc
  · intro cn hcn
    refine ⟨entry_in_block pmp hcn.2, ?_⟩
    intro new
    rw [fatentrySet_eq hcn b new hio]
    refine ⟨rfl, ?_, ?_⟩
    · rw [fatentryGet_eq hcn _ hio, pmp.fat.entry_setEntry_same]
    · intro cn' hne
      have hsame := pmp.fat.entry_setEntry_other b new hne
      refine ⟨hsame, ?_⟩
      by_cases hv' : pmp.Valid cn'
      · rw [fatentryGet_eq hv' _ hio, fatentryGet_eq hv' _ hio, hsame]
      · have hout : cn' < clustFirst ∨ pmp.maxcluster < cn' := by
          unfold Msdosfsmount.Valid at hv'
          omega
        simp only [fatentryGet, if_pos hout]

/-- A FAT12 of two sectors, where the entry of cluster 341 lies over the end of the first one. -/
def twoSectors : Msdosfsmount where
  fat := .fat12
  maxcluster := 600
  bytesPerSec := 512
  fatSecs := 2
  secPos := sector_pos
  sector := dvd_sector
  maxcluster_lt := by decide

theorem fatchain_eq_fatentrySets_two :
    (fatchainAccesses twoSectors (fun _ => 0) 340 3 0xffffffff []).1 =
        (.ok (), fatentrySets twoSectors 0xffffffff 3 340 fun _ => 0) ∧
      ∀ a ∈ (fatchainAccesses twoSectors (fun _ => 0) 340 3 0xffffffff []).2, InBlock a :=
  have h := fatchain_eq_fatentrySets twoSectors (fun _ => 0) 340 3 0xffffffff [] Reads.allGood_nil
    (by decide) (by decide)
  ⟨h.1, h.2.1⟩

end OpenBsd.Msdosfs
