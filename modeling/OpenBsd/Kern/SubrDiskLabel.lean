/-
  OpenBsd.Kern.SubrDiskLabel

  `dkcksum` and `checkdisklabel` of `sys/kern/subr_disk.c`: whether a sector
  holds a disk label in one byte order or the other, and the label in memory
  that is made of it.

  `mem` is what the words of memory behind a label hold.  `dkcksum` reads them
  when `d_npartitions` is larger than the table, which its caller has to rule
  out.
-/

import OpenBsd.Sys.Disklabel

namespace OpenBsd.Kern

open OpenBsd.Lib
open List hiding Vector
open OpenBsd.Sys

inductive LabelErrno where
  | enoent
  | e2big
  | einval
  | enospc
  | ebusy
deriving DecidableEq

section

variable (mem : Nat → UInt16)

/-! ## The checksum -/

/-- The 16-bit word `i` from the start of a label. -/
def labelWord (lp : Disklabel) (i : Nat) : UInt16 :=
  (halfwords (Disklabel.codec.enc lp))[i]?.getD (mem i)

/-- `&lp->d_partitions[npartitions]`, in words from the start of the label. -/
def cksumEnd (npartitions : UInt16) : Nat := 74 + 8 * npartitions.toNat

/-- The exclusive or of the words of a label in front of word `n`. -/
def sumWords (n : Nat) (lp : Disklabel) : UInt16 := xorSum ((List.range n).map (labelWord mem lp))

def dkcksum (lp : Disklabel) : UInt16 := sumWords mem (cksumEnd lp.dNpartitions) lp

/-- `lp->d_checksum = 0; lp->d_checksum = dkcksum(lp)` -/
def setCksum (lp : Disklabel) : Disklabel :=
  { lp with dChecksum := dkcksum mem { lp with dChecksum := 0 } }

theorem labelWord_cksum (lp : Disklabel) (c : UInt16) :
    labelWord mem { lp with dChecksum := c } 68 = c := by
  unfold labelWord
  rw [Disklabel.halfwords_enc, getElem?_append_right (by rw [Disklabel.length_halfwords_head]),
    Disklabel.length_halfwords_head]
  rfl

theorem labelWord_setCksum_ne (lp : Disklabel) (c c' : UInt16) {i : Nat} (hi : i ≠ 68) :
    labelWord mem { lp with dChecksum := c } i = labelWord mem { lp with dChecksum := c' } i := by
  have hhead : ∀ c, (halfwords (headCodec.enc { lp with dChecksum := c }.head)).length = 68 :=
    fun c => Disklabel.length_halfwords_head _
  unfold labelWord
  rw [Disklabel.halfwords_enc, Disklabel.halfwords_enc]
  by_cases hlt : i < 68
  · rw [getElem?_append_left (by rw [hhead]; exact hlt),
      getElem?_append_left (by rw [hhead]; exact hlt)]
    rfl
  · rw [getElem?_append_right (by rw [hhead]; omega),
      getElem?_append_right (by rw [hhead]; omega), hhead, hhead]
    have hsub : i - 68 = (i - 69) + 1 := by omega
    rw [hsub, getElem?_cons_succ, getElem?_cons_succ]
    rfl

theorem sumWords_cksum {n : Nat} (hn : 68 < n) (lp : Disklabel) (c : UInt16) :
    sumWords mem n { lp with dChecksum := c } = sumWords mem n { lp with dChecksum := 0 } ^^^ c := by
  obtain ⟨k, rfl⟩ : ∃ k, n = 68 + (k + 1) := ⟨n - 69, by omega⟩
  have hrange : List.range (68 + (k + 1))
      = List.range 68 ++ 68 :: (List.range k).map fun i => 68 + (i + 1) := by
    rw [range_add, @List.range_succ_eq_map k, map_cons, map_map]
    rfl
  -- only word 68 tells the two labels apart
  have hfront : (List.range 68).map (labelWord mem { lp with dChecksum := c })
      = (List.range 68).map (labelWord mem { lp with dChecksum := 0 }) := by
    apply map_congr_left
    intro i hi
    have hlt : i < 68 := mem_range.mp hi
    exact labelWord_setCksum_ne mem lp c 0 (by omega)
  have hback : ((List.range k).map fun i => 68 + (i + 1)).map
        (labelWord mem { lp with dChecksum := c })
      = ((List.range k).map fun i => 68 + (i + 1)).map
        (labelWord mem { lp with dChecksum := 0 }) := by
    apply map_congr_left
    intro i hi
    obtain ⟨j, -, rfl⟩ := mem_map.mp hi
    exact labelWord_setCksum_ne mem lp c 0 (by omega)
  unfold sumWords
  rw [hrange, map_append, map_append, map_cons, map_cons, hfront, hback,
    labelWord_cksum, labelWord_cksum, xorSum_append, xorSum_append, xorSum_cons, xorSum_cons,
    UInt16.zero_xor, UInt16.xor_assoc]
  congr 1
  exact UInt16.xor_comm ..

theorem cksumEnd_gt (npartitions : UInt16) : 68 < cksumEnd npartitions := by
  unfold cksumEnd
  omega

theorem dkcksum_setCksum (lp : Disklabel) : dkcksum mem (setCksum mem lp) = 0 := by
  show sumWords mem (cksumEnd lp.dNpartitions) (setCksum mem lp) = 0
  unfold setCksum
  rw [sumWords_cksum mem (cksumEnd_gt _)]
  exact UInt16.xor_self

theorem sumWords_inside (mem' : Nat → UInt16) {n : Nat} (hn : n ≤ 202) (lp : Disklabel) :
    sumWords mem n lp = sumWords mem' n lp := by
  have hsize : Disklabel.codec.size = 404 := rfl
  have hwords : (List.range n).map (labelWord mem lp) = (List.range n).map (labelWord mem' lp) := by
    apply map_congr_left
    intro i hi
    have hin : i < n := mem_range.mp hi
    have hlt : i < (halfwords (Disklabel.codec.enc lp)).length := by
      rw [length_halfwords, Disklabel.codec.length_enc, hsize]
      omega
    unfold labelWord
    rw [getElem?_eq_getElem hlt, Option.getD_some, Option.getD_some]
  unfold sumWords
  rw [hwords]

/-! ## Reading a label -/

/-- The tests of `checkdisklabel` on a label in the byte order of the host. -/
def hostError (dlp : Disklabel) : Option LabelErrno :=
  if dlp.dMagic ≠ diskmagic ∨ dlp.dMagic2 ≠ diskmagic then some .enoent
  else if maxpartitions < dlp.dNpartitions.toNat then some .e2big
  else if dlp.dSecpercyl = 0 then some .einval
  else if dlp.dSecsize = 0 then some .enospc
  else if dkcksum mem dlp ≠ 0 then some .einval
  else none

/-- The conversion of one partition, `version` being that of the label. -/
def swapPartition (version : UInt16) (pp : Partition) : Partition :=
  let pp := { pp with pSize := swap32 pp.pSize, pOffset := swap32 pp.pOffset }
  let pp :=
    if version = 0 then setV0Fsize pp (swap32 (v0Fsize pp))
    else { pp with pOffseth := swap16 pp.pOffseth, pSizeh := swap16 pp.pSizeh }
  { pp with pCpg := swap16 pp.pCpg }

/-- The conversion of a byte-swapped label.  `d_subtype` and the bounds stay as
    they are. -/
def swapLabel (dlp : Disklabel) : Disklabel :=
  setCksum mem
    { dlp with
      dMagic := swap32 dlp.dMagic
      dType := swap16 dlp.dType
      dSecsize := swap32 dlp.dSecsize
      dNsectors := swap32 dlp.dNsectors
      dNtracks := swap32 dlp.dNtracks
      dNcylinders := swap32 dlp.dNcylinders
      dSecpercyl := swap32 dlp.dSecpercyl
      dSecperunit := swap32 dlp.dSecperunit
      dAcylinders := swap32 dlp.dAcylinders
      dFlags := swap32 dlp.dFlags
      dDrivedata := dlp.dDrivedata.map swap32
      dSecperunith := swap16 dlp.dSecperunith
      dVersion := swap16 dlp.dVersion
      dSpare := dlp.dSpare.map swap32
      dMagic2 := swap32 dlp.dMagic2
      dNpartitions := swap16 dlp.dNpartitions
      dBbsize := swap32 dlp.dBbsize
      dSbsize := swap32 dlp.dSbsize
      dPartitions := dlp.dPartitions.map (swapPartition (swap16 dlp.dVersion)) }

/-- The label in the byte order of the host, or the error of the tests. -/
def hostLabel (dlp : Disklabel) : Except LabelErrno Disklabel :=
  match hostError mem dlp with
  | none => .ok dlp
  | some error =>
    if swap32 dlp.dMagic ≠ diskmagic ∨ swap32 dlp.dMagic2 ≠ diskmagic ∨
        maxpartitions < (swap16 dlp.dNpartitions).toNat then .error error
    else if sumWords mem (cksumEnd (swap16 dlp.dNpartitions)) dlp ≠ 0 then .error error
    else .ok (swapLabel mem dlp)

/-- A partition of a version 0 label in the newer form. -/
def upgradePartition (pp : Partition) : Partition :=
  { pp with
    pFragblock := disklabelv1FfsFragblock (v0Fsize pp) pp.pFragblock
    pOffseth := 0
    pSizeh := 0 }

/-- A label in the newer form; the table is gone through up to `d_npartitions`. -/
def upgradeLabel (lp : Disklabel) : Disklabel :=
  if lp.dVersion = 0 then
    { lp with
      dVersion := 1
      dSecperunith := 0
      dPartitions := lp.dPartitions.mapIdx fun i pp =>
        if i < lp.dNpartitions.toNat then upgradePartition pp else pp }
  else lp

/-- The real size of the disk and the bounds of the partition the label is in. -/
def setBounds (lp : Disklabel) (disksize boundstart boundend : UInt64) : Disklabel :=
  let lp := dlSetdsize lp disksize
  let raw := dlSetpoffset (dlSetpsize lp.dPartitions[rawPart] disksize) 0
  let lp := { lp with dPartitions := lp.dPartitions.set rawPart raw }
  let lp := dlSetbstart lp boundstart
  dlSetbend lp (if boundend < dlGetdsize lp then boundend else dlGetdsize lp)

/-- `checkdisklabel`; `none` for `rlp` is the call with `rlp` and `lp` the same.
    The result is the label left in `lp`. -/
def checkdisklabel (rlp : Option (List UInt8)) (lp : Disklabel) (boundstart boundend : UInt64) :
    Except LabelErrno Disklabel := do
  let dlp := match rlp with
    | some buf => Disklabel.codec.dec buf
    | none => lp
  let dlp ← hostLabel mem dlp
  -- the label passed in carries the real disk size
  let disksize := dlGetdsize (if rlp.isSome then lp else dlp)
  return setCksum mem (setBounds (upgradeLabel dlp) disksize boundstart boundend)

/-! ## What an accepted label is -/

/-- What the tests let through. -/
structure HostOk (dlp : Disklabel) : Prop where
  magic : dlp.dMagic = diskmagic
  magic2 : dlp.dMagic2 = diskmagic
  npartitions : dlp.dNpartitions.toNat ≤ maxpartitions
  secpercyl : dlp.dSecpercyl ≠ 0
  secsize : dlp.dSecsize ≠ 0
  cksum : dkcksum mem dlp = 0

/-- What the tests on a byte-swapped label let through. -/
structure SwappedOk (dlp : Disklabel) : Prop where
  magic : swap32 dlp.dMagic = diskmagic
  magic2 : swap32 dlp.dMagic2 = diskmagic
  npartitions : (swap16 dlp.dNpartitions).toNat ≤ maxpartitions
  cksum : sumWords mem (cksumEnd (swap16 dlp.dNpartitions)) dlp = 0

theorem hostError_eq_none {dlp : Disklabel} : hostError mem dlp = none ↔ HostOk mem dlp := by
  unfold hostError
  constructor
  · intro h
    split at h
    · cases h
    split at h
    · cases h
    split at h
    · cases h
    split at h
    · cases h
    split at h
    · cases h
    rename_i hmagic hnum hcyl hsec hsum
    push Not at hmagic hnum hsum
    exact ⟨hmagic.1, hmagic.2, hnum, hcyl, hsec, hsum⟩
  · intro h
    rw [if_neg (by rw [h.magic, h.magic2]; simp), if_neg (by have := h.npartitions; omega),
      if_neg h.secpercyl, if_neg h.secsize, if_neg (by rw [h.cksum]; simp)]

theorem hostLabel_eq_ok {dlp d : Disklabel} :
    hostLabel mem dlp = .ok d ↔
      (HostOk mem dlp ∧ d = dlp) ∨
        (¬ HostOk mem dlp ∧ SwappedOk mem dlp ∧ d = swapLabel mem dlp) := by
  unfold hostLabel
  cases herr : hostError mem dlp with
  | none =>
    have hok : HostOk mem dlp := (hostError_eq_none mem).mp herr
    simp only [Except.ok.injEq, hok, true_and, not_true_eq_false, false_and, or_false]
    exact eq_comm
  | some error =>
    have hno : ¬ HostOk mem dlp := by
      intro hok
      rw [(hostError_eq_none mem).mpr hok] at herr
      cases herr
    simp only [hno, false_and, not_false_eq_true, true_and, false_or]
    constructor
    · intro h
      split at h
      · cases h
      split at h
      · cases h
      rename_i hmagic hsum
      push Not at hmagic hsum
      cases h
      exact ⟨⟨hmagic.1, hmagic.2.1, hmagic.2.2, hsum⟩, rfl⟩
    · rintro ⟨h, rfl⟩
      rw [if_neg (by rw [h.magic, h.magic2]; simpa using h.npartitions),
        if_neg (by rw [h.cksum]; simp)]

theorem checkdisklabel_eq_ok {rlp : List UInt8} {lp out : Disklabel} {bs be : UInt64} :
    checkdisklabel mem (some rlp) lp bs be = .ok out ↔
      ∃ d, hostLabel mem (Disklabel.codec.dec rlp) = .ok d ∧
        out = setCksum mem (setBounds (upgradeLabel d) (dlGetdsize lp) bs be) := by
  unfold checkdisklabel
  dsimp only
  cases hostLabel mem (Disklabel.codec.dec rlp) with
  | error e =>
    constructor
    · intro h
      cases h
    · rintro ⟨d, h, -⟩
      cases h
  | ok d =>
    constructor
    · intro h
      cases h
      exact ⟨d, rfl, rfl⟩
    · rintro ⟨d', h, rfl⟩
      cases h
      rfl

/-- What an accepted label should be, on a disk of `disksize` sectors. -/
structure SaneLabel (disksize : UInt64) (lp : Disklabel) : Prop where
  magic : lp.dMagic = diskmagic
  magic2 : lp.dMagic2 = diskmagic
  npartitions : lp.dNpartitions.toNat ≤ maxpartitions
  secpercyl : lp.dSecpercyl ≠ 0
  secsize : lp.dSecsize ≠ 0
  version : 1 ≤ lp.dVersion
  cksum : dkcksum mem lp = 0
  disk : dlGetdsize lp = disksize
  raw : dlGetpsize lp.dPartitions[rawPart] = disksize
  rawOffset : dlGetpoffset lp.dPartitions[rawPart] = 0

/-- The fields that the steps behind the tests leave alone. -/
structure SameGeometry (d out : Disklabel) : Prop where
  magic : out.dMagic = d.dMagic
  magic2 : out.dMagic2 = d.dMagic2
  npartitions : out.dNpartitions = d.dNpartitions
  secpercyl : out.dSecpercyl = d.dSecpercyl
  secsize : out.dSecsize = d.dSecsize

theorem SameGeometry.trans {d e f : Disklabel} (h : SameGeometry d e) (h' : SameGeometry e f) :
    SameGeometry d f :=
  { magic := h'.magic.trans h.magic
    magic2 := h'.magic2.trans h.magic2
    npartitions := h'.npartitions.trans h.npartitions
    secpercyl := h'.secpercyl.trans h.secpercyl
    secsize := h'.secsize.trans h.secsize }

section

variable (d : Disklabel)
include d

theorem upgradeLabel_same : SameGeometry d (upgradeLabel d) := by
  unfold upgradeLabel
  split
  · exact ⟨rfl, rfl, rfl, rfl, rfl⟩
  · exact ⟨rfl, rfl, rfl, rfl, rfl⟩

theorem upgradeLabel_version : (upgradeLabel d).dVersion ≠ 0 := by
  unfold upgradeLabel
  split
  · show (1 : UInt16) ≠ 0
    decide
  · assumption

theorem setBounds_same (disksize bs be : UInt64) : SameGeometry d (setBounds d disksize bs be) := by
  unfold setBounds dlSetbend dlSetbstart dlSetdsize
  exact ⟨rfl, rfl, rfl, rfl, rfl⟩

theorem setCksum_same : SameGeometry d (setCksum mem d) := by
  unfold setCksum
  exact ⟨rfl, rfl, rfl, rfl, rfl⟩

theorem setBounds_version (disksize bs be : UInt64) :
    (setCksum mem (setBounds d disksize bs be)).dVersion = d.dVersion := by
  unfold setCksum setBounds dlSetbend dlSetbstart dlSetdsize
  dsimp only

theorem dlGetdsize_setBounds (disksize bs be : UInt64) :
    dlGetdsize (setCksum mem (setBounds d disksize bs be)) = dlGetdsize (dlSetdsize d disksize) := by
  unfold setCksum setBounds dlSetbend dlSetbstart dlSetdsize dlGetdsize
  dsimp only

theorem raw_setBounds (disksize bs be : UInt64) :
    (setCksum mem (setBounds d disksize bs be)).dPartitions[rawPart]
      = dlSetpoffset (dlSetpsize d.dPartitions[rawPart] disksize) 0 := by
  have hset : (setCksum mem (setBounds d disksize bs be)).dPartitions
      = d.dPartitions.set rawPart (dlSetpoffset (dlSetpsize d.dPartitions[rawPart] disksize) 0) :=
    rfl
  rw [hset]
  exact Vector.getElem_set_self _

end

theorem saneLabel_iff {d : Disklabel} (lp : Disklabel) (bs be : UInt64)
    (hmagic : d.dMagic = diskmagic) (hmagic2 : d.dMagic2 = diskmagic)
    (hnum : d.dNpartitions.toNat ≤ maxpartitions) :
    SaneLabel mem (dlGetdsize lp) (setCksum mem (setBounds (upgradeLabel d) (dlGetdsize lp) bs be)) ↔
      d.dSecpercyl ≠ 0 ∧ d.dSecsize ≠ 0 := by
  have hset : SameGeometry d (setCksum mem (setBounds (upgradeLabel d) (dlGetdsize lp) bs be)) :=
    ((upgradeLabel_same d).trans (setBounds_same _ _ bs be)).trans (setCksum_same mem _)
  constructor
  · intro h
    refine ⟨?_, ?_⟩
    · rw [← hset.secpercyl]
      exact h.secpercyl
    · rw [← hset.secsize]
      exact h.secsize
  · rintro ⟨hcyl, hsec⟩
    have hraw := raw_setBounds mem (upgradeLabel d) (dlGetdsize lp) bs be
    exact
      { magic := by rw [hset.magic, hmagic]
        magic2 := by rw [hset.magic2, hmagic2]
        npartitions := by rw [hset.npartitions]; exact hnum
        secpercyl := by rw [hset.secpercyl]; exact hcyl
        secsize := by rw [hset.secsize]; exact hsec
        version := by
          have hne := upgradeLabel_version d
          rw [setBounds_version]
          apply UInt16.le_iff_toNat_le.mpr
          have hpos : (upgradeLabel d).dVersion.toNat ≠ 0 := fun h =>
            hne (UInt16.toNat_inj.mp h)
          show 1 ≤ _
          omega
        cksum := dkcksum_setCksum mem _
        disk := by rw [dlGetdsize_setBounds, dlGetdsize_dlSetdsize]
        raw := by rw [hraw, dlGetpsize_dlSetpoffset, dlGetpsize_dlSetpsize]
        rawOffset := by rw [hraw, dlGetpoffset_dlSetpoffset_zero] }

/-! ## Byte-swapped labels of no geometry -/

theorem swap32_eq_zero {x : UInt32} : swap32 x = 0 ↔ x = 0 := by
  constructor
  · intro h
    rw [← swap32_swap32 x, h]
    rfl
  · rintro rfl
    rfl

/-- The label that `checkdisklabel` leaves is sane, but for a byte-swapped one
    that gives no sector size or no cylinder size: these are tested in the byte
    order of the host only. -/
theorem checkdisklabel_sane_iff {rlp : List UInt8} {lp out : Disklabel} {bs be : UInt64}
    (h : checkdisklabel mem (some rlp) lp bs be = .ok out) :
    SaneLabel mem (dlGetdsize lp) out ↔
      ¬ (swap32 (Disklabel.codec.dec rlp).dMagic = diskmagic ∧
        ((Disklabel.codec.dec rlp).dSecpercyl = 0 ∨ (Disklabel.codec.dec rlp).dSecsize = 0)) := by
  obtain ⟨d, hd, rfl⟩ := (checkdisklabel_eq_ok mem).mp h
  generalize Disklabel.codec.dec rlp = dlp at hd ⊢
  rcases (hostLabel_eq_ok mem).mp hd with ⟨hok, rfl⟩ | ⟨-, hok, rfl⟩
  · -- in host order the tests are made, and the magic does not read both ways
    rw [saneLabel_iff mem lp bs be hok.magic hok.magic2 hok.npartitions]
    have hone : ¬ swap32 d.dMagic = diskmagic := by
      rw [hok.magic]
      decide
    exact ⟨fun _ hbad => hone hbad.1, fun _ => ⟨hok.secpercyl, hok.secsize⟩⟩
  · rw [saneLabel_iff mem lp bs be hok.magic hok.magic2 hok.npartitions]
    have hcyl : (swapLabel mem dlp).dSecpercyl = swap32 dlp.dSecpercyl := rfl
    have hsec : (swapLabel mem dlp).dSecsize = swap32 dlp.dSecsize := rfl
    rw [hcyl, hsec, Ne, Ne, swap32_eq_zero, swap32_eq_zero]
    constructor
    · rintro ⟨h1, h2⟩ ⟨-, h3 | h3⟩
      · exact h1 h3
      · exact h2 h3
    · intro hgood
      exact ⟨fun h1 => hgood ⟨hok.magic, Or.inl h1⟩, fun h2 => hgood ⟨hok.magic, Or.inr h2⟩⟩

end

/-- A label of zeros but for its magic numbers. -/
def bareLabel (magic : UInt32) : Disklabel :=
  { dMagic := magic, dType := 0, dSubtype := 0, dTypename := Vector.replicate 16 0
    dPackname := Vector.replicate 16 0, dSecsize := 0, dNsectors := 0, dNtracks := 0
    dNcylinders := 0, dSecpercyl := 0, dSecperunit := 0, dUid := Vector.replicate 8 0
    dAcylinders := 0, dBstarth := 0, dBendh := 0, dBstart := 0, dBend := 0, dFlags := 0
    dDrivedata := Vector.replicate 5 0, dSecperunith := 0, dVersion := 0
    dSpare := Vector.replicate 4 0, dMagic2 := magic, dChecksum := 0, dNpartitions := 0
    dBbsize := 0, dSbsize := 0, dPartitions := Vector.replicate 16 ⟨0, 0, 0, 0, 0, 0, 0⟩ }

def labelSector (lp : Disklabel) : List UInt8 :=
  Disklabel.codec.enc lp ++ List.replicate 108 0

theorem length_labelSector (lp : Disklabel) : (labelSector lp).length = 512 := by
  unfold labelSector
  rw [length_append, Disklabel.codec.length_enc, length_replicate]
  rfl

theorem swappedOk_bareLabel (mem : Nat → UInt16) :
    SwappedOk mem (bareLabel (swap32 diskmagic)) where
  magic := swap32_swap32 _
  magic2 := swap32_swap32 _
  npartitions := by decide
  cksum := by
    show sumWords mem 74 (bareLabel (swap32 diskmagic)) = 0
    rw [sumWords_inside mem (fun _ => 0) (by decide)]
    decide

theorem checkdisklabel_bareLabel (mem : Nat → UInt16) (lp : Disklabel) (bs be : UInt64) :
    checkdisklabel mem (some (labelSector (bareLabel (swap32 diskmagic)))) lp bs be
      = .ok (setCksum mem (setBounds (upgradeLabel (swapLabel mem (bareLabel (swap32 diskmagic))))
          (dlGetdsize lp) bs be)) := by
  have hdec : Disklabel.codec.dec (labelSector (bareLabel (swap32 diskmagic)))
      = bareLabel (swap32 diskmagic) := Disklabel.codec.dec_enc _ _
  have hnot : ¬ HostOk mem (bareLabel (swap32 diskmagic)) := fun h => absurd h.magic (by decide)
  apply (checkdisklabel_eq_ok mem).mpr
  rw [hdec]
  exact ⟨_, (hostLabel_eq_ok mem).mpr (Or.inr ⟨hnot, swappedOk_bareLabel mem, rfl⟩), rfl⟩

theorem checkdisklabel_sane_bare :
    ∃ out, checkdisklabel (fun _ => 0) (some (labelSector (bareLabel (swap32 diskmagic))))
        (bareLabel 0) 0 0 = .ok out ∧
      (SaneLabel (fun _ => 0) (dlGetdsize (bareLabel 0)) out ↔
        ¬ (swap32 (Disklabel.codec.dec (labelSector (bareLabel (swap32 diskmagic)))).dMagic
            = diskmagic ∧
          ((Disklabel.codec.dec (labelSector (bareLabel (swap32 diskmagic)))).dSecpercyl = 0 ∨
            (Disklabel.codec.dec (labelSector (bareLabel (swap32 diskmagic)))).dSecsize = 0))) :=
  ⟨_, checkdisklabel_bareLabel _ _ 0 0,
    checkdisklabel_sane_iff _ (checkdisklabel_bareLabel _ _ 0 0)⟩

/-- That label is accepted with a sector size of zero. -/
theorem checkdisklabel_no_secsize :
    ¬ ∀ (mem : Nat → UInt16) (rlp : List UInt8) (lp out : Disklabel) (bs be : UInt64),
        rlp.length = 512 → checkdisklabel mem (some rlp) lp bs be = .ok out →
          SaneLabel mem (dlGetdsize lp) out := by
  intro h
  have hsane := h (fun _ => 0) _ (bareLabel 0) _ 0 0 (length_labelSector _)
    (checkdisklabel_bareLabel _ _ 0 0)
  have hok := swappedOk_bareLabel fun _ => 0
  exact ((saneLabel_iff _ _ 0 0 hok.magic hok.magic2 hok.npartitions).mp hsane).2 rfl

end OpenBsd.Kern
