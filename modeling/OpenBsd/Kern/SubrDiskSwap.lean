/-
  OpenBsd.Kern.SubrDiskSwap

  A disk label and the label of the same contents that a machine of the other
  byte order writes: what `checkdisklabel` makes of the one and of the other.

  The checksum is not a number like the others.  It makes the words of the
  label cancel out, and the bytes of names and types, which are no words, count
  for it in the places where they stand.
-/

import OpenBsd.Kern.SubrDiskLabel

namespace OpenBsd.Kern

open OpenBsd.Lib
open OpenBsd.Sys

/-! ## The label of the other byte order -/

/-- A partition with every field of more than one byte swapped. -/
def byteSwappedPartition (version : UInt16) (pp : Partition) : Partition :=
  if version = 0 then
    setV0Fsize
      { pp with pSize := swap32 pp.pSize, pOffset := swap32 pp.pOffset, pCpg := swap16 pp.pCpg }
      (swap32 (v0Fsize pp))
  else
    { pp with
      pSize := swap32 pp.pSize
      pOffset := swap32 pp.pOffset
      pOffseth := swap16 pp.pOffseth
      pSizeh := swap16 pp.pSizeh
      pCpg := swap16 pp.pCpg }

/-- A label with every field of more than one byte swapped. -/
def byteSwapped (d : Disklabel) : Disklabel :=
  { dMagic := swap32 d.dMagic
    dType := swap16 d.dType
    dSubtype := swap16 d.dSubtype
    dTypename := d.dTypename
    dPackname := d.dPackname
    dSecsize := swap32 d.dSecsize
    dNsectors := swap32 d.dNsectors
    dNtracks := swap32 d.dNtracks
    dNcylinders := swap32 d.dNcylinders
    dSecpercyl := swap32 d.dSecpercyl
    dSecperunit := swap32 d.dSecperunit
    dUid := d.dUid
    dAcylinders := swap32 d.dAcylinders
    dBstarth := swap16 d.dBstarth
    dBendh := swap16 d.dBendh
    dBstart := swap32 d.dBstart
    dBend := swap32 d.dBend
    dFlags := swap32 d.dFlags
    dDrivedata := d.dDrivedata.map swap32
    dSecperunith := swap16 d.dSecperunith
    dVersion := swap16 d.dVersion
    dSpare := d.dSpare.map swap32
    dMagic2 := swap32 d.dMagic2
    dChecksum := swap16 d.dChecksum
    dNpartitions := swap16 d.dNpartitions
    dBbsize := swap32 d.dBbsize
    dSbsize := swap32 d.dSbsize
    dPartitions := d.dPartitions.map (byteSwappedPartition d.dVersion) }

section

variable (mem : Nat → UInt16)

/-- What the other machine stores into `d_checksum`: its `dkcksum`, which reads
    and writes each word the other way round. -/
def otherCksum (d : Disklabel) : UInt16 :=
  swap16 (xorSum (((List.range (cksumEnd d.dNpartitions)).map
    (labelWord mem { byteSwapped d with dChecksum := 0 })).map swap16))

theorem otherCksum_eq (d : Disklabel) :
    otherCksum mem d
      = sumWords mem (cksumEnd d.dNpartitions) { byteSwapped d with dChecksum := 0 } := by
  unfold otherCksum sumWords
  rw [xorSum_map_swap16, swap16_swap16]

/-! ## The conversion undoes the swap -/

omit mem in
theorem swapPartition_byteSwapped (version : UInt16) (pp : Partition) :
    swapPartition version (byteSwappedPartition version pp) = pp := by
  unfold swapPartition byteSwappedPartition
  by_cases hv : version = 0
  · subst hv
    -- `p_fsize` is one number, of which the other two fields are the halves
    have hfsize : ∀ (size offset : UInt32) (fstype fragblock : UInt8) (cpg : UInt16) (x : UInt32),
        v0Fsize ⟨size, offset, x.toUInt16, (x >>> 16).toUInt16, fstype, fragblock, cpg⟩ = x :=
      fun size offset fstype fragblock cpg x =>
        v0Fsize_setV0Fsize ⟨size, offset, 0, 0, fstype, fragblock, cpg⟩ x
    simp only [if_true, setV0Fsize, hfsize, swap32_swap32, swap16_swap16, v0Fsize_low, v0Fsize_high]
  · simp only [if_neg hv, swap32_swap32, swap16_swap16]

omit mem in
theorem map_swap32_swap32 {n : Nat} (v : Vector UInt32 n) : (v.map swap32).map swap32 = v := by
  ext i hi
  rw [Vector.getElem_map, Vector.getElem_map, swap32_swap32]

omit mem in
theorem map_swapPartition {n : Nat} (version : UInt16) (v : Vector Partition n) :
    (v.map (byteSwappedPartition version)).map (swapPartition version) = v := by
  ext1 i hi
  rw [Vector.getElem_map, Vector.getElem_map, swapPartition_byteSwapped]

/-- Labels that agree in all that the conversion swaps back or leaves alone;
    `d_subtype`, the bounds and the checksum may differ. -/
def AgreeBut (d e : Disklabel) : Prop :=
  e = { d with
    dSubtype := e.dSubtype
    dBstarth := e.dBstarth
    dBendh := e.dBendh
    dBstart := e.dBstart
    dBend := e.dBend
    dChecksum := e.dChecksum }

/-- The conversion of a swapped label gives the label back, but for its
    `d_subtype` and for the bounds. -/
theorem swapLabel_byteSwapped (d : Disklabel) (c : UInt16) :
    AgreeBut d (swapLabel mem { byteSwapped d with dChecksum := c }) ∧
      (swapLabel mem { byteSwapped d with dChecksum := c }).dSubtype = swap16 d.dSubtype := by
  unfold AgreeBut swapLabel setCksum byteSwapped
  simp only [swap32_swap32, swap16_swap16, map_swap32_swap32, map_swapPartition, and_self]

omit mem in
/-- The version and the bounds are set without a look at `d_subtype` or at the
    old bounds. -/
theorem setBounds_agreeBut {d e : Disklabel} (h : AgreeBut d e) (disksize bs be : UInt64) :
    setBounds (upgradeLabel e) disksize bs be
      = { setBounds (upgradeLabel d) disksize bs be with
          dSubtype := e.dSubtype
          dChecksum := e.dChecksum } := by
  rw [h]
  unfold upgradeLabel
  by_cases hv : d.dVersion = 0
  · simp only [if_pos hv, setBounds, dlSetbend, dlSetbstart, dlSetdsize, dlGetdsize]
  · simp only [if_neg hv, setBounds, dlSetbend, dlSetbstart, dlSetdsize, dlGetdsize]

/-! ## Both byte orders -/

theorem not_hostOk_byteSwapped {d : Disklabel} (hmagic : d.dMagic = diskmagic) (c : UInt16) :
    ¬ HostOk mem { byteSwapped d with dChecksum := c } := by
  intro h
  have hswap : swap32 d.dMagic = diskmagic := h.magic
  rw [hmagic] at hswap
  exact absurd hswap (by decide)

theorem swappedOk_byteSwapped_iff {d : Disklabel} (hok : HostOk mem d) (c : UInt16) :
    SwappedOk mem { byteSwapped d with dChecksum := c } ↔ c = otherCksum mem d := by
  have hend : cksumEnd (swap16 (byteSwapped d).dNpartitions) = cksumEnd d.dNpartitions := by
    show cksumEnd (swap16 (swap16 d.dNpartitions)) = cksumEnd d.dNpartitions
    rw [swap16_swap16]
  have hsum : sumWords mem (cksumEnd (swap16 (byteSwapped d).dNpartitions))
      { byteSwapped d with dChecksum := c } = otherCksum mem d ^^^ c := by
    rw [hend, sumWords_cksum mem (cksumEnd_gt _), otherCksum_eq]
  constructor
  · intro h
    have hzero : otherCksum mem d ^^^ c = 0 := hsum.symm.trans h.cksum
    exact (UInt16.xor_eq_zero_iff.mp hzero).symm
  · rintro rfl
    refine ⟨?_, ?_, ?_, hsum.trans UInt16.xor_self⟩
    · show swap32 (swap32 d.dMagic) = diskmagic
      rw [swap32_swap32, hok.magic]
    · show swap32 (swap32 d.dMagic2) = diskmagic
      rw [swap32_swap32, hok.magic2]
    · show (swap16 (swap16 d.dNpartitions)).toNat ≤ maxpartitions
      rw [swap16_swap16]
      exact hok.npartitions

/-- A label accepted in host order, and the same label with every field of more
    than one byte swapped.  With the checksum that the other machine gives it,
    and with no other, the second is accepted too, and the two labels in memory
    are the same, `d_subtype` and the checksum over it left aside. -/
theorem checkdisklabel_byteSwapped {rlp rlp' : List UInt8} {lp out : Disklabel} {bs be : UInt64}
    {c : UInt16} (hmagic : (Disklabel.codec.dec rlp).dMagic = diskmagic)
    (h : checkdisklabel mem (some rlp) lp bs be = .ok out)
    (hrlp' : Disklabel.codec.dec rlp'
      = { byteSwapped (Disklabel.codec.dec rlp) with dChecksum := c }) :
    ((∃ out', checkdisklabel mem (some rlp') lp bs be = .ok out') ↔
      c = otherCksum mem (Disklabel.codec.dec rlp)) ∧
    ∀ out', checkdisklabel mem (some rlp') lp bs be = .ok out' →
      { out' with dSubtype := 0, dChecksum := 0 }
        = ({ out with dSubtype := 0, dChecksum := 0 } : Disklabel) ∧
      (swap16 (Disklabel.codec.dec rlp).dSubtype = (Disklabel.codec.dec rlp).dSubtype →
        out' = out) := by
  obtain ⟨d, hd, rfl⟩ := (checkdisklabel_eq_ok mem).mp h
  generalize Disklabel.codec.dec rlp = dlp at hmagic hd hrlp' ⊢
  have hnot := not_hostOk_byteSwapped mem hmagic c
  -- the magic reads one way only
  have hok : HostOk mem dlp ∧ d = dlp := by
    rcases (hostLabel_eq_ok mem).mp hd with hhost | ⟨-, hswapped, -⟩
    · exact hhost
    · have hboth := hswapped.magic
      rw [hmagic] at hboth
      exact absurd hboth (by decide)
  obtain ⟨hok, rfl⟩ := hok
  have haccept : ∀ out', checkdisklabel mem (some rlp') lp bs be = .ok out' ↔
      c = otherCksum mem d ∧ out' = setCksum mem (setBounds
        (upgradeLabel (swapLabel mem { byteSwapped d with dChecksum := c })) (dlGetdsize lp) bs be) := by
    intro out'
    rw [checkdisklabel_eq_ok, hrlp', ← swappedOk_byteSwapped_iff mem hok]
    constructor
    · rintro ⟨e, he, rfl⟩
      rcases (hostLabel_eq_ok mem).mp he with ⟨hhost, -⟩ | ⟨-, hswapped, rfl⟩
      · exact absurd hhost hnot
      · exact ⟨hswapped, rfl⟩
    · rintro ⟨hswapped, rfl⟩
      exact ⟨_, (hostLabel_eq_ok mem).mpr (Or.inr ⟨hnot, hswapped, rfl⟩), rfl⟩
  obtain ⟨hagree, hsub⟩ := swapLabel_byteSwapped mem d c
  have hset := setBounds_agreeBut hagree (dlGetdsize lp) bs be
  constructor
  · constructor
    · rintro ⟨out', hout⟩
      exact ((haccept out').mp hout).1
    · intro hc
      exact ⟨_, (haccept _).mpr ⟨hc, rfl⟩⟩
  · intro out' hout
    rw [((haccept out').mp hout).2, hset, hsub]
    constructor
    · rfl
    · intro hsym
      have hsame : (setBounds (upgradeLabel d) (dlGetdsize lp) bs be).dSubtype = d.dSubtype := by
        unfold upgradeLabel
        split <;> rfl
      rw [hsym, ← hsame]
      rfl

end

/-- A label with one letter for a type name. -/
def namedLabel : Disklabel :=
  setCksum (fun _ => 0)
    { bareLabel diskmagic with
      dTypename := (Vector.replicate 16 0).set 0 0x61
      dSecsize := 512
      dSecpercyl := 1 }

theorem hostOk_namedLabel : HostOk (fun _ => 0) namedLabel where
  magic := rfl
  magic2 := rfl
  npartitions := by decide
  secpercyl := by decide
  secsize := by decide
  cksum := dkcksum_setCksum _ _

theorem dec_labelSector (d : Disklabel) : Disklabel.codec.dec (labelSector d) = d :=
  Disklabel.codec.dec_enc _ _

theorem checkdisklabel_namedLabel :
    checkdisklabel (fun _ => 0) (some (labelSector namedLabel)) (bareLabel 0) 0 0
      = .ok (setCksum (fun _ => 0) (setBounds (upgradeLabel namedLabel) (dlGetdsize (bareLabel 0)) 0 0)) := by
  apply (checkdisklabel_eq_ok _).mpr
  rw [dec_labelSector]
  exact ⟨_, (hostLabel_eq_ok _).mpr (Or.inl ⟨hostOk_namedLabel, rfl⟩), rfl⟩

theorem checkdisklabel_byteSwapped_named :
    ∃ out, checkdisklabel (fun _ => 0) (some (labelSector namedLabel)) (bareLabel 0) 0 0 = .ok out ∧
      ∃ out', checkdisklabel (fun _ => 0)
        (some (labelSector { byteSwapped namedLabel with
          dChecksum := otherCksum (fun _ => 0) namedLabel })) (bareLabel 0) 0 0 = .ok out' := by
  have hpair := @checkdisklabel_byteSwapped (fun _ => 0) _
    (labelSector { byteSwapped namedLabel with dChecksum := otherCksum (fun _ => 0) namedLabel })
    _ _ _ _ _ (by rw [dec_labelSector]; rfl) checkdisklabel_namedLabel
    (by rw [dec_labelSector, dec_labelSector])
  refine ⟨_, checkdisklabel_namedLabel, hpair.1.mpr ?_⟩
  rw [dec_labelSector]

/-- Swapped with all the rest, the checksum is wrong: the letter of the name
    does not move. -/
theorem checkdisklabel_swapped_cksum :
    ¬ ∀ (mem : Nat → UInt16) (rlp rlp' : List UInt8) (lp out : Disklabel) (bs be : UInt64),
        rlp.length = 512 → rlp'.length = 512 →
        (Disklabel.codec.dec rlp).dMagic = diskmagic → (Disklabel.codec.dec rlp).dVersion ≤ 1 →
        checkdisklabel mem (some rlp) lp bs be = .ok out →
        Disklabel.codec.dec rlp' = byteSwapped (Disklabel.codec.dec rlp) →
          checkdisklabel mem (some rlp') lp bs be = .ok out := by
  intro h
  have hbad := h (fun _ => 0) (labelSector namedLabel) (labelSector (byteSwapped namedLabel)) _ _
    0 0 (length_labelSector _) (length_labelSector _) (by rw [dec_labelSector]; rfl)
    (by rw [dec_labelSector]; decide) checkdisklabel_namedLabel
    (by rw [dec_labelSector, dec_labelSector])
  obtain ⟨d, hd, -⟩ := (checkdisklabel_eq_ok _).mp hbad
  rw [dec_labelSector] at hd
  have hcksum : byteSwapped namedLabel
      = { byteSwapped namedLabel with dChecksum := swap16 namedLabel.dChecksum } := rfl
  rcases (hostLabel_eq_ok _).mp hd with ⟨hhost, -⟩ | ⟨-, hswapped, -⟩
  · exact not_hostOk_byteSwapped _ rfl _ hhost
  · rw [hcksum] at hswapped
    have hsum := (swappedOk_byteSwapped_iff _ hostOk_namedLabel _).mp hswapped
    exact absurd hsum (by decide +kernel)

end OpenBsd.Kern
