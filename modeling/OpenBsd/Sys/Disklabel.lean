/-
  OpenBsd.Sys.Disklabel

  `struct disklabel` of `sys/disklabel.h` on a little-endian host, the fields of
  it that were added for 48-bit addresses, and the older partition entries that
  share their bytes with the newer ones.
-/

import OpenBsd.Lib.Bitmap
import OpenBsd.Lib.Swap

namespace OpenBsd.Sys

open OpenBsd.Lib

def diskmagic : UInt32 := 0x82564557

def maxpartitions : Nat := 16

def rawPart : Fin 16 := 2

theorem rawPart_lt : rawPart.val < 16 := rawPart.isLt

def fsUnused : UInt8 := 0

/-! ## The structures -/

/-- `struct partition` -/
structure Partition where
  pSize : UInt32
  pOffset : UInt32
  pOffseth : UInt16
  pSizeh : UInt16
  pFstype : UInt8
  pFragblock : UInt8
  pCpg : UInt16
deriving DecidableEq

/-- The memory image of `struct partition`. -/
def Partition.codec : Codec Partition :=
  (u32.prod (u32.prod (u16.prod (u16.prod (u8.prod (u8.prod u16)))))).iso
    (fun ⟨size, offset, offseth, sizeh, fstype, fragblock, cpg⟩ =>
      ⟨size, offset, offseth, sizeh, fstype, fragblock, cpg⟩)
    (fun p => (p.pSize, p.pOffset, p.pOffseth, p.pSizeh, p.pFstype, p.pFragblock, p.pCpg))
    (fun _ => rfl)

/-- `struct disklabel`, without the padding at its end.  `d_un` is its
    `un_d_packname`. -/
structure Disklabel where
  dMagic : UInt32
  dType : UInt16
  dSubtype : UInt16
  dTypename : Vector UInt8 16
  dPackname : Vector UInt8 16
  dSecsize : UInt32
  dNsectors : UInt32
  dNtracks : UInt32
  dNcylinders : UInt32
  dSecpercyl : UInt32
  dSecperunit : UInt32
  dUid : Vector UInt8 8
  dAcylinders : UInt32
  dBstarth : UInt16
  dBendh : UInt16
  dBstart : UInt32
  dBend : UInt32
  dFlags : UInt32
  dDrivedata : Vector UInt32 5
  dSecperunith : UInt16
  dVersion : UInt16
  dSpare : Vector UInt32 4
  dMagic2 : UInt32
  dChecksum : UInt16
  dNpartitions : UInt16
  dBbsize : UInt32
  dSbsize : UInt32
  dPartitions : Vector Partition 16
deriving DecidableEq

/-- The bytes of a label in front of `d_checksum`. -/
def headCodec : Codec (UInt32 × UInt16 × UInt16 × Vector UInt8 16 × Vector UInt8 16 × UInt32 ×
    UInt32 × UInt32 × UInt32 × UInt32 × UInt32 × Vector UInt8 8 × UInt32 × UInt16 × UInt16 ×
    UInt32 × UInt32 × UInt32 × Vector UInt32 5 × UInt16 × UInt16 × Vector UInt32 4 × UInt32) :=
  u32.prod (u16.prod (u16.prod ((u8.vector 16).prod ((u8.vector 16).prod (u32.prod (u32.prod
    (u32.prod (u32.prod (u32.prod (u32.prod ((u8.vector 8).prod (u32.prod (u16.prod (u16.prod
    (u32.prod (u32.prod (u32.prod ((u32.vector 5).prod (u16.prod (u16.prod ((u32.vector 4).prod
    u32)))))))))))))))))))))

/-- The bytes of a label behind `d_checksum`. -/
def tailCodec : Codec (UInt16 × UInt32 × UInt32 × Vector Partition 16) :=
  u16.prod (u32.prod (u32.prod (Partition.codec.vector 16)))

namespace Disklabel

/-- The fields in front of `d_checksum`. -/
def head (d : Disklabel) :=
  (d.dMagic, d.dType, d.dSubtype, d.dTypename, d.dPackname, d.dSecsize, d.dNsectors, d.dNtracks,
    d.dNcylinders, d.dSecpercyl, d.dSecperunit, d.dUid, d.dAcylinders, d.dBstarth, d.dBendh,
    d.dBstart, d.dBend, d.dFlags, d.dDrivedata, d.dSecperunith, d.dVersion, d.dSpare, d.dMagic2)

/-- The fields behind `d_checksum`. -/
def tail (d : Disklabel) := (d.dNpartitions, d.dBbsize, d.dSbsize, d.dPartitions)

/-- The memory image of `struct disklabel`. -/
def codec : Codec Disklabel :=
  (headCodec.prod (u16.prod tailCodec)).iso
    (fun ⟨⟨magic, type, subtype, typename, packname, secsize, nsectors, ntracks, ncylinders,
        secpercyl, secperunit, uid, acylinders, bstarth, bendh, bstart, bend, flags, drivedata,
        secperunith, version, spare, magic2⟩, checksum, npartitions, bbsize, sbsize, parts⟩ =>
      ⟨magic, type, subtype, typename, packname, secsize, nsectors, ntracks, ncylinders, secpercyl,
        secperunit, uid, acylinders, bstarth, bendh, bstart, bend, flags, drivedata, secperunith,
        version, spare, magic2, checksum, npartitions, bbsize, sbsize, parts⟩)
    (fun d => (d.head, d.dChecksum, d.tail))
    (fun _ => rfl)

theorem enc_eq (d : Disklabel) :
    codec.enc d = headCodec.enc d.head ++ (u16.enc d.dChecksum ++ tailCodec.enc d.tail) := rfl

theorem halfwords_enc (d : Disklabel) :
    halfwords (codec.enc d)
      = halfwords (headCodec.enc d.head) ++ d.dChecksum :: halfwords (tailCodec.enc d.tail) := by
  have hhead : (headCodec.enc d.head).length = 136 := headCodec.length_enc _
  have hsum : (u16.enc d.dChecksum).length = 2 := u16.length_enc _
  rw [enc_eq, halfwords_append _ (by rw [hhead]), halfwords_append _ (by rw [hsum]), halfwords_u16]
  rfl

theorem length_halfwords_head (d : Disklabel) : (halfwords (headCodec.enc d.head)).length = 68 := by
  have hhead : (headCodec.enc d.head).length = 136 := headCodec.length_enc _
  rw [length_halfwords, hhead]

end Disklabel

/-! ## 48-bit sizes and offsets -/

/-- A high and a low part together: `((u_int64_t)hi << 32) + lo`. -/
def dlJoin (hi : UInt16) (lo : UInt32) : UInt64 := (hi.toUInt64 <<< 32) + lo.toUInt64

def dlGetpsize (p : Partition) : UInt64 := dlJoin p.pSizeh p.pSize

def dlSetpsize (p : Partition) (x : UInt64) : Partition :=
  { p with pSizeh := (x >>> 32).toUInt16, pSize := x.toUInt32 }

def dlGetpoffset (p : Partition) : UInt64 := dlJoin p.pOffseth p.pOffset

def dlSetpoffset (p : Partition) (x : UInt64) : Partition :=
  { p with pOffseth := (x >>> 32).toUInt16, pOffset := x.toUInt32 }

def dlGetdsize (d : Disklabel) : UInt64 := dlJoin d.dSecperunith d.dSecperunit

def dlSetdsize (d : Disklabel) (x : UInt64) : Disklabel :=
  { d with dSecperunith := (x >>> 32).toUInt16, dSecperunit := x.toUInt32 }

def dlSetbstart (d : Disklabel) (x : UInt64) : Disklabel :=
  { d with dBstarth := (x >>> 32).toUInt16, dBstart := x.toUInt32 }

def dlSetbend (d : Disklabel) (x : UInt64) : Disklabel :=
  { d with dBendh := (x >>> 32).toUInt16, dBend := x.toUInt32 }

theorem dlJoin_split (hi : UInt16) (lo : UInt32) :
    (dlJoin hi lo >>> 32).toUInt16 = hi ∧ (dlJoin hi lo).toUInt32 = lo := by
  have hhi := hi.toNat_lt
  have hlo := lo.toNat_lt
  have hval : (dlJoin hi lo).toNat = hi.toNat * 2 ^ 32 + lo.toNat := by
    show ((hi.toUInt64 <<< 32) + lo.toUInt64).toNat = hi.toNat * 2 ^ 32 + lo.toNat
    rw [UInt64.toNat_add, UInt64.toNat_shiftLeft, UInt16.toNat_toUInt64, UInt32.toNat_toUInt64]
    have h32 : (32 : UInt64).toNat % 64 = 32 := rfl
    rw [h32, Nat.shiftLeft_eq]
    omega
  constructor
  · apply UInt16.toNat_inj.mp
    rw [UInt64.toNat_toUInt16, UInt64.toNat_shiftRight, hval]
    have h32 : (32 : UInt64).toNat % 64 = 32 := rfl
    rw [h32, Nat.shiftRight_eq_div_pow]
    omega
  · apply UInt32.toNat_inj.mp
    rw [UInt64.toNat_toUInt32, hval]
    omega

theorem dlGetpsize_dlSetpoffset (p : Partition) (x : UInt64) :
    dlGetpsize (dlSetpoffset p x) = dlGetpsize p := rfl

theorem dlGetpoffset_dlSetpoffset_zero (p : Partition) : dlGetpoffset (dlSetpoffset p 0) = 0 := by
  show dlJoin ((0 : UInt64) >>> 32).toUInt16 (0 : UInt64).toUInt32 = 0
  decide

theorem dlJoin_dlGetdsize (d : Disklabel) :
    dlJoin (dlGetdsize d >>> 32).toUInt16 (dlGetdsize d).toUInt32 = dlGetdsize d := by
  unfold dlGetdsize
  rw [(dlJoin_split _ _).1, (dlJoin_split _ _).2]

theorem dlGetdsize_dlSetdsize (d lp : Disklabel) :
    dlGetdsize (dlSetdsize d (dlGetdsize lp)) = dlGetdsize lp := dlJoin_dlGetdsize lp

theorem dlGetpsize_dlSetpsize (p : Partition) (lp : Disklabel) :
    dlGetpsize (dlSetpsize p (dlGetdsize lp)) = dlGetdsize lp := dlJoin_dlGetdsize lp

/-! ## Version 0 entries -/

/-- `p_fsize` of a `struct __partitionv0`, in the bytes of `p_offseth` and
    `p_sizeh`. -/
def v0Fsize (p : Partition) : UInt32 := p.pOffseth.toUInt32 + p.pSizeh.toUInt32 <<< 16

/-- An assignment to `p_fsize`. -/
def setV0Fsize (p : Partition) (x : UInt32) : Partition :=
  { p with pOffseth := x.toUInt16, pSizeh := (x >>> 16).toUInt16 }

/-- `DISKLABELV1_FFS_FRAGBLOCK`, as the byte it is stored in; the product is an
    unsigned 32-bit one. -/
def disklabelv1FfsFragblock (fsize : UInt32) (frag : UInt8) : UInt8 :=
  let bsize := fsize * frag.toUInt32
  if bsize = 0 then 0
  else (UInt8.ofNat (ffs bsize.toBitVec) - 13) <<< 3 ||| UInt8.ofNat (ffs frag.toBitVec)

theorem toNat_v0Fsize (p : Partition) :
    (v0Fsize p).toNat = p.pOffseth.toNat + p.pSizeh.toNat * 2 ^ 16 := by
  have hlo := p.pOffseth.toNat_lt
  have hhi := p.pSizeh.toNat_lt
  show (p.pOffseth.toUInt32 + p.pSizeh.toUInt32 <<< 16).toNat = _
  rw [UInt32.toNat_add, UInt32.toNat_shiftLeft, UInt16.toNat_toUInt32, UInt16.toNat_toUInt32]
  have h16 : (16 : UInt32).toNat % 32 = 16 := rfl
  rw [h16, Nat.shiftLeft_eq]
  omega

theorem toNat_high16 (x : UInt32) : (x >>> 16).toUInt16.toNat = x.toNat / 2 ^ 16 := by
  have hx := x.toNat_lt
  rw [UInt32.toNat_toUInt16, UInt32.toNat_shiftRight]
  have h16 : (16 : UInt32).toNat % 32 = 16 := rfl
  rw [h16, Nat.shiftRight_eq_div_pow]
  omega

theorem v0Fsize_setV0Fsize (p : Partition) (x : UInt32) : v0Fsize (setV0Fsize p x) = x := by
  apply UInt32.toNat_inj.mp
  rw [toNat_v0Fsize]
  show x.toUInt16.toNat + (x >>> 16).toUInt16.toNat * 2 ^ 16 = x.toNat
  rw [toNat_high16, UInt32.toNat_toUInt16]
  omega

theorem v0Fsize_low (p : Partition) : (v0Fsize p).toUInt16 = p.pOffseth := by
  have hlo := p.pOffseth.toNat_lt
  apply UInt16.toNat_inj.mp
  rw [UInt32.toNat_toUInt16, toNat_v0Fsize]
  omega

theorem v0Fsize_high (p : Partition) : (v0Fsize p >>> 16).toUInt16 = p.pSizeh := by
  have hlo := p.pOffseth.toNat_lt
  apply UInt16.toNat_inj.mp
  rw [toNat_high16, toNat_v0Fsize]
  omega

end OpenBsd.Sys
