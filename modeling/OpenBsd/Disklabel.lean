/-
  OpenBsd.Disklabel

  What `sys/disklabel.h` says about partition tables: `struct gpt_header` and
  `struct gpt_partition` as the kernel and efiboot see them, the type UUIDs, and the DOS
  partition table.  `dec_eq_ofGdisk` says that the kernel's header reads as gdisk's.
-/

import OpenBsd.Gdisk.Gpt

namespace OpenBsd.Disklabel

open OpenBsd.Lib
open List hiding Vector

/-! ## GPT -/

def gptsector : Nat := 1

def gptsignature : UInt64 := 0x5452415020494645

def gptrevision : UInt32 := 0x10000

def gptminhdrsize : Nat := 92

def gptminpartsize : Nat := 128

/-- `struct gpt_header` -/
structure GptHeader where
  ghSig : UInt64
  ghRev : UInt32
  ghSize : UInt32
  ghCsum : UInt32
  ghRsvd : UInt32
  ghLbaSelf : UInt64
  ghLbaAlt : UInt64
  ghLbaStart : UInt64
  ghLbaEnd : UInt64
  ghGuid : Uuid
  ghPartLba : UInt64
  ghPartNum : UInt32
  ghPartSize : UInt32
  ghPartCsum : UInt32
deriving DecidableEq

/-- The fields of `struct gpt_header` in memory. -/
def GptHeader.codec : Codec GptHeader :=
  (u64.prod (u32.prod (u32.prod (u32.prod (u32.prod (u64.prod (u64.prod (u64.prod (u64.prod
    (Uuid.codec.prod (u64.prod (u32.prod (u32.prod u32))))))))))))).iso
    (fun ⟨sig, rev, size, csum, rsvd, self, alt, start, «end», guid, plba, pnum, psize, pcsum⟩ =>
      ⟨sig, rev, size, csum, rsvd, self, alt, start, «end», guid, plba, pnum, psize, pcsum⟩)
    (fun h => (h.ghSig, h.ghRev, h.ghSize, h.ghCsum, h.ghRsvd, h.ghLbaSelf, h.ghLbaAlt,
      h.ghLbaStart, h.ghLbaEnd, h.ghGuid, h.ghPartLba, h.ghPartNum, h.ghPartSize, h.ghPartCsum))
    (fun _ => rfl)

/-- `sizeof(struct gpt_header)`: 92 bytes of fields, padded to eight. -/
def sizeofGptHeader : Nat := 96

/-- `struct gpt_partition` -/
structure GptPartition where
  gpType : Uuid
  gpGuid : Uuid
  gpLbaStart : UInt64
  gpLbaEnd : UInt64
  gpAttrs : UInt64
  gpName : Vector UInt16 36
deriving DecidableEq

/-- The memory image of `struct gpt_partition`. -/
def GptPartition.codec : Codec GptPartition :=
  (Uuid.codec.prod (Uuid.codec.prod (u64.prod (u64.prod (u64.prod (u16.vector 36)))))).iso
    (fun p => ⟨p.1, p.2.1, p.2.2.1, p.2.2.2.1, p.2.2.2.2.1, p.2.2.2.2.2⟩)
    (fun e => (e.gpType, e.gpGuid, e.gpLbaStart, e.gpLbaEnd, e.gpAttrs, e.gpName))
    (fun _ => rfl)

/-- `sizeof(struct gpt_partition)` -/
def sizeofGptPartition : Nat := 128

/-- A zeroed `struct gpt_partition`. -/
def GptPartition.zero : GptPartition := ⟨Uuid.nil, Uuid.nil, 0, 0, 0, Vector.replicate 36 0⟩

def gptUuidUnused : List UInt8 :=
  [0x00, 0x00, 0x00, 0x00, 0x00, 0x00, 0x00, 0x00, 0x00, 0x00, 0x00, 0x00, 0x00, 0x00, 0x00, 0x00]

def gptUuidMsdos : List UInt8 :=
  [0xeb, 0xd0, 0xa0, 0xa2, 0xb9, 0xe5, 0x44, 0x33, 0x87, 0xc0, 0x68, 0xb6, 0xb7, 0x26, 0x99, 0xc7]

def gptUuidOpenbsd : List UInt8 :=
  [0x82, 0x4c, 0xc7, 0xa0, 0x36, 0xa8, 0x11, 0xe3, 0x89, 0x0a, 0x95, 0x25, 0x19, 0xad, 0x3f, 0x61]

def gptUuidChromerootfs : List UInt8 :=
  [0x3c, 0xb8, 0xe2, 0x02, 0x3b, 0x7e, 0x47, 0xdd, 0x8a, 0x3c, 0x7f, 0xf2, 0xa1, 0x3c, 0xfc, 0xec]

def gptUuidLinux : List UInt8 :=
  [0x0f, 0xc6, 0x3d, 0xaf, 0x84, 0x83, 0x47, 0x72, 0x8e, 0x79, 0x3d, 0x69, 0xd8, 0x47, 0x7d, 0xe4]

def gptUuidAppleHfs : List UInt8 :=
  [0x48, 0x46, 0x53, 0x00, 0x00, 0x00, 0x11, 0xaa, 0xaa, 0x11, 0x00, 0x30, 0x65, 0x43, 0xec, 0xac]

/-! ## gdisk's view and this one -/

/-- gdisk's header under the names of `struct gpt_header`. -/
def GptHeader.ofGdisk (h : Gdisk.GptHeader) : GptHeader :=
  { ghSig := h.signature
    ghRev := h.revision
    ghSize := h.headerSize
    ghCsum := h.headerChecksum
    ghRsvd := h.reserved
    ghLbaSelf := h.currentLba
    ghLbaAlt := h.backupLba
    ghLbaStart := h.startLba
    ghLbaEnd := h.endLba
    ghGuid := h.guid
    ghPartLba := h.partitionsLba
    ghPartNum := h.partitionsNum
    ghPartSize := h.partitionsSize
    ghPartCsum := h.partitionsChecksum }

/-- gdisk's entry under the names of `struct gpt_partition`. -/
def GptPartition.ofGdisk (p : Gdisk.GptPartition) : GptPartition :=
  { gpType := p.type
    gpGuid := p.guid
    gpLbaStart := p.startLba
    gpLbaEnd := p.endLba
    gpAttrs := p.attributes
    gpName := p.name }

theorem GptHeader.dec_eq_ofGdisk (bs : List UInt8) :
    GptHeader.codec.dec bs = ofGdisk (Gdisk.GptHeader.codec.dec bs) := rfl

theorem GptHeader.enc_ofGdisk (h : Gdisk.GptHeader) :
    GptHeader.codec.enc (ofGdisk h) = Gdisk.GptHeader.codec.enc h := rfl

theorem GptPartition.dec_eq_ofGdisk (bs : List UInt8) :
    GptPartition.codec.dec bs = ofGdisk (Gdisk.GptPartition.codec.dec bs) := rfl

theorem GptPartition.enc_ofGdisk (p : Gdisk.GptPartition) :
    GptPartition.codec.enc (ofGdisk p) = Gdisk.GptPartition.codec.enc p := rfl

theorem GptPartition.ofGdisk_injective {p q : Gdisk.GptPartition} (h : ofGdisk p = ofGdisk q) :
    p = q := by
  apply Gdisk.GptPartition.codec.enc_injective
  rw [← enc_ofGdisk, h, enc_ofGdisk]

/-! ## DOS partition table -/

def dosbbsector : Nat := 0

def dospartoff : Nat := 446

def ndospart : Nat := 4

def dosmbrSignature : UInt16 := 0xaa55

def dosmbrSignatureOff : Nat := 0x1fe

def dosMaxebr : Nat := 256

/-- `struct dos_partition` -/
structure DosPartition where
  dpFlag : UInt8
  dpShd : UInt8
  dpSsect : UInt8
  dpScyl : UInt8
  dpTyp : UInt8
  dpEhd : UInt8
  dpEsect : UInt8
  dpEcyl : UInt8
  dpStart : UInt32
  dpSize : UInt32
deriving DecidableEq

/-- The memory image of `struct dos_partition`. -/
def DosPartition.codec : Codec DosPartition :=
  (u8.prod (u8.prod (u8.prod (u8.prod (u8.prod (u8.prod (u8.prod (u8.prod
    (u32.prod u32))))))))).iso
    (fun ⟨flag, shd, ssect, scyl, typ, ehd, esect, ecyl, start, size⟩ =>
      ⟨flag, shd, ssect, scyl, typ, ehd, esect, ecyl, start, size⟩)
    (fun p => (p.dpFlag, p.dpShd, p.dpSsect, p.dpScyl, p.dpTyp, p.dpEhd, p.dpEsect, p.dpEcyl,
      p.dpStart, p.dpSize))
    (fun _ => rfl)

/-- `sizeof(struct dos_partition)` -/
def sizeofDosPartition : Nat := 16

def dmbrParts (sec : List UInt8) : List DosPartition :=
  (List.range ndospart).map fun i =>
    DosPartition.codec.dec (sec.drop (dospartoff + i * sizeofDosPartition))

def dmbrSign (sec : List UInt8) : UInt16 := u16.dec (sec.drop dosmbrSignatureOff)

theorem dmbrParts_take (sec : List UInt8) : dmbrParts (sec.take devBsize) = dmbrParts sec := by
  apply map_congr_left
  intro i hi
  rw [mem_range, ndospart] at hi
  have hfit : DosPartition.codec.size ≤ devBsize - (dospartoff + i * sizeofDosPartition) := by
    show 16 ≤ 512 - (446 + i * 16)
    omega
  rw [drop_take, DosPartition.codec.dec_take_le _ hfit]

theorem dmbrSign_take (sec : List UInt8) : dmbrSign (sec.take devBsize) = dmbrSign sec := by
  have hfit : u16.size ≤ devBsize - dosmbrSignatureOff := by decide
  rw [dmbrSign, drop_take, u16.dec_take_le _ hfit, dmbrSign]

theorem bytes_of_dmbrSign {sec : List UInt8} (h : dmbrSign sec = dosmbrSignature) :
    sec.getD 510 0 = 0x55 ∧ sec.getD 511 0 = 0xaa := by
  have h0 : sec.getD 510 0 = (sec.drop 510).getD 0 0 := by
    rw [getD_eq_getElem?_getD, getD_eq_getElem?_getD, getElem?_drop]
  have h1 : sec.getD 511 0 = (sec.drop 510).getD 1 0 := by
    rw [getD_eq_getElem?_getD, getD_eq_getElem?_getD, getElem?_drop]
  -- the signature is the little-endian word at 510
  have hsign : UInt16.ofNat (leNat ((sec.drop 510).take 2)) = 0xaa55 := h
  rw [h0, h1]
  have hnat := congrArg UInt16.toNat hsign
  rw [UInt16.toNat_ofNat'] at hnat
  -- a sector too short for it reads as a smaller word
  match hbs : sec.drop 510 with
  | [] =>
    rw [hbs] at hnat
    exact absurd hnat (by decide)
  | [b] =>
    rw [hbs] at hnat
    have hb := b.toNat_lt
    simp only [List.take, leNat, UInt16.reduceToNat] at hnat
    omega
  | b₀ :: b₁ :: bs =>
    rw [hbs] at hnat
    have hb₀ := b₀.toNat_lt
    have hb₁ := b₁.toNat_lt
    simp only [List.take, leNat, UInt16.reduceToNat] at hnat
    refine ⟨UInt8.toNat_inj.mp ?_, UInt8.toNat_inj.mp ?_⟩
    · show b₀.toNat = 0x55
      omega
    · show b₁.toNat = 0xaa
      omega

def bootRecord (parts : Vector DosPartition 4) : List UInt8 :=
  List.replicate dospartoff 0 ++ (DosPartition.codec.vector 4).enc parts ++ [0x55, 0xaa]

theorem length_bootRecord (parts : Vector DosPartition 4) :
    (bootRecord parts).length = devBsize := by
  rw [bootRecord, length_append, length_append, length_replicate,
    (DosPartition.codec.vector 4).length_enc]
  rfl

theorem dmbrParts_bootRecord (parts : Vector DosPartition 4) (rest : List UInt8) :
    dmbrParts (bootRecord parts ++ rest) = parts.toList := by
  apply ext_getElem
  · simp [dmbrParts, ndospart]
  · intro i hi hi'
    simp only [dmbrParts, getElem_map, getElem_range, bootRecord, append_assoc]
    rw [← List.drop_drop, drop_left' length_replicate]
    exact DosPartition.codec.dec_drop_flatMap hi' _

theorem dmbrSign_bootRecord (parts : Vector DosPartition 4) (rest : List UInt8) :
    dmbrSign (bootRecord parts ++ rest) = dosmbrSignature := by
  have hlen : (List.replicate dospartoff 0 ++ (DosPartition.codec.vector 4).enc parts).length
      = dosmbrSignatureOff := by
    rw [length_append, length_replicate, (DosPartition.codec.vector 4).length_enc]
    rfl
  rw [dmbrSign, bootRecord, append_assoc _ [0x55, 0xaa] rest, drop_left' hlen]
  exact u16.dec_enc dosmbrSignature rest

def dosptypUnused : UInt8 := 0x00
def dosptypFat12 : UInt8 := 0x01
def dosptypFat16s : UInt8 := 0x04
def dosptypExtend : UInt8 := 0x05
def dosptypFat16b : UInt8 := 0x06
def dosptypNtfs : UInt8 := 0x07
def dosptypFat32 : UInt8 := 0x0b
def dosptypFat32l : UInt8 := 0x0c
def dosptypFat16l : UInt8 := 0x0e
def dosptypExtendl : UInt8 := 0x0f
def dosptypLinux : UInt8 := 0x83
def dosptypOpenbsd : UInt8 := 0xa6
def dosptypEfi : UInt8 := 0xee
def dosptypEfisys : UInt8 := 0xef

/-! ## Spoofed partitions -/

/-- The file system types a spoofed partition can get. -/
inductive Fstype where
  | unused
  | bsdffs
  | msdos
  | other
  | hfs
  | ext2fs
  | ntfs
deriving DecidableEq

/-- A spoofed `struct partition`: sizes and offsets have 48 bits. -/
structure Partition where
  pFstype : Fstype
  pOffset : Nat
  pSize : Nat
deriving DecidableEq

/-- `DL_SETPOFFSET` and `DL_SETPSIZE` keep 48 bits. -/
def dl48 (n : Nat) : Nat := n % 2 ^ 48

end OpenBsd.Disklabel
