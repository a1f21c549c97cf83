/-
  OpenBsd.Efiboot.MemprobeSizes

  Maps whose `cnvmem` and `extmem` do not depend on the order in which
  `efi_memprobe_internal` gets the descriptors.

  `cnvmem` is where the entry of the last descriptor below the hole ends, and
  `extmem` starts with the entry at 1 MiB, of whatever type.  Both are the same
  for every order when the descriptors there have no neighbours of their type, or
  one neighbour that has no other.
-/

import OpenBsd.Efiboot.MemprobeMerge
import OpenBsd.Efiboot.MemprobeSums

namespace OpenBsd.Efiboot

open List

/-! ## Maps -/

/-- A descriptor that is not empty, on page boundaries, below 4 TiB. -/
structure EfiMemoryDescriptor.Regular (mm : EfiMemoryDescriptor) : Prop where
  pages : 0 < mm.numberOfPages
  aligned : mm.physicalStart % efiPageSize = 0
  below : mm.limit < 2 ^ 42

variable {mm : EfiMemoryDescriptor}

theorem EfiMemoryDescriptor.Regular.valid (h : mm.Regular) : mm.Valid := by
  have hbelow := h.below
  refine ⟨h.pages, ?_⟩
  show mm.limit < 2 ^ 64
  omega

theorem EfiMemoryDescriptor.Regular.page (h : mm.Regular) :
    mm.physicalStart % 4096 = 0 ∧ mm.limit % 4096 = 0 := by
  have haligned : mm.physicalStart % 4096 = 0 := h.aligned
  refine ⟨haligned, ?_⟩
  show (mm.physicalStart + mm.numberOfPages * 4096) % 4096 = 0
  rw [Nat.add_mul_mod_self_right, haligned]

/-- The address is in a range of type `BIOS_MAP_FREE`. -/
def FreeAt (mms : List EfiMemoryDescriptor) (x : Nat) : Prop :=
  ∃ mm ∈ mms, mm.type.bios = .free ∧ mm.Has x

/-- `extmem` is the size in KiB of the free memory from 1 MiB on. -/
def ExtmemRight (mms : List EfiMemoryDescriptor) (extmem : Nat) : Prop :=
  ∃ len, (∀ x, 0x100000 ≤ x → x < 0x100000 + len → FreeAt mms x) ∧ ¬ FreeAt mms (0x100000 + len) ∧
    extmem = len / 1024

theorem ExtmemRight.unique {mms : List EfiMemoryDescriptor} {a b : Nat} (ha : ExtmemRight mms a)
    (hb : ExtmemRight mms b) : a = b := by
  obtain ⟨la, hla, hla', rfl⟩ := ha
  obtain ⟨lb, hlb, hlb', rfl⟩ := hb
  have h1 : ¬ la < lb := fun h => hla' (hlb _ (by omega) (by omega))
  have h2 : ¬ lb < la := fun h => hlb' (hla _ (by omega) (by omega))
  have heq : la = lb := by omega
  rw [heq]

/-- The descriptor that starts highest below the hole. -/
structure LastBelowHole (mms : List EfiMemoryDescriptor) (d : EfiMemoryDescriptor) : Prop where
  mem : d ∈ mms
  low : d.physicalStart < 0x0a0000
  last : ∀ mm ∈ mms, mm.physicalStart < 0x0a0000 → mm.physicalStart ≤ d.physicalStart

/-- The range behind the last one below the hole, if it is of its type, is in no
    other company than that one. -/
def CnvmemKept (mms : List EfiMemoryDescriptor) : Prop :=
  ∀ d, LastBelowHole mms d → ∀ e ∈ mms, e.type.bios = d.type.bios → e.physicalStart = d.limit →
    PairOnly mms d e

/-- What has to hold at 1 MiB. -/
inductive ExtmemKept (mms : List EfiMemoryDescriptor) : Prop where
  /-- no range starts there, and the memory is not free -/
  | nothing (hno : ∀ d ∈ mms, d.physicalStart ≠ 0x100000) (hfree : ¬ FreeAt mms 0x100000)
  /-- the range that starts there is not free, and always shares the entry of the
      one in front of it -/
  | taken (d : EfiMemoryDescriptor) (hd : d ∈ mms) (hstart : d.physicalStart = 0x100000)
      (htype : d.type.bios ≠ .free) (d₀ : EfiMemoryDescriptor) (hd₀ : d₀ ∈ mms)
      (hlimit : d₀.limit = 0x100000) (hpair : PairOnly mms d₀ d)
  /-- it is free, alone and nothing follows it -/
  | one (d : EfiMemoryDescriptor) (hd : d ∈ mms) (hstart : d.physicalStart = 0x100000)
      (htype : d.type.bios = .free) (hfirst : ∀ r ∈ mms, r.type.bios = .free → r.limit ≠ 0x100000)
      (hlast : ∀ r ∈ mms, r.physicalStart ≠ d.limit)
  /-- or there are two, and nothing follows them -/
  | two (d : EfiMemoryDescriptor) (hd : d ∈ mms) (hstart : d.physicalStart = 0x100000)
      (htype : d.type.bios = .free) (hfirst : ∀ r ∈ mms, r.type.bios = .free → r.limit ≠ 0x100000)
      (d₂ : EfiMemoryDescriptor) (hd₂ : d₂ ∈ mms) (htype₂ : d₂.type.bios = .free)
      (hstart₂ : d₂.physicalStart = d.limit) (hlast : ∀ r ∈ mms, r.physicalStart ≠ d₂.limit)

section

variable {mms : List EfiMemoryDescriptor} {map : List BiosMemmap}

theorem MapWhole.regular (h : MapWhole mms map) (hreg : ∀ mm ∈ mms, mm.Regular) :
    ∀ bm ∈ map, EntryRegular bm := by
  intro bm hbm
  obtain ⟨p, hp, -, hstart, -⟩ := h.entry_start hbm
  obtain ⟨q, hq, -, hlimit, -⟩ := h.entry_limit hbm
  refine ⟨(h.ok.fits bm hbm).1, ?_, ?_, ?_⟩
  · rw [← hstart]
    exact (hreg p hp).page.1
  · rw [← hlimit]
    exact (hreg q hq).page.2
  · rw [← hlimit]
    exact (hreg q hq).below

theorem within_has {d : EfiMemoryDescriptor} (hd : d.Valid) {bm : BiosMemmap}
    (hin : Within d.memmap bm) : bm.addr ≤ d.physicalStart ∧ d.limit ≤ bm.addr + bm.size := by
  have hlimit := hin.limit
  rw [memmap_limit hd] at hlimit
  exact ⟨hin.addr, hlimit⟩

/-! ## `cnvmem` -/

theorem MapWhole.cnvmem (h : MapWhole mms map) (hreg : ∀ mm ∈ mms, mm.Regular)
    {d : EfiMemoryDescriptor} (hd : LastBelowHole mms d) {bm : BiosMemmap} (hbm : bm ∈ map)
    (hin : Within d.memmap bm) : (memSizes map (0, 0)).1 = (bm.addr + bm.size) / 1024 := by
  have hregs := h.regular hreg
  have hbelow := (hregs bm hbm).below
  have hdlt := (h.valid d hd.mem).lt_limit
  have hdin := within_has (h.valid d hd.mem) hin
  have hdlow := hd.low
  rw [memSizes_eq]
  apply cnvmem_fold hregs (Nat.zero_le _) (by omega)
  · intro e he helow
    -- an entry that ends higher would start higher, at a descriptor
    have hle : e.addr + e.size ≤ bm.addr + bm.size := by
      by_contra hgt
      obtain ⟨p, hp, -, hstart, hpin⟩ := h.entry_start he
      have hplast := hd.last p hp (by omega)
      have hne : e ≠ bm := by
        intro heq
        rw [heq] at hgt
        omega
      have hshare : ∀ x, e.Has x → ¬ bm.Has x := fun x hx hx' => hne (h.entry_eq he hbm hx hx')
      have hx := hshare d.physicalStart
      unfold BiosMemmap.Has at hx
      omega
    omega
  · right
    exact ⟨bm, hbm, by omega, rfl⟩

end

end OpenBsd.Efiboot
