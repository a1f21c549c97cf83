/-
  OpenBsd.Efiboot.MemprobeSlots

  When `efi_memprobe_internal` stays inside `bios_memmap`.

  A descriptor takes a new entry when it touches no entry of its type, so the
  number of entries depends on the order of the descriptors: one that is met
  before its neighbours stays apart from those behind it.
-/

import OpenBsd.Efiboot.Memprobe

namespace OpenBsd.Efiboot

open List

variable {bm0 : BiosMemmap} {map : List BiosMemmap} {mms : List EfiMemoryDescriptor}

/-- The table that the descriptors make where there is room for all. -/
def mergeAll (map : List BiosMemmap) (mms : List EfiMemoryDescriptor) : List BiosMemmap :=
  mms.foldl (fun map mm => mergeEntry map mm.memmap) map

/-- The range of a descriptor touches an entry of its type, in the comparisons of
    the loop. -/
def EntryTouches (bm0 bm : BiosMemmap) : Prop :=
  bm.type = bm0.type ∧
    ((bm.addr ≤ bm0.addr ∧ bm0.addr ≤ (bm.addr + bm.size) % 2 ^ 64) ∨
      (bm0.addr ≤ bm.addr ∧ bm.addr ≤ (bm0.addr + bm0.size) % 2 ^ 64))

theorem extendEntry_none_iff : extendEntry bm0 map = none ↔ ∀ bm ∈ map, ¬ EntryTouches bm0 bm := by
  induction map with
  | nil =>
    constructor
    · intro _ bm hbm
      exact absurd hbm not_mem_nil
    · intro _
      rfl
  | cons bm bms ih =>
    rw [extendEntry, forall_mem_cons, ← ih]
    by_cases htype : bm.type = bm0.type
    · rw [if_neg (not_not_intro htype)]
      by_cases hbehind : bm.addr ≤ bm0.addr ∧ bm0.addr ≤ (bm.addr + bm.size) % 2 ^ 64
      · rw [if_pos hbehind]
        constructor
        · intro h
          cases h
        · rintro ⟨h, -⟩
          exact absurd ⟨htype, Or.inl hbehind⟩ h
      rw [if_neg hbehind]
      by_cases hfront : bm0.addr ≤ bm.addr ∧ bm.addr ≤ (bm0.addr + bm0.size) % 2 ^ 64
      · rw [if_pos hfront]
        constructor
        · intro h
          cases h
        · rintro ⟨h, -⟩
          exact absurd ⟨htype, Or.inr hfront⟩ h
      rw [if_neg hfront, Option.map_eq_none_iff]
      refine ⟨fun h => ⟨?_, h⟩, fun h => h.2⟩
      rintro ⟨-, h | h⟩
      · exact hbehind h
      · exact hfront h
    · rw [if_pos htype, Option.map_eq_none_iff]
      exact ⟨fun h => ⟨fun ht => htype ht.1, h⟩, fun h => h.2⟩

/-! ## The number of entries -/

/-- The one range ends where the other starts. -/
def EfiMemoryDescriptor.Touches (mm mm' : EfiMemoryDescriptor) : Prop :=
  mm.type.bios = mm'.type.bios ∧
    (mm.physicalStart + mm.numberOfPages * efiPageSize = mm'.physicalStart ∨
      mm'.physicalStart + mm'.numberOfPages * efiPageSize = mm.physicalStart)

instance (mm mm' : EfiMemoryDescriptor) : Decidable (mm.Touches mm') :=
  inferInstanceAs (Decidable (_ ∧ _))

/-- In a table that covers what the descriptors do, an entry touches a range
    exactly when a descriptor does. -/
theorem MapOk.touches_iff (h : MapOk mms map) (hvalids : ∀ mm' ∈ mms, mm'.Valid)
    {mm : EfiMemoryDescriptor} (hvalid : mm.Valid)
    (hmm : ∀ mm' ∈ mms, ∀ x, mm'.Has x → ¬ mm.Has x) :
    (∃ bm ∈ map, EntryTouches mm.memmap bm) ↔ ∃ mm' ∈ mms, mm'.Touches mm := by
  have hfits := memmap_fits hvalid
  have hsize := memmap_size hvalid
  have haddr : mm.memmap.addr = mm.physicalStart := rfl
  have hpos : 0 < mm.numberOfPages * efiPageSize := Nat.mul_pos hvalid.1 (by decide)
  unfold BiosMemmap.Fits at hfits
  -- the first and the last address of the range
  have hfirst : mm.Has mm.physicalStart := by
    unfold EfiMemoryDescriptor.Has
    omega
  have hlast : mm.Has (mm.physicalStart + mm.numberOfPages * efiPageSize - 1) := by
    unfold EfiMemoryDescriptor.Has
    omega
  constructor
  · rintro ⟨bm, hbm, htype, ht⟩
    have hbmfits := h.fits bm hbm
    have horder := (h.apart_of hvalid hmm bm hbm).order hbmfits (memmap_fits hvalid)
    unfold BiosMemmap.Fits at hbmfits
    rw [Nat.mod_eq_of_lt hbmfits.2, Nat.mod_eq_of_lt hfits.2] at ht
    -- the address of the entry that is next to the range
    have hnext : (bm.addr + bm.size = mm.physicalStart ∧ bm.Has (mm.physicalStart - 1)) ∨
        (mm.physicalStart + mm.numberOfPages * efiPageSize = bm.addr ∧ bm.Has bm.addr) := by
      unfold BiosMemmap.Has
      omega
    rcases hnext with ⟨hend, hhas⟩ | ⟨hstart, hhas⟩
    · obtain ⟨mm', hmm', htype', hhas'⟩ := (h.covers bm.type _).mp ⟨bm, hbm, rfl, hhas⟩
      refine ⟨mm', hmm', htype'.trans htype, Or.inl ?_⟩
      have hno : ¬ mm'.Has mm.physicalStart := fun hx => hmm mm' hmm' _ hx hfirst
      unfold EfiMemoryDescriptor.Has at hhas' hno
      omega
    · obtain ⟨mm', hmm', htype', hhas'⟩ := (h.covers bm.type _).mp ⟨bm, hbm, rfl, hhas⟩
      refine ⟨mm', hmm', htype'.trans htype, Or.inr ?_⟩
      have hno : ¬ mm'.Has (mm.physicalStart + mm.numberOfPages * efiPageSize - 1) :=
        fun hx => hmm mm' hmm' _ hx hlast
      unfold EfiMemoryDescriptor.Has at hhas' hno
      omega
  · rintro ⟨mm', hmm', htype, htouch⟩
    have hpos' : 0 < mm'.numberOfPages * efiPageSize := Nat.mul_pos (hvalids mm' hmm').1 (by decide)
    -- the entry over an address of it is on one side of the range
    have hentry : ∀ x, mm'.Has x → ∃ bm ∈ map, bm.type = mm'.type.bios ∧ bm.Fits ∧ bm.Has x ∧
        (bm.addr + bm.size ≤ mm.memmap.addr ∨ mm.memmap.addr + mm.memmap.size ≤ bm.addr) := by
      intro x hhas
      obtain ⟨bm, hbm, hbmtype, hbmhas⟩ := (h.covers mm'.type.bios x).mpr ⟨mm', hmm', rfl, hhas⟩
      exact ⟨bm, hbm, hbmtype, h.fits bm hbm, hbmhas,
        (h.apart_of hvalid hmm bm hbm).order (h.fits bm hbm) (memmap_fits hvalid)⟩
    unfold EfiMemoryDescriptor.Has BiosMemmap.Fits BiosMemmap.Has at hentry
    rcases htouch with hend | hstart
    · obtain ⟨bm, hbm, hbmtype, hbmfits, hbmhas⟩ := hentry (mm.physicalStart - 1) (by omega)
      refine ⟨bm, hbm, hbmtype.trans htype, Or.inl ?_⟩
      rw [Nat.mod_eq_of_lt hbmfits.2]
      omega
    · obtain ⟨bm, hbm, hbmtype, hbmfits, hbmhas⟩ :=
        hentry (mm.physicalStart + mm.numberOfPages * efiPageSize) (by omega)
      refine ⟨bm, hbm, hbmtype.trans htype, Or.inr ?_⟩
      rw [Nat.mod_eq_of_lt hfits.2]
      omega

end OpenBsd.Efiboot
