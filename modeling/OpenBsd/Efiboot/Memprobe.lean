/-
  OpenBsd.Efiboot.Memprobe

  `efi_memprobe_internal` of `sys/arch/amd64/stand/efiboot/efiboot.c`: the memory map of the
  firmware as `bios_memmap`.

  The table is the list of its entries in front of `BIOS_MAP_END`.
-/

import Mathlib.Algebra.Group.Nat.Defs
import Mathlib.Data.List.Basic

namespace OpenBsd.Efiboot

open List

variable {bm0 : BiosMemmap} {map map' : List BiosMemmap} {mm : EfiMemoryDescriptor}
  {mms : List EfiMemoryDescriptor}

/-- The types of `bios_memmap_t`. -/
inductive BiosMap where
  | free
  | res
  | acpi
  | nvs
  deriving DecidableEq

structure BiosMemmap where
  type : BiosMap
  addr : Nat
  size : Nat
  deriving DecidableEq

/-- `EFI_MEMORY_TYPE`.  Values of no use to the boot loader are `other`. -/
inductive EfiMemoryType where
  | reservedMemoryType
  | loaderCode
  | loaderData
  | bootServicesCode
  | bootServicesData
  | runtimeServicesCode
  | runtimeServicesData
  | conventionalMemory
  | unusableMemory
  | acpiReclaimMemory
  | acpiMemoryNvs
  | other (type : Nat)
  deriving DecidableEq

structure EfiMemoryDescriptor where
  type : EfiMemoryType
  physicalStart : Nat
  numberOfPages : Nat
  deriving DecidableEq

def efiPageSize : Nat := 4096

def EfiMemoryType.bios : EfiMemoryType → BiosMap
  | .reservedMemoryType | .unusableMemory | .runtimeServicesCode | .runtimeServicesData => .res
  | .loaderCode | .loaderData | .bootServicesCode | .bootServicesData | .conventionalMemory => .free
  | .acpiReclaimMemory => .acpi
  | .acpiMemoryNvs => .nvs
  | .other _ => .res

/-- `bm0` for a descriptor. -/
def EfiMemoryDescriptor.memmap (mm : EfiMemoryDescriptor) : BiosMemmap :=
  { type := mm.type.bios
    addr := mm.physicalStart
    size := mm.numberOfPages * efiPageSize % 2 ^ 64 }

/-- The loop over the table: the entry that is extended, or none. -/
def extendEntry (bm0 : BiosMemmap) : List BiosMemmap → Option (List BiosMemmap)
  | [] => none
  | bm :: bms =>
    if bm.type ≠ bm0.type then (extendEntry bm0 bms).map (bm :: ·)
    else if bm.addr ≤ bm0.addr ∧ bm0.addr ≤ (bm.addr + bm.size) % 2 ^ 64 then
      some ({ bm with size := (bm0.addr + bm0.size + 2 ^ 64 - bm.addr) % 2 ^ 64 } :: bms)
    else if bm0.addr ≤ bm.addr ∧ bm.addr ≤ (bm0.addr + bm0.size) % 2 ^ 64 then
      some ({ bm with
        addr := bm0.addr
        size := (bm.addr + bm.size + 2 ^ 64 - bm0.addr) % 2 ^ 64 } :: bms)
    else (extendEntry bm0 bms).map (bm :: ·)

/-- `bios_memmap` has 64 entries, with `BIOS_MAP_END`. -/
def memmapEntries : Nat := 64

/-- One descriptor.  Behind the last entry of the table there is no room. -/
def addEntry (map : List BiosMemmap) (bm0 : BiosMemmap) : Option (List BiosMemmap) :=
  match extendEntry bm0 map with
  | some map => some map
  | none => if map.length + 1 < memmapEntries then some (map ++ [bm0]) else none

/-- `cnvmem` and `extmem`. -/
def memSizes : List BiosMemmap → Nat × Nat → Nat × Nat
  | [], sizes => sizes
  | bm :: bms, (cnvmem, extmem) =>
    let cnvmem :=
      if bm.addr < 0x0a0000 then max cnvmem ((bm.addr + bm.size) % 2 ^ 64 / 1024) % 2 ^ 32 else cnvmem
    let extmem :=
      if bm.addr ≥ 0x10000 ∧ bm.addr / 1024 = (extmem + 1024) % 2 ^ 32 then
        (extmem + bm.size / 1024) % 2 ^ 32
      else extmem
    memSizes bms (cnvmem, extmem)

/-- The loop over the descriptors. -/
def addEntries : List BiosMemmap → List EfiMemoryDescriptor → Option (List BiosMemmap)
  | map, [] => some map
  | map, mm :: mms => (addEntry map mm.memmap).bind fun map => addEntries map mms

/-- `efi_memprobe_internal`: the table, `cnvmem` and `extmem`. -/
def efiMemprobe (mms : List EfiMemoryDescriptor) : Option (List BiosMemmap × Nat × Nat) :=
  (addEntries [] mms).map fun map => (map, memSizes map (0, 0))

/-! ## What the table covers -/

/-- The address is in the entry. -/
def BiosMemmap.Has (bm : BiosMemmap) (x : Nat) : Prop := bm.addr ≤ x ∧ x < bm.addr + bm.size

/-- The address is in the range of the descriptor. -/
def EfiMemoryDescriptor.Has (mm : EfiMemoryDescriptor) (x : Nat) : Prop :=
  mm.physicalStart ≤ x ∧ x < mm.physicalStart + mm.numberOfPages * efiPageSize

/-- The entry is not empty and ends below `2 ^ 64`. -/
def BiosMemmap.Fits (bm : BiosMemmap) : Prop := 0 < bm.size ∧ bm.addr + bm.size < 2 ^ 64

/-- No address is in both. -/
def Apart (a b : BiosMemmap) : Prop := ∀ x, a.Has x → ¬ b.Has x

theorem Apart.symm {a b : BiosMemmap} (h : Apart a b) : Apart b a := fun x hb ha => h x ha hb

theorem Apart.order {a b : BiosMemmap} (h : Apart a b) (ha : a.Fits) (hb : b.Fits) :
    a.addr + a.size ≤ b.addr ∨ b.addr + b.size ≤ a.addr := by
  have hstart := h b.addr
  have hstart' := h a.addr
  unfold BiosMemmap.Has at hstart hstart'
  unfold BiosMemmap.Fits at ha hb
  omega

/-- The entry that is extended takes over the range, and nothing else. -/
theorem extendEntry_some (hfits : ∀ bm ∈ map, bm.Fits) (hfits0 : bm0.Fits)
    (hapart : ∀ bm ∈ map, Apart bm bm0) (h : extendEntry bm0 map = some map') :
    ∃ pre bm bm' post, map = pre ++ bm :: post ∧ map' = pre ++ bm' :: post ∧ bm.type = bm0.type ∧
      bm'.type = bm0.type ∧ bm'.Fits ∧ ∀ x, bm'.Has x ↔ bm.Has x ∨ bm0.Has x := by
  induction map generalizing map' with
  | nil => cases h
  | cons bm bms ih =>
    have hbm := hfits bm mem_cons_self
    have horder := (hapart bm mem_cons_self).order hbm hfits0
    have hlater : ∀ {map'}, (extendEntry bm0 bms).map (bm :: ·) = some map' →
        ∃ pre e e' post, bm :: bms = pre ++ e :: post ∧ map' = pre ++ e' :: post ∧ e.type = bm0.type ∧
          e'.type = bm0.type ∧ e'.Fits ∧ ∀ x, e'.Has x ↔ e.Has x ∨ bm0.Has x := by
      intro map' hmap
      obtain ⟨bms', hrest, rfl⟩ := Option.map_eq_some_iff.1 hmap
      obtain ⟨pre, e, e', post, hsplit, hsplit', hprops⟩ :=
        ih (fun e he => hfits e (mem_cons_of_mem bm he))
          (fun e he => hapart e (mem_cons_of_mem bm he)) hrest
      refine ⟨bm :: pre, e, e', post, ?_, ?_, hprops⟩
      · rw [hsplit]
        rfl
      · rw [hsplit']
        rfl
    unfold BiosMemmap.Fits at hbm hfits0
    have hend : (bm.addr + bm.size) % 2 ^ 64 = bm.addr + bm.size := Nat.mod_eq_of_lt hbm.2
    have hend0 : (bm0.addr + bm0.size) % 2 ^ 64 = bm0.addr + bm0.size := Nat.mod_eq_of_lt hfits0.2
    rw [extendEntry, hend, hend0] at h
    by_cases htype : bm.type = bm0.type
    · rw [if_neg (not_not_intro htype)] at h
      by_cases hbehind : bm.addr ≤ bm0.addr ∧ bm0.addr ≤ bm.addr + bm.size
      · -- the range starts where the entry ends
        rw [if_pos hbehind] at h
        cases h
        have hsize : (bm0.addr + bm0.size + 2 ^ 64 - bm.addr) % 2 ^ 64 = bm.size + bm0.size := by omega
        rw [hsize]
        refine ⟨[], bm, _, bms, rfl, rfl, htype, htype, ⟨?_, ?_⟩, ?_⟩
        · show 0 < bm.size + bm0.size
          omega
        · show bm.addr + (bm.size + bm0.size) < 2 ^ 64
          omega
        · intro x
          unfold BiosMemmap.Has
          show bm.addr ≤ x ∧ x < bm.addr + (bm.size + bm0.size) ↔ _
          omega
      · rw [if_neg hbehind] at h
        by_cases hfront : bm0.addr ≤ bm.addr ∧ bm.addr ≤ bm0.addr + bm0.size
        · -- the range ends where the entry starts
          rw [if_pos hfront] at h
          cases h
          have hsize : (bm.addr + bm.size + 2 ^ 64 - bm0.addr) % 2 ^ 64 = bm0.size + bm.size := by omega
          rw [hsize]
          refine ⟨[], bm, _, bms, rfl, rfl, htype, htype, ⟨?_, ?_⟩, ?_⟩
          · show 0 < bm0.size + bm.size
            omega
          · show bm0.addr + (bm0.size + bm.size) < 2 ^ 64
            omega
          · intro x
            unfold BiosMemmap.Has
            show bm0.addr ≤ x ∧ x < bm0.addr + (bm0.size + bm.size) ↔ _
            omega
        · rw [if_neg hfront] at h
          exact hlater h
    · rw [if_pos htype] at h
      exact hlater h

/-- The table after some descriptors. -/
structure MapOk (mms : List EfiMemoryDescriptor) (map : List BiosMemmap) : Prop where
  fits : ∀ bm ∈ map, bm.Fits
  apart : map.Pairwise Apart
  covers : ∀ t x, (∃ bm ∈ map, bm.type = t ∧ bm.Has x) ↔ ∃ mm ∈ mms, mm.type.bios = t ∧ mm.Has x

/-- A descriptor that is not empty and ends below `2 ^ 64`. -/
def EfiMemoryDescriptor.Valid (mm : EfiMemoryDescriptor) : Prop :=
  0 < mm.numberOfPages ∧ mm.physicalStart + mm.numberOfPages * efiPageSize < 2 ^ 64

theorem memmap_size (h : mm.Valid) : mm.memmap.size = mm.numberOfPages * efiPageSize := by
  unfold EfiMemoryDescriptor.Valid at h
  show mm.numberOfPages * efiPageSize % 2 ^ 64 = _
  exact Nat.mod_eq_of_lt (by omega)

theorem memmap_has (h : mm.Valid) (x : Nat) : mm.memmap.Has x ↔ mm.Has x := by
  unfold BiosMemmap.Has EfiMemoryDescriptor.Has
  rw [memmap_size h]
  exact Iff.rfl

theorem memmap_fits (h : mm.Valid) : mm.memmap.Fits := by
  unfold BiosMemmap.Fits
  rw [memmap_size h]
  refine ⟨?_, h.2⟩
  have hpos := h.1
  unfold efiPageSize
  omega

theorem mapOk_nil : MapOk [] [] := by
  refine ⟨fun _ h => (not_mem_nil h).elim, List.Pairwise.nil, fun t x => ?_⟩
  constructor
  · rintro ⟨_, h, -⟩
    exact (not_mem_nil h).elim
  · rintro ⟨_, h, -⟩
    exact (not_mem_nil h).elim

theorem MapOk.apart_of (h : MapOk mms map) (hvalid : mm.Valid)
    (hmm : ∀ mm' ∈ mms, ∀ x, mm'.Has x → ¬ mm.Has x) : ∀ bm ∈ map, Apart bm mm.memmap := by
  intro bm hbm x hx hx'
  obtain ⟨mm', hmm', -, hhas⟩ := (h.covers bm.type x).1 ⟨bm, hbm, rfl, hx⟩
  exact hmm mm' hmm' x hhas ((memmap_has hvalid x).1 hx')

/-- One descriptor in a table with room for all. -/
def mergeEntry (map : List BiosMemmap) (bm0 : BiosMemmap) : List BiosMemmap :=
  match extendEntry bm0 map with
  | some map => map
  | none => map ++ [bm0]

theorem addEntry_some (h : addEntry map bm0 = some map') : map' = mergeEntry map bm0 := by
  unfold addEntry at h
  unfold mergeEntry
  cases hext : extendEntry bm0 map with
  | some map'' =>
    rw [hext] at h
    exact (Option.some.inj h).symm
  | none =>
    rw [hext] at h
    dsimp only at h
    split at h
    · exact (Option.some.inj h).symm
    · cases h

/-- One descriptor more. -/
theorem MapOk.merge (h : MapOk mms map) (hvalid : mm.Valid)
    (hmm : ∀ mm' ∈ mms, ∀ x, mm'.Has x → ¬ mm.Has x) :
    MapOk (mms ++ [mm]) (mergeEntry map mm.memmap) := by
  obtain ⟨map', hmap'⟩ : ∃ map', mergeEntry map mm.memmap = map' := ⟨_, rfl⟩
  rw [hmap']
  have hapart := h.apart_of hvalid hmm
  have hfits0 := memmap_fits hvalid
  -- what the new table covers is what the old one and the range do
  have hcovers : (∀ t x, (∃ bm ∈ map', bm.type = t ∧ bm.Has x) ↔
      (∃ bm ∈ map, bm.type = t ∧ bm.Has x) ∨ (mm.type.bios = t ∧ mm.memmap.Has x)) →
      ∀ t x, (∃ bm ∈ map', bm.type = t ∧ bm.Has x) ↔ ∃ mm' ∈ mms ++ [mm], mm'.type.bios = t ∧ mm'.Has x := by
    intro hsum t x
    rw [hsum, h.covers, memmap_has hvalid]
    simp only [mem_append, mem_singleton, or_and_right, exists_or, exists_eq_left]
  unfold mergeEntry at hmap'
  cases hext : extendEntry mm.memmap map with
  | some map'' =>
    rw [hext] at hmap'
    cases hmap'
    obtain ⟨pre, bm, bm', post, rfl, rfl, htype, htype', hfits', hhas⟩ :=
      extendEntry_some h.fits hfits0 hapart hext
    obtain ⟨hpre, hbmpost, hcross⟩ := pairwise_append.1 h.apart
    obtain ⟨hbm, hpost⟩ := pairwise_cons.1 hbmpost
    have hnew : ∀ e, Apart e bm → Apart e mm.memmap → Apart e bm' := by
      intro e he he' x hx hx'
      rcases (hhas x).1 hx' with hb | hb
      · exact he x hx hb
      · exact he' x hx hb
    refine ⟨?_, ?_, hcovers ?_⟩
    · intro e he
      rcases mem_append.1 he with he | he
      · exact h.fits e (mem_append_left _ he)
      · rcases mem_cons.1 he with rfl | he
        · exact hfits'
        · exact h.fits e (mem_append_right _ (mem_cons_of_mem bm he))
    · refine pairwise_append.2 ⟨hpre, pairwise_cons.2 ⟨?_, hpost⟩, ?_⟩
      · intro e he
        have hin := mem_append_right pre (mem_cons_of_mem bm he)
        exact (hnew e (hbm e he).symm (hapart e hin)).symm
      · intro e he e' he'
        rcases mem_cons.1 he' with rfl | he'
        · exact hnew e (hcross e he bm mem_cons_self) (hapart e (mem_append_left _ he))
        · exact hcross e he e' (mem_cons_of_mem bm he')
    · intro t x
      have htypes : mm.memmap.type = mm.type.bios := rfl
      rw [htypes] at htype htype'
      simp only [mem_append, mem_cons, or_and_right, exists_or, exists_eq_left, hhas, htype,
        htype', and_or_left]
      constructor
      · rintro (hp | (hb | hb) | hp)
        · exact .inl (.inl hp)
        · exact .inl (.inr (.inl hb))
        · exact .inr hb
        · exact .inl (.inr (.inr hp))
      · rintro ((hp | hb | hp) | hb)
        · exact .inl hp
        · exact .inr (.inl (.inl hb))
        · exact .inr (.inr hp)
        · exact .inr (.inl (.inr hb))
  | none =>
    rw [hext] at hmap'
    cases hmap'
    refine ⟨?_, ?_, hcovers ?_⟩
    · intro e he
      rcases mem_append.1 he with he | he
      · exact h.fits e he
      · rw [mem_singleton.1 he]
        exact hfits0
    · refine pairwise_append.2 ⟨h.apart, pairwise_singleton _ _, ?_⟩
      intro e he e' he'
      rw [mem_singleton.1 he']
      exact hapart e he
    · intro t x
      simp only [mem_append, mem_singleton, or_and_right, exists_or, exists_eq_left]
      rfl

theorem MapOk.add (h : MapOk mms map) (hvalid : mm.Valid)
    (hmm : ∀ mm' ∈ mms, ∀ x, mm'.Has x → ¬ mm.Has x) (hadd : addEntry map mm.memmap = some map') :
    MapOk (mms ++ [mm]) map' := by
  rw [addEntry_some hadd]
  exact h.merge hvalid hmm

/-! ## All descriptors -/

/-- No address is in the ranges of two descriptors. -/
def DisjointRanges (mms : List EfiMemoryDescriptor) : Prop :=
  mms.Pairwise fun mm mm' => ∀ x, mm.Has x → ¬ mm'.Has x

theorem MapOk.run {mms : List EfiMemoryDescriptor} (rest : List EfiMemoryDescriptor)
    {map map' : List BiosMemmap} (h : MapOk mms map) (hvalid : ∀ mm ∈ rest, mm.Valid)
    (hdisjoint : DisjointRanges (mms ++ rest)) (hrun : addEntries map rest = some map') :
    MapOk (mms ++ rest) map' := by
  induction rest generalizing mms map with
  | nil =>
    cases hrun
    rwa [append_nil]
  | cons mm rest ih =>
    rw [addEntries] at hrun
    obtain ⟨map₁, hadd, hrest⟩ := Option.bind_eq_some_iff.1 hrun
    have happend : mms ++ mm :: rest = (mms ++ [mm]) ++ rest := by rw [append_assoc, singleton_append]
    have hapart : ∀ mm' ∈ mms, ∀ x, mm'.Has x → ¬ mm.Has x := by
      intro mm' hmm'
      exact (pairwise_append.1 hdisjoint).2.2 mm' hmm' mm mem_cons_self
    rw [happend] at hdisjoint ⊢
    apply ih
    · exact h.add (hvalid mm mem_cons_self) hapart hadd
    · intro mm' hmm'
      exact hvalid mm' (mem_cons_of_mem mm hmm')
    · exact hdisjoint
    · exact hrest

theorem extendEntry_length (h : extendEntry bm0 map = some map') : map'.length = map.length := by
  induction map generalizing map' with
  | nil => cases h
  | cons bm bms ih =>
    have hlater : (extendEntry bm0 bms).map (bm :: ·) = some map' → map'.length = (bm :: bms).length := by
      intro hmap
      obtain ⟨bms', hrest, rfl⟩ := Option.map_eq_some_iff.1 hmap
      rw [length_cons, length_cons, ih hrest]
    rw [extendEntry] at h
    split at h
    · exact hlater h
    · split at h
      · rw [← Option.some.inj h, length_cons, length_cons]
      · split at h
        · rw [← Option.some.inj h, length_cons, length_cons]
        · exact hlater h

theorem addEntries_isSome (rest : List EfiMemoryDescriptor)
    (h : map.length + rest.length < memmapEntries) : (addEntries map rest).isSome := by
  induction rest generalizing map with
  | nil => rfl
  | cons mm rest ih =>
    rw [length_cons] at h
    have hone : ∃ map₁, addEntry map mm.memmap = some map₁ ∧ map₁.length ≤ map.length + 1 := by
      unfold addEntry
      cases hext : extendEntry mm.memmap map with
      | some map₁ => exact ⟨map₁, rfl, by rw [extendEntry_length hext]; omega⟩
      | none =>
        refine ⟨map ++ [mm.memmap], if_pos (by omega), ?_⟩
        exact Nat.le_of_eq (by rw [length_append, length_singleton])
    obtain ⟨map₁, hadd, hlength⟩ := hone
    rw [addEntries, hadd]
    show (addEntries map₁ rest).isSome
    apply ih
    omega

/-- The table covers, type by type, what the descriptors do, and no address twice.  Sixty-three
descriptors fit in any case. -/
theorem efi_memprobe_covers (mms : List EfiMemoryDescriptor) (hvalid : ∀ mm ∈ mms, mm.Valid)
    (hdisjoint : DisjointRanges mms) :
    (mms.length < memmapEntries → (efiMemprobe mms).isSome) ∧
      ∀ map sizes, efiMemprobe mms = some (map, sizes) →
        (∀ t x, (∃ bm ∈ map, bm.type = t ∧ bm.Has x) ↔ ∃ mm ∈ mms, mm.type.bios = t ∧ mm.Has x) ∧
          map.Pairwise Apart := by
  constructor
  · intro hlength
    unfold efiMemprobe
    rw [Option.isSome_map]
    apply addEntries_isSome
    rwa [length_nil, Nat.zero_add]
  · intro map sizes hprobe
    obtain ⟨map', hrun, heq⟩ := Option.map_eq_some_iff.1 hprobe
    cases heq
    have hok := mapOk_nil.run mms hvalid hdisjoint hrun
    exact ⟨hok.covers, hok.apart⟩

/-- The second descriptor extends the first, and the third has its own type. -/
theorem efi_memprobe_covers_three : let mms : List EfiMemoryDescriptor :=
      [⟨.conventionalMemory, 0x2000, 2⟩, ⟨.loaderData, 0x1000, 1⟩, ⟨.acpiMemoryNvs, 0x4000, 1⟩]
    ∃ map, (efiMemprobe mms).map Prod.fst = some map ∧ map = [⟨.free, 0x1000, 0x3000⟩, ⟨.nvs, 0x4000, 0x1000⟩] ∧
      map.Pairwise Apart := by
  intro mms
  have hvalid : ∀ mm ∈ mms, mm.Valid := by
    intro mm hmm
    simp only [mms, mem_cons, not_mem_nil, or_false] at hmm
    rcases hmm with rfl | rfl | rfl <;> constructor <;> decide
  have hdisjoint : DisjointRanges mms := by
    simp only [DisjointRanges, mms, EfiMemoryDescriptor.Has, efiPageSize, pairwise_cons,
      mem_cons, not_mem_nil, or_false, List.Pairwise.nil, and_true]
    refine ⟨?_, ?_, fun _ h => h.elim⟩
    · rintro _ (rfl | rfl) x <;> dsimp only <;> omega
    · rintro _ rfl x
      dsimp only
      omega
  have hmap : efiMemprobe mms =
      some ([⟨.free, 0x1000, 0x3000⟩, ⟨.nvs, 0x4000, 0x1000⟩], 20, 0) := by decide
  exact ⟨_, by rw [hmap]; rfl, rfl, ((efi_memprobe_covers mms hvalid hdisjoint).2 _ _ hmap).2⟩

end OpenBsd.Efiboot
