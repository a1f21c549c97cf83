/-
  OpenBsd.Msdosfs.MsdosfsFatSafe

  The map of the clusters in use and the count of the free ones against the FAT: what the
  single operations on them keep.
-/

import OpenBsd.Msdosfs.MsdosfsFat
import Mathlib.Order.Interval.Finset.Nat

namespace OpenBsd.Msdosfs

open OpenBsd.Lib

section

variable (pmp : Msdosfsmount)

/-- A cluster of the volume. -/
def Msdosfsmount.Valid (cn : Nat) : Prop := clustFirst ≤ cn ∧ cn ≤ pmp.maxcluster

instance (cn : Nat) : Decidable (pmp.Valid cn) := inferInstanceAs (Decidable (_ ∧ _))

/-- The clusters of the volume whose bit is clear. -/
def clearBits (s : FatState) : Finset Nat :=
  (Finset.Icc clustFirst pmp.maxcluster).filter (fun cn => s.inusemap.test cn = false)

/-- The map and the count follow the FAT. -/
structure Tracks (s : FatState) : Prop where
  clear_iff_free : ∀ cn, clustFirst ≤ cn → cn ≤ pmp.maxcluster →
    (s.inusemap.test cn = false ↔ pmp.fat.entry s.fat cn = 0)
  count_eq : s.freeclustercount.toNat = (clearBits pmp s).card

/-- The count is right, and the bits of the map that belong to no cluster are set. -/
structure CountOk (s : FatState) : Prop where
  count : s.freeclustercount = BitVec.ofNat 32 (clearBits pmp s).card
  reserved : ∀ cn, ¬ pmp.Valid cn → cn / nInusebits ≤ pmp.maxcluster / nInusebits →
    s.inusemap.test cn = true

/-- The invariant of the allocator. -/
structure MapOk (s : FatState) : Prop extends CountOk pmp s where
  entries : ∀ cn, pmp.Valid cn → (s.inusemap.test cn = false ↔ pmp.fat.entry s.fat cn = 0)

end

variable {pmp : Msdosfsmount} {s : FatState}

theorem Msdosfsmount.maxcluster_bound (pmp : Msdosfsmount) : pmp.maxcluster < 2 ^ 32 - 64 := by
  have h := pmp.maxcluster_lt
  have hmod : pmp.fatSecs * devBsize % 2 ^ 32 < 2 ^ 32 := Nat.mod_lt _ (by decide)
  generalize pmp.fatSecs * devBsize % 2 ^ 32 = size at h hmod
  cases hf : pmp.fat <;> simp only [hf, FatType.fatmult, FatType.fatdiv] at h <;> omega

theorem mem_clearBits {cn : Nat} :
    cn ∈ clearBits pmp s ↔ pmp.Valid cn ∧ s.inusemap.test cn = false := by
  unfold clearBits Msdosfsmount.Valid
  rw [Finset.mem_filter, Finset.mem_Icc]

theorem card_clearBits_le : (clearBits pmp s).card ≤ pmp.maxcluster := by
  have h := Finset.card_filter_le (Finset.Icc clustFirst pmp.maxcluster)
    (fun cn => s.inusemap.test cn = false)
  rw [Nat.card_Icc] at h
  show (Finset.filter _ _).card ≤ _
  unfold clustFirst at *
  omega

theorem MapOk.tracks (h : MapOk pmp s) : Tracks pmp s := by
  constructor
  · intro cn h1 h2
    exact h.entries cn ⟨h1, h2⟩
  · have hle := @card_clearBits_le pmp s
    have hmax := pmp.maxcluster_bound
    rw [h.count, BitVec.toNat_ofNat, Nat.mod_eq_of_lt (by omega)]

theorem CountOk.valid (h : CountOk pmp s) {cn : Nat}
    (hidx : cn / nInusebits ≤ pmp.maxcluster / nInusebits)
    (hclear : s.inusemap.test cn = false) : pmp.Valid cn := by
  by_contra hnot
  rw [h.reserved cn hnot hidx] at hclear
  exact Bool.noConfusion hclear

/-! ## One bit -/

@[simp] theorem usemapFree_fat (s : FatState) (cn : Nat) : (usemapFree s cn).fat = s.fat := rfl

@[simp] theorem usemapAlloc_test (s : FatState) (cn cn' : Nat) :
    (usemapAlloc s cn).inusemap.test cn' = (decide (cn' = cn) || s.inusemap.test cn') :=
  Bitmap.test_set (by decide) cn cn'

@[simp] theorem usemapFree_test (s : FatState) (cn cn' : Nat) :
    (usemapFree s cn).inusemap.test cn' = (!decide (cn' = cn) && s.inusemap.test cn') :=
  Bitmap.test_clear (by decide) cn cn'

theorem CountOk.congr {s' : FatState} (h : CountOk pmp s) (hmap : s'.inusemap = s.inusemap)
    (hcount : s'.freeclustercount = s.freeclustercount) : CountOk pmp s' := by
  have hclear : clearBits pmp s' = clearBits pmp s := by
    unfold clearBits
    rw [hmap]
  constructor
  · rw [hcount, hclear]
    exact h.count
  · rw [hmap]
    exact h.reserved

theorem CountOk.usemapFree (h : CountOk pmp s) {cn : Nat} (hv : pmp.Valid cn)
    (hset : s.inusemap.test cn = true) : CountOk pmp (usemapFree s cn) := by
  have hnot : cn ∉ clearBits pmp s := by
    intro hmem
    rw [(mem_clearBits.mp hmem).2] at hset
    exact Bool.noConfusion hset
  have hinsert : clearBits pmp (Msdosfs.usemapFree s cn) = insert cn (clearBits pmp s) := by
    ext cn'
    rw [mem_clearBits, Finset.mem_insert, mem_clearBits, usemapFree_test]
    by_cases heq : cn' = cn
    · simp [heq, hv]
    · simp [heq]
  constructor
  · rw [hinsert, Finset.card_insert_of_notMem hnot, BitVec.ofNat_add]
    show s.freeclustercount + 1#32 = _
    rw [h.count]
  · intro cn' hnv hidx
    have hne : cn' ≠ cn := fun heq => hnv (heq ▸ hv)
    simp [hne, h.reserved cn' hnv hidx]

theorem CountOk.usemapAlloc (h : CountOk pmp s) {cn : Nat} (hv : pmp.Valid cn)
    (hclear : s.inusemap.test cn = false) : CountOk pmp (usemapAlloc s cn) := by
  have hmem : cn ∈ clearBits pmp s := mem_clearBits.mpr ⟨hv, hclear⟩
  have herase : clearBits pmp (Msdosfs.usemapAlloc s cn) = (clearBits pmp s).erase cn := by
    ext cn'
    rw [mem_clearBits, Finset.mem_erase, mem_clearBits, usemapAlloc_test]
    by_cases heq : cn' = cn
    · simp [heq]
    · simp [heq]
  constructor
  · show s.freeclustercount - 1 = _
    rw [herase, h.count, ← Finset.card_erase_add_one hmem, BitVec.ofNat_add]
    exact BitVec.add_sub_cancel _ _
  · intro cn' hnv hidx
    simp [h.reserved cn' hnv hidx]

/-- The clusters `start` to `start + count` are all free. -/
def FreeRange (pmp : Msdosfsmount) (s : FatState) (start count : Nat) : Prop :=
  ∀ cn, start ≤ cn → cn < start + count → pmp.Valid cn ∧ s.inusemap.test cn = false

theorem usemapAllocRange_spec {count : Nat} :
    ∀ {start : Nat} {s : FatState}, CountOk pmp s → FreeRange pmp s start count →
      CountOk pmp (usemapAllocRange s start count) ∧
      (usemapAllocRange s start count).fat = s.fat ∧
      ∀ cn, (usemapAllocRange s start count).inusemap.test cn =
        (decide (start ≤ cn ∧ cn < start + count) || s.inusemap.test cn) := by
  induction count with
  | zero =>
    intro start s h _
    refine ⟨h, rfl, ?_⟩
    intro cn
    have hout : ¬ (start ≤ cn ∧ cn < start + 0) := by omega
    rw [decide_eq_false hout, Bool.false_or]
    rfl
  | succ n ih =>
    intro start s h hfree
    obtain ⟨hv, hclear⟩ := hfree start (Nat.le_refl _) (by omega)
    have hrest : FreeRange pmp (usemapAlloc s start) (start + 1) n := by
      intro cn h1 h2
      obtain ⟨hv', hclear'⟩ := hfree cn (by omega) (by omega)
      have hne : cn ≠ start := by omega
      refine ⟨hv', ?_⟩
      simp [hne, hclear']
    obtain ⟨hok, hfat, htest⟩ := ih (h.usemapAlloc hv hclear) hrest
    refine ⟨hok, hfat, ?_⟩
    intro cn
    show (usemapAllocRange (usemapAlloc s start) (start + 1) n).inusemap.test cn = _
    rw [htest cn, usemapAlloc_test, ← Bool.or_assoc, ← Bool.decide_or]
    have hiff : ((start + 1 ≤ cn ∧ cn < start + 1 + n) ∨ cn = start) ↔
        (start ≤ cn ∧ cn < start + (n + 1)) := by omega
    rw [decide_eq_decide.mpr hiff]

/-! ## Blocks of the FAT -/

theorem Msdosfsmount.fatblocksize_eq (pmp : Msdosfsmount) :
    pmp.fatblocksec * devBsize = pmp.fatblocksize := by
  apply Nat.div_mul_cancel
  unfold fatblocksize
  cases pmp.fat with
  | fat12 => exact Dvd.dvd.mul_left pmp.sector 3
  | fat16 => exact ⟨128, rfl⟩
  | fat32 => exact ⟨128, rfl⟩

theorem Msdosfsmount.fatblocksize_pos (pmp : Msdosfsmount) : 0 < pmp.fatblocksize := by
  have hsec := pmp.secPos
  unfold fatblocksize
  cases pmp.fat with
  | fat12 =>
    show 0 < 3 * pmp.bytesPerSec
    omega
  | fat16 => exact Nat.succ_pos _
  | fat32 => exact Nat.succ_pos _

theorem Msdosfsmount.fatmult_dvd (pmp : Msdosfsmount) : pmp.fat.fatmult ∣ pmp.fatblocksize := by
  unfold fatblocksize
  cases pmp.fat with
  | fat12 => exact Nat.dvd_mul_right 3 _
  | fat16 => exact ⟨32768, rfl⟩
  | fat32 => exact ⟨16384, rfl⟩

theorem bData_fatblock (pmp : Msdosfsmount) (ofs : Nat) :
    bData (fatblock pmp ofs).bn (fatblock pmp ofs).bo = ofs := by
  show ofs / pmp.fatblocksize * pmp.fatblocksec * devBsize + ofs % pmp.fatblocksize = ofs
  rw [Nat.mul_assoc, pmp.fatblocksize_eq, Nat.div_add_mod']

theorem fatofs_same_block (pmp : Msdosfsmount) (cn : Nat)
    (hbo : pmp.fatofs (cn + 1) % pmp.fatblocksize ≠ 0) :
    pmp.fatofs cn / pmp.fatblocksize = pmp.fatofs (cn + 1) / pmp.fatblocksize := by
  have hpos := pmp.fatblocksize_pos
  have hdm := Nat.div_add_mod (pmp.fatofs (cn + 1)) pmp.fatblocksize
  have hlt := Nat.mod_lt (pmp.fatofs (cn + 1)) hpos
  -- the start of the block is a multiple of the entry's width
  have hstart : pmp.fatblocksize * (pmp.fatofs (cn + 1) / pmp.fatblocksize) ≤ pmp.fatofs cn := by
    obtain ⟨m, hm⟩ := Dvd.dvd.mul_right pmp.fatmult_dvd (pmp.fatofs (cn + 1) / pmp.fatblocksize)
    rw [hm] at hdm ⊢
    exact FatType.fatofs_step hbo hdm
  have hmono : pmp.fatofs cn ≤ pmp.fatofs (cn + 1) :=
    Nat.div_le_div_right (Nat.mul_le_mul_right _ (Nat.le_succ cn))
  apply Nat.div_eq_of_lt_le
  · rw [Nat.mul_comm]
    exact hstart
  · rw [Nat.succ_mul, Nat.mul_comm]
    omega

/-- The bytes of an entry. -/
def FatType.width : FatType → Nat
  | .fat32 => 4
  | _ => 2

theorem FatType.fatofs_width_le {t : FatType} {m cn size : Nat} (hlo : t.fatmult * m ≤ t.fatofs cn)
    (hhi : t.fatofs cn < t.fatmult * m + size) (hsize : t.fatmult ∣ size) :
    t.fatofs cn + t.width ≤ t.fatmult * m + size := by
  obtain ⟨k, rfl⟩ := hsize
  cases t with
  | fat12 =>
    simp only [FatType.fatmult, FatType.width] at hlo hhi ⊢
    obtain ⟨j, rfl | rfl⟩ : ∃ k, cn = 2 * k ∨ cn = 2 * k + 1 := ⟨cn / 2, by omega⟩
    · rw [fatofs_even] at *
      omega
    · rw [fatofs_odd] at *
      omega
  | fat16 =>
    simp only [FatType.fatmult, FatType.width, fatofs_fat16] at *
    omega
  | fat32 =>
    simp only [FatType.fatmult, FatType.width, fatofs_fat32] at *
    omega

theorem fatofs_lt_fatsize (pmp : Msdosfsmount) {cn : Nat} (hcn : cn ≤ pmp.maxcluster) :
    pmp.fatofs cn + pmp.fat.width ≤ pmp.fatSecs * devBsize := by
  have h := pmp.maxcluster_lt
  have hmod : pmp.fatSecs * devBsize % 2 ^ 32 ≤ pmp.fatSecs * devBsize := Nat.mod_le _ _
  generalize pmp.fatSecs * devBsize % 2 ^ 32 = size at h hmod
  unfold Msdosfsmount.fatofs
  cases hf : pmp.fat with
  | fat12 =>
    simp only [hf, FatType.fatmult, FatType.fatdiv] at h
    show cn * 3 / 2 + 2 ≤ _
    omega
  | fat16 =>
    simp only [hf, FatType.fatmult, FatType.fatdiv] at h
    show cn * 2 / 1 + 2 ≤ _
    omega
  | fat32 =>
    simp only [hf, FatType.fatmult, FatType.fatdiv] at h
    show cn * 4 / 1 + 4 ≤ _
    omega

theorem entry_in_block (pmp : Msdosfsmount) {cn : Nat} (hcn : cn ≤ pmp.maxcluster) :
    (fatblock pmp (pmp.fatofs cn)).bo + pmp.fat.width ≤
      (fatblock pmp (pmp.fatofs cn)).bsize := by
  have hfat := fatofs_lt_fatsize pmp hcn
  have hpos := bData_fatblock pmp (pmp.fatofs cn)
  have hlt := Nat.mod_lt (pmp.fatofs cn) pmp.fatblocksize_pos
  have hdm := Nat.div_add_mod (pmp.fatofs cn) pmp.fatblocksize
  obtain ⟨m, hm⟩ := Dvd.dvd.mul_right pmp.fatmult_dvd (pmp.fatofs cn / pmp.fatblocksize)
  -- in the block: both ends are multiples of the width
  have hblock : (fatblock pmp (pmp.fatofs cn)).bo + pmp.fat.width ≤ pmp.fatblocksize := by
    show pmp.fatofs cn % pmp.fatblocksize + pmp.fat.width ≤ pmp.fatblocksize
    rw [hm] at hdm
    have hwidth := @FatType.fatofs_width_le pmp.fat m cn pmp.fatblocksize
      (by show _ ≤ pmp.fatofs cn; omega) (by show pmp.fatofs cn < _; omega) pmp.fatmult_dvd
    change pmp.fatofs cn + _ ≤ _ at hwidth
    omega
  show _ ≤ min pmp.fatblocksec (pmp.fatSecs - (fatblock pmp (pmp.fatofs cn)).bn) * devBsize
  rw [← Nat.mul_min_mul_right, pmp.fatblocksize_eq, Nat.sub_mul]
  apply Nat.le_min.mpr
  refine ⟨hblock, ?_⟩
  unfold bData at hpos
  omega

end OpenBsd.Msdosfs
