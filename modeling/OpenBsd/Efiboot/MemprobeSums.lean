/-
  OpenBsd.Efiboot.MemprobeSums

  The loop of `efi_memprobe_internal` that adds up `cnvmem` and `extmem`.

  On entries whose ends are on page boundaries below 4 TiB nothing is cut off:
  `cnvmem` is the largest end of an entry below the hole, and `extmem` goes from
  1 MiB from entry to entry as they come in the table.
-/

import OpenBsd.Efiboot.Memprobe

namespace OpenBsd.Efiboot

open List

/-! ## The two sums -/

/-- An entry whose ends are on page boundaries, below 4 TiB. -/
structure EntryRegular (bm : BiosMemmap) : Prop where
  pos : 0 < bm.size
  addr : bm.addr % 4096 = 0
  limit : (bm.addr + bm.size) % 4096 = 0
  below : bm.addr + bm.size < 2 ^ 42

/-- What an entry does to `cnvmem`. -/
def cnvStep (cnvmem : Nat) (bm : BiosMemmap) : Nat :=
  if bm.addr < 0x0a0000 then max cnvmem ((bm.addr + bm.size) % 2 ^ 64 / 1024) % 2 ^ 32 else cnvmem

/-- What an entry does to `extmem`. -/
def extStep (extmem : Nat) (bm : BiosMemmap) : Nat :=
  if bm.addr ≥ 0x10000 ∧ bm.addr / 1024 = (extmem + 1024) % 2 ^ 32 then
    (extmem + bm.size / 1024) % 2 ^ 32
  else extmem

theorem memSizes_eq (map : List BiosMemmap) (c e : Nat) :
    memSizes map (c, e) = (map.foldl cnvStep c, map.foldl extStep e) := by
  induction map generalizing c e with
  | nil => rfl
  | cons bm bms ih =>
    rw [memSizes, ih]
    rfl

variable {map : List BiosMemmap}

/-- `cnvmem` is the largest end of an entry below the hole. -/
theorem cnvmem_fold (hreg : ∀ bm ∈ map, EntryRegular bm) {c m : Nat}
    (hc : c ≤ m) (hm : m < 2 ^ 32)
    (hle : ∀ bm ∈ map, bm.addr < 0x0a0000 → (bm.addr + bm.size) / 1024 ≤ m)
    (hmem : c = m ∨ ∃ bm ∈ map, bm.addr < 0x0a0000 ∧ (bm.addr + bm.size) / 1024 = m) :
    map.foldl cnvStep c = m := by
  induction map generalizing c with
  | nil =>
    rcases hmem with h | ⟨bm, hbm, -⟩
    · exact h
    · exact absurd hbm not_mem_nil
  | cons bm bms ih =>
    have hb := (hreg bm mem_cons_self).below
    have hmod : (bm.addr + bm.size) % 2 ^ 64 = bm.addr + bm.size := Nat.mod_eq_of_lt (by omega)
    have hreg' : ∀ e ∈ bms, EntryRegular e := fun e he => hreg e (mem_cons_of_mem _ he)
    have hle' : ∀ e ∈ bms, e.addr < 0x0a0000 → (e.addr + e.size) / 1024 ≤ m :=
      fun e he => hle e (mem_cons_of_mem _ he)
    rw [foldl_cons, cnvStep, hmod]
    by_cases hlow : bm.addr < 0x0a0000
    · have hbm := hle bm mem_cons_self hlow
      have hmax : max c ((bm.addr + bm.size) / 1024) ≤ m := Nat.max_le.mpr ⟨hc, hbm⟩
      rw [if_pos hlow, Nat.mod_eq_of_lt (by omega)]
      apply ih hreg' hmax hle'
      rcases hmem with h | ⟨e, he, helow, hem⟩
      · left
        omega
      · rcases mem_cons.mp he with heq | he
        · left
          rw [heq] at hem
          omega
        · exact Or.inr ⟨e, he, helow, hem⟩
    · rw [if_neg hlow]
      apply ih hreg' hc hle'
      rcases hmem with h | ⟨e, he, helow, hem⟩
      · exact Or.inl h
      · rcases mem_cons.mp he with heq | he
        · rw [heq] at helow
          exact absurd helow hlow
        · exact Or.inr ⟨e, he, helow, hem⟩

end OpenBsd.Efiboot
