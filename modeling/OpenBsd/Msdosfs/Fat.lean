/-
  OpenBsd.Msdosfs.Fat

  The file allocation table of `sys/msdosfs`: where the entry of a cluster lies, and how an
  entry of 12, 16 or 32 bits is read and written.
-/

import Mathlib.Tactic.Ring

namespace OpenBsd.Msdosfs

/-! ## Bytes -/

/-- The bytes of the current FAT. -/
abbrev Bytes := Nat → UInt8

def getushort (b : Bytes) (p : Nat) : Nat := (b p).toNat + (b (p + 1)).toNat * 256

/-- `putushort`: bits of `v` above the low 16 are dropped. -/
def putushort (b : Bytes) (p v : Nat) : Bytes := fun q =>
  if q = p then UInt8.ofNat v
  else if q = p + 1 then UInt8.ofNat (v / 256)
  else b q

def getulong (b : Bytes) (p : Nat) : Nat := getushort b p + getushort b (p + 2) * 65536

def putulong (b : Bytes) (p v : Nat) : Bytes := putushort (putushort b p v) (p + 2) (v / 65536)

theorem byte_lt (x : UInt8) : x.toNat < 256 := x.toNat_lt

theorem toNat_byte (v : Nat) : (UInt8.ofNat v).toNat = v % 256 := UInt8.toNat_ofNat'

theorem getushort_lt (b : Bytes) (p : Nat) : getushort b p < 65536 := by
  have h0 := byte_lt (b p)
  have h1 := byte_lt (b (p + 1))
  unfold getushort
  omega

theorem getushort_putushort_same (b : Bytes) (p v : Nat) :
    getushort (putushort b p v) p = v % 65536 := by
  have hne : p + 1 ≠ p := by omega
  unfold getushort putushort
  rw [if_pos rfl, if_neg hne, if_pos rfl, toNat_byte, toNat_byte]
  omega

theorem getushort_putushort_apart (b : Bytes) {p q : Nat} (v : Nat)
    (h : p + 2 ≤ q ∨ q + 2 ≤ p) : getushort (putushort b p v) q = getushort b q := by
  unfold getushort putushort
  rw [if_neg (by omega), if_neg (by omega), if_neg (by omega), if_neg (by omega)]

theorem getulong_putulong_same (b : Bytes) (p v : Nat) :
    getulong (putulong b p v) p = v % 4294967296 := by
  unfold getulong putulong
  rw [getushort_putushort_apart _ _ (by omega), getushort_putushort_same, getushort_putushort_same]
  omega

theorem getulong_putulong_apart (b : Bytes) {p q : Nat} (v : Nat)
    (h : p + 4 ≤ q ∨ q + 4 ≤ p) : getulong (putulong b p v) q = getulong b q := by
  unfold getulong putulong
  rw [getushort_putushort_apart _ _ (by omega), getushort_putushort_apart _ _ (by omega),
    getushort_putushort_apart _ _ (by omega), getushort_putushort_apart _ _ (by omega)]

/-! ## Entries -/

/-- Which of `FAT12`, `FAT16` and `FAT32` holds. -/
inductive FatType where
  | fat12
  | fat16
  | fat32
  deriving DecidableEq

def FatType.fatmask : FatType → Nat
  | .fat12 => 0x00000fff
  | .fat16 => 0x0000ffff
  | .fat32 => 0x0fffffff

def FatType.fatmult : FatType → Nat
  | .fat12 => 3
  | .fat16 => 2
  | .fat32 => 4

def FatType.fatdiv : FatType → Nat
  | .fat12 => 2
  | .fat16 => 1
  | .fat32 => 1

def FatType.fatofs (t : FatType) (cn : Nat) : Nat := cn * t.fatmult / t.fatdiv

/-- The entry at offset `ofs` as it is read for cluster `cn`, masked with `pm_fatmask`. -/
def FatType.getEntry (t : FatType) (b : Bytes) (ofs cn : Nat) : Nat :=
  match t with
  | .fat12 =>
    if cn % 2 = 1 then getushort b ofs / 16 % 4096 else getushort b ofs % 4096
  | .fat16 => getushort b ofs % 65536
  | .fat32 => getulong b ofs % 0x10000000

/-- The write of an entry.  Of the two entries that share a byte in a FAT12, and of the top
    four bits in a FAT32, the other part is kept. -/
def FatType.putEntry (t : FatType) (b : Bytes) (ofs cn new : Nat) : Bytes :=
  match t with
  | .fat12 =>
    let readcn := getushort b ofs
    -- `newcontents << 4` reaches beyond 16 bits, which `putushort` drops
    if cn % 2 = 1 then putushort b ofs (readcn % 16 + new * 16)
    else putushort b ofs (readcn / 4096 * 4096 + new % 4096)
  | .fat16 => putushort b ofs new
  | .fat32 =>
    let readcn := getulong b ofs
    putulong b ofs (readcn / 0x10000000 * 0x10000000 + new % 0x10000000)

def FatType.entry (t : FatType) (b : Bytes) (cn : Nat) : Nat := t.getEntry b (t.fatofs cn) cn

def FatType.setEntry (t : FatType) (b : Bytes) (cn new : Nat) : Bytes :=
  t.putEntry b (t.fatofs cn) cn new

/-! ## The entries of one FAT -/

theorem fatofs_even (k : Nat) : FatType.fat12.fatofs (2 * k) = 3 * k := by
  show 2 * k * 3 / 2 = 3 * k
  omega

theorem fatofs_odd (k : Nat) : FatType.fat12.fatofs (2 * k + 1) = 3 * k + 1 := by
  show (2 * k + 1) * 3 / 2 = 3 * k + 1
  omega

theorem fatofs_fat16 (cn : Nat) : FatType.fat16.fatofs cn = 2 * cn := by
  show cn * 2 / 1 = 2 * cn
  omega

theorem fatofs_fat32 (cn : Nat) : FatType.fat32.fatofs cn = 4 * cn := by
  show cn * 4 / 1 = 4 * cn
  omega

theorem FatType.fatofs_step {t : FatType} {m r cn : Nat} (hr : r ≠ 0)
    (h : t.fatmult * m + r = t.fatofs (cn + 1)) : t.fatmult * m ≤ t.fatofs cn := by
  cases t with
  | fat12 =>
    simp only [FatType.fatmult] at h ⊢
    obtain ⟨k, rfl | rfl⟩ : ∃ k, cn = 2 * k ∨ cn = 2 * k + 1 := ⟨cn / 2, by omega⟩
    · rw [fatofs_odd] at h
      rw [fatofs_even]
      omega
    · have hk : 2 * k + 1 + 1 = 2 * (k + 1) := by omega
      rw [hk, fatofs_even] at h
      rw [fatofs_odd]
      omega
  | fat16 =>
    simp only [FatType.fatmult, fatofs_fat16] at h ⊢
    omega
  | fat32 =>
    simp only [FatType.fatmult, fatofs_fat32] at h ⊢
    omega

theorem entry_even (b : Bytes) (k : Nat) :
    FatType.fat12.entry b (2 * k) = getushort b (3 * k) % 4096 := by
  show FatType.fat12.getEntry b (FatType.fat12.fatofs (2 * k)) (2 * k) = _
  rw [fatofs_even]
  exact if_neg (by omega)

theorem entry_odd (b : Bytes) (k : Nat) :
    FatType.fat12.entry b (2 * k + 1) = getushort b (3 * k + 1) / 16 := by
  show FatType.fat12.getEntry b (FatType.fat12.fatofs (2 * k + 1)) (2 * k + 1) = _
  rw [fatofs_odd]
  have hlt := getushort_lt b (3 * k + 1)
  exact (if_pos (by omega)).trans (Nat.mod_eq_of_lt (by omega))

theorem setEntry_even (b : Bytes) (k new : Nat) :
    FatType.fat12.setEntry b (2 * k) new =
      putushort b (3 * k) (getushort b (3 * k) / 4096 * 4096 + new % 4096) := by
  show FatType.fat12.putEntry b (FatType.fat12.fatofs (2 * k)) (2 * k) new = _
  rw [fatofs_even]
  exact if_neg (by omega)

theorem setEntry_odd (b : Bytes) (k new : Nat) :
    FatType.fat12.setEntry b (2 * k + 1) new =
      putushort b (3 * k + 1) (getushort b (3 * k + 1) % 16 + new * 16) := by
  show FatType.fat12.putEntry b (FatType.fat12.fatofs (2 * k + 1)) (2 * k + 1) new = _
  rw [fatofs_odd]
  exact if_pos (by omega)

theorem FatType.entry_setEntry_same (t : FatType) (b : Bytes) (cn new : Nat) :
    t.entry (t.setEntry b cn new) cn = new % (t.fatmask + 1) := by
  cases t with
  | fat12 =>
    obtain ⟨k, rfl | rfl⟩ : ∃ k, cn = 2 * k ∨ cn = 2 * k + 1 := ⟨cn / 2, by omega⟩
    · rw [entry_even, setEntry_even, getushort_putushort_same]
      show _ = new % 4096
      omega
    · rw [entry_odd, setEntry_odd, getushort_putushort_same]
      show _ = new % 4096
      omega
  | fat16 =>
    show getushort (putushort b _ new) _ % 65536 = new % 65536
    rw [getushort_putushort_same, Nat.mod_mod]
  | fat32 =>
    show getulong (putulong b _ _) _ % 0x10000000 = new % 0x10000000
    rw [getulong_putulong_same]
    omega

theorem getushort_next (b : Bytes) (p : Nat) : getushort b (p + 1) % 256 = getushort b p / 256 := by
  have h0 := byte_lt (b p)
  have h1 := byte_lt (b (p + 1))
  unfold getushort
  omega

theorem getushort_shared (b : Bytes) (p v : Nat) :
    getushort (putushort b p v) (p + 1) = v / 256 % 256 + getushort b (p + 1) / 256 * 256 ∧
      getushort (putushort b (p + 1) v) p = getushort b p % 256 + v % 256 * 256 := by
  have h0 := byte_lt (b p)
  have h1 := byte_lt (b (p + 1))
  have h2 := byte_lt (b (p + 1 + 1))
  unfold getushort putushort
  constructor
  · rw [if_neg (by omega), if_pos rfl, if_neg (by omega), if_neg (by omega), toNat_byte]
    omega
  · rw [if_neg (by omega), if_neg (by omega), if_pos rfl, toNat_byte]
    omega

theorem FatType.entry_setEntry_other (t : FatType) (b : Bytes) {cn cn' : Nat} (new : Nat)
    (hne : cn' ≠ cn) : t.entry (t.setEntry b cn new) cn' = t.entry b cn' := by
  cases t with
  | fat12 =>
    obtain ⟨k, rfl | rfl⟩ : ∃ k, cn = 2 * k ∨ cn = 2 * k + 1 := ⟨cn / 2, by omega⟩ <;>
      obtain ⟨k', rfl | rfl⟩ : ∃ k, cn' = 2 * k ∨ cn' = 2 * k + 1 := ⟨cn' / 2, by omega⟩
    · rw [entry_even, entry_even, setEntry_even, getushort_putushort_apart _ _ (by omega)]
    · rw [entry_odd, entry_odd, setEntry_even]
      by_cases hk : k' = k
      · subst hk
        -- the low nibble of the shared byte is the only part that changes
        have hb := getushort_lt b (3 * k')
        have hsh := getushort_next b (3 * k')
        rw [(getushort_shared b (3 * k') _).1]
        omega
      · rw [getushort_putushort_apart _ _ (by omega)]
    · rw [entry_even, entry_even, setEntry_odd]
      by_cases hk : k' = k
      · subst hk
        have hb := getushort_lt b (3 * k')
        have hsh := getushort_next b (3 * k')
        rw [(getushort_shared b (3 * k') _).2]
        omega
      · rw [getushort_putushort_apart _ _ (by omega)]
    · rw [entry_odd, entry_odd, setEntry_odd, getushort_putushort_apart _ _ (by omega)]
  | fat16 =>
    show getushort (putushort b _ _) _ % 65536 = getushort b _ % 65536
    rw [fatofs_fat16, fatofs_fat16, getushort_putushort_apart _ _ (by omega)]
  | fat32 =>
    show getulong (putulong b _ _) _ % 0x10000000 = getulong b _ % 0x10000000
    rw [fatofs_fat32, fatofs_fat32, getulong_putulong_apart _ _ (by omega)]

end OpenBsd.Msdosfs
