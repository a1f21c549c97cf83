/-
  OpenBsd.Disk

  The disk every program of this development looks at: `size` sectors of `secsize`
  bytes, a positive multiple of `DEV_BSIZE`.  All programs transfer whole sectors, so the
  content is a function from sector numbers.

  A `Block` is a `char buf[DEV_BSIZE]`.  `write` replaces the first `DEV_BSIZE` bytes of a
  sector and leaves the rest, as gdisk does on disks with large sectors.
-/

import Mathlib.Data.List.Nodup
import Mathlib.Tactic.Ring

namespace OpenBsd

open List

def devBsize : Nat := 512

theorem devBsize_pos : 0 < devBsize := by decide

/-! ## Blocks -/

/-- `memcpy(buf + off, src, len)` into a buffer of fixed size. -/
def overlay {α : Type} (buf : List α) (off : Nat) (src : List α) : List α :=
  (buf.take off ++ src ++ buf.drop (off + src.length)).take buf.length

theorem length_overlay {α : Type} (buf : List α) (off : Nat) (src : List α) :
    (overlay buf off src).length = buf.length := by
  simp only [overlay, length_take, length_append, length_drop]
  omega

theorem overlay_append {α : Type} (a b src : List α) (hb : src.length ≤ b.length) :
    overlay (a ++ b) a.length src = a ++ src ++ b.drop src.length := by
  have htake : (a ++ b).take a.length = a := take_left
  have hdrop : (a ++ b).drop (a.length + src.length) = b.drop src.length := by
    rw [← List.drop_drop, drop_left]
  rw [overlay, htake, hdrop]
  apply take_of_length_le
  simp only [length_append, length_drop]
  omega

/-- A `char buf[DEV_BSIZE]`. -/
abbrev Block := { b : List UInt8 // b.length = devBsize }

namespace Block

/-- `memset(buf, 0, DEV_BSIZE)` -/
def zero : Block := ⟨List.replicate devBsize 0, List.length_replicate⟩

/-- `memcpy(buf + off, src, ..)` -/
def memcpy (b : Block) (off : Nat) (src : List UInt8) : Block :=
  ⟨overlay b.val off src, by rw [length_overlay, b.property]⟩

/-- A block that starts with `bs` and is zero behind them. -/
def ofBytes (bs : List UInt8) : Block :=
  ⟨(bs ++ List.replicate devBsize 0).take devBsize, by simp⟩

theorem ofBytes_val {bs : List UInt8} (h : bs.length ≤ devBsize) :
    (ofBytes bs).val = bs ++ List.replicate (devBsize - bs.length) 0 := by
  show (bs ++ List.replicate devBsize 0).take devBsize = _
  rw [take_append, take_of_length_le h, take_replicate, Nat.min_eq_left (Nat.sub_le ..)]

theorem ofBytes_nil : ofBytes [] = zero :=
  Subtype.ext (by rw [ofBytes_val (by simp)]; rfl)

theorem memcpy_ofBytes {bs src : List UInt8} (h : bs.length + src.length ≤ devBsize) :
    (ofBytes bs).memcpy bs.length src = ofBytes (bs ++ src) := by
  apply Subtype.ext
  have hlen : (bs ++ src).length ≤ devBsize := by rw [length_append]; exact h
  simp only [memcpy]
  rw [ofBytes_val (by omega), ofBytes_val hlen,
    overlay_append _ _ _ (by rw [length_replicate]; omega), drop_replicate, length_append]
  congr 2
  omega

end Block

/-! ## Disks -/

/-- A disk of `size` sectors of `secsize` bytes.  `size` is what `DL_GETDSIZE`
    can express. -/
structure Disk where
  secsize : Nat
  size : Nat
  sector : Nat → List UInt8
  secsize_pos : 0 < secsize
  secsize_dvd : devBsize ∣ secsize
  size_lt : size < 2 ^ 48
  length_sector : ∀ lba, (sector lba).length = secsize

namespace Disk

theorem devBsize_le (d : Disk) : devBsize ≤ d.secsize :=
  Nat.le_of_dvd d.secsize_pos d.secsize_dvd

/-- The first `DEV_BSIZE` bytes of a sector. -/
def block (d : Disk) (lba : Nat) : Block :=
  ⟨(d.sector lba).take devBsize, by
    rw [List.length_take, d.length_sector]
    exact Nat.min_eq_left d.devBsize_le⟩

/-- Replace the first `DEV_BSIZE` bytes of sector `lba`. -/
def write (d : Disk) (lba : Nat) (b : Block) : Disk :=
  { d with
    sector := Function.update d.sector lba (b.val ++ (d.sector lba).drop devBsize)
    length_sector := by
      intro l
      by_cases hl : l = lba
      · subst hl
        rw [Function.update_self, List.length_append, b.property, List.length_drop, d.length_sector]
        have := d.devBsize_le
        omega
      · rw [Function.update_of_ne hl, d.length_sector] }

@[simp] theorem write_size (d : Disk) (lba : Nat) (b : Block) :
    (d.write lba b).size = d.size := rfl

@[simp] theorem write_secsize (d : Disk) (lba : Nat) (b : Block) :
    (d.write lba b).secsize = d.secsize := rfl

theorem sector_write_self (d : Disk) (lba : Nat) (b : Block) :
    (d.write lba b).sector lba = b.val ++ (d.sector lba).drop devBsize :=
  Function.update_self ..

theorem sector_write_ne (d : Disk) {lba l : Nat} (b : Block) (h : l ≠ lba) :
    (d.write lba b).sector l = d.sector l :=
  Function.update_of_ne h ..

theorem block_eq_of_sector_eq {d d' : Disk} {lba : Nat} (h : d.sector lba = d'.sector lba) :
    d.block lba = d'.block lba :=
  Subtype.ext (by simp only [block, h])

/-- The sectors written by a list of block writes, oldest first. -/
def writeAll (d : Disk) (ws : List (Nat × Block)) : Disk :=
  ws.foldl (fun d w => d.write w.1 w.2) d

@[simp] theorem writeAll_nil (d : Disk) : d.writeAll [] = d := rfl

@[simp] theorem writeAll_cons (d : Disk) (w : Nat × Block) (ws : List (Nat × Block)) :
    d.writeAll (w :: ws) = (d.write w.1 w.2).writeAll ws := rfl

@[simp] theorem writeAll_size (d : Disk) (ws : List (Nat × Block)) :
    (d.writeAll ws).size = d.size := by
  induction ws generalizing d with
  | nil => rfl
  | cons w ws ih => rw [writeAll_cons, ih, write_size]

@[simp] theorem writeAll_secsize (d : Disk) (ws : List (Nat × Block)) :
    (d.writeAll ws).secsize = d.secsize := by
  induction ws generalizing d with
  | nil => rfl
  | cons w ws ih => rw [writeAll_cons, ih, write_secsize]

theorem sector_writeAll_of_notMem (d : Disk) (ws : List (Nat × Block)) {lba : Nat}
    (h : lba ∉ ws.map Prod.fst) : (d.writeAll ws).sector lba = d.sector lba := by
  induction ws generalizing d with
  | nil => rfl
  | cons w ws ih =>
    simp only [map_cons, mem_cons, not_or] at h
    rw [writeAll_cons, ih _ h.2, sector_write_ne _ _ h.1]

theorem sector_writeAll_of_mem (d : Disk) {ws : List (Nat × Block)} {lba : Nat} {b : Block}
    (hmem : (lba, b) ∈ ws) (hnd : (ws.map Prod.fst).Nodup) :
    (d.writeAll ws).sector lba = b.val ++ (d.sector lba).drop devBsize := by
  induction ws generalizing d with
  | nil => exact absurd hmem not_mem_nil
  | cons w ws ih =>
    rw [map_cons, nodup_cons] at hnd
    rw [writeAll_cons]
    rcases mem_cons.mp hmem with rfl | hmem
    · rw [sector_writeAll_of_notMem _ _ hnd.1, sector_write_self]
    · have hne : lba ≠ w.1 := by
        rintro rfl
        exact hnd.1 (mem_map.mpr ⟨_, hmem, rfl⟩)
      rw [ih _ hmem hnd.2, sector_write_ne _ _ hne]

theorem block_writeAll_of_notMem (d : Disk) (ws : List (Nat × Block)) {lba : Nat}
    (h : lba ∉ ws.map Prod.fst) : (d.writeAll ws).block lba = d.block lba :=
  block_eq_of_sector_eq (sector_writeAll_of_notMem d ws h)

theorem block_writeAll_of_mem (d : Disk) {ws : List (Nat × Block)} {lba : Nat} {b : Block}
    (hmem : (lba, b) ∈ ws) (hnd : (ws.map Prod.fst).Nodup) :
    (d.writeAll ws).block lba = b := by
  apply Subtype.ext
  simp only [block]
  rw [sector_writeAll_of_mem d hmem hnd, take_left' b.property]

end Disk

end OpenBsd
