/-
  OpenBsd.Dev.SoftraidStrip

  What `sr_raid5_rw` and `sr_raid6_rw` of `sys/dev` share: an I/O is cut at the ends of strips,
  and work units of reads and writes of chunks.

  The sectors of a chunk are numbered from the start of its data.  A sector is 512 bytes, and
  exclusive or is the addition of bytes.
-/

import OpenBsd.Lib.XorWord
import Mathlib.Data.List.GetD
import Mathlib.Tactic.Ring

namespace OpenBsd.Dev

open OpenBsd.Lib List

/-- A sector. -/
abbrev Block := Fin 512 → XorWord 8

theorem Block.add_self (x : Block) : x + x = 0 := funext fun i => XorWord.add_self (x i)

def devBshift : Nat := 9

/-- What the chunks hold. -/
abbrev Chunks := Nat → Nat → Block

/-- The sectors that a read of a chunk gives. -/
def readChunk (m : Chunks) (chunk blkno n : Nat) : List Block :=
  (List.range n).map fun i => m chunk (blkno + i)

/-- `sr_raid5_xor` and `sr_raid6_xorp`. -/
def xorBuf (a b : List Block) : List Block := List.zipWith (· + ·) a b

theorem eq_map_range (data : List Block) :
    data = (List.range data.length).map fun i => data.getD i 0 := by
  apply ext_getElem
  · simp
  · intro i h _
    simp [getElem_map, h]

theorem xorBuf_map (f g : Nat → Block) (n : Nat) :
    xorBuf ((List.range n).map f) ((List.range n).map g) = (List.range n).map fun i => f i + g i := by
  simp [xorBuf, zipWith_map, zipWith_self]

theorem foldl_xorBuf (m : Chunks) (blkno n : Nat) (chunks : List Nat) :
    ∀ f : Nat → Block,
      chunks.foldl (fun buf i => xorBuf buf (readChunk m i blkno n)) ((List.range n).map f) =
        (List.range n).map fun j => f j + (chunks.map fun i => m i (blkno + j)).sum := by
  induction chunks with
  | nil => simp
  | cons c chunks ih =>
    intro f
    rw [foldl_cons, readChunk, xorBuf_map, ih]
    simp [add_assoc]

theorem foldl_xorBuf_data (m : Chunks) (blkno : Nat) (chunks : List Nat) (data : List Block) :
    chunks.foldl (fun buf i => xorBuf buf (readChunk m i blkno data.length)) data =
      (List.range data.length).map fun j =>
        data.getD j 0 + (chunks.map fun i => m i (blkno + j)).sum := by
  have h := foldl_xorBuf m blkno data.length chunks fun i => data.getD i 0
  rwa [← eq_map_range] at h

theorem sum_filter_range (n : Nat) (p : Nat → Bool) (f : Nat → Block) :
    (((List.range n).filter p).map f).sum = ∑ i ∈ (Finset.range n).filter (p · = true), f i := by
  rw [← sum_toFinset f (nodup_range.filter p), toFinset_filter, toFinset_range]

/-- The chunks but two. -/
def rest (n chunk parity : Nat) : Finset Nat :=
  (Finset.range n).filter fun i => i ≠ chunk ∧ i ≠ parity

/-! ## Chunks -/

/-- `BIOC_SD*` of `dev/biovar.h`. -/
inductive ScmStatus where
  | sdOnline
  | sdOffline
  | sdFailed
  | sdRebuild
  | sdHotspare
  | sdUnused
  | sdScrub
  | sdInvalid
  deriving DecidableEq

theorem countP_range_ge {p : Nat → Bool} {n : Nat} (but : List Nat)
    (h : ∀ i < n, i ∉ but → p i = true) : n ≤ (List.range n).countP p + but.length := by
  have hlen := length_eq_countP_add_countP p (l := List.range n)
  have hsub : ((List.range n).filter fun i => ! p i) ⊆ but := by
    intro i hi
    obtain ⟨hlt, hnot⟩ := mem_filter.mp hi
    by_contra hne
    rw [h i (mem_range.mp hlt) hne] at hnot
    cases hnot
  have hle := ((nodup_range.filter _).subperm hsub).length_le
  rw [← countP_eq_length_filter] at hle
  rw [length_range] at hlen
  simp only [Bool.not_eq_true, Bool.decide_eq_false] at hlen
  omega

/-- `sr_validate_io` on a volume of `ssdSize` sectors, for `n` sectors from `blkno` on. -/
def srValidateIo (svOffline : Bool) (ssdSize blkno n : Nat) : Bool :=
  if svOffline then false
  else if n = 0 then false
  else
    let swuBlkEnd := blkno + n - 1
    ! decide (swuBlkEnd > ssdSize)

/-! ## Writes -/

/-- A write in a work unit. -/
structure WriteCcb where
  chunk : Nat
  blkno : Nat
  data : List Block

def WriteCcb.Hits (ccb : WriteCcb) (chunk lba : Nat) : Prop :=
  chunk = ccb.chunk ∧ ccb.blkno ≤ lba ∧ lba < ccb.blkno + ccb.data.length

instance (ccb : WriteCcb) (chunk lba : Nat) : Decidable (ccb.Hits chunk lba) :=
  inferInstanceAs (Decidable (_ ∧ _ ∧ _))

def WriteCcb.run (m : Chunks) (ccb : WriteCcb) : Chunks := fun chunk lba =>
  if ccb.Hits chunk lba then ccb.data.getD (lba - ccb.blkno) 0 else m chunk lba

/-- A work unit of writes. -/
def runWrites (m : Chunks) (ccbs : List WriteCcb) : Chunks := ccbs.foldl WriteCcb.run m

/-- All that is written is what `T` says. -/
def WriteCcb.Right (T : Chunks) (ccb : WriteCcb) : Prop :=
  ∀ i (h : i < ccb.data.length), ccb.data.get ⟨i, h⟩ = T ccb.chunk (ccb.blkno + i)

theorem right_map {T : Chunks} {chunk lba n : Nat} {f : Nat → Block}
    (h : ∀ i < n, T chunk (lba + i) = f i) :
    WriteCcb.Right T ⟨chunk, lba, (List.range n).map f⟩ := by
  intro i hi
  have hi' : i < n := by simpa using hi
  rw [h i hi']
  simp

theorem WriteCcb.Right.run {T m : Chunks} {ccb : WriteCcb} (h : ccb.Right T) (chunk lba : Nat) :
    ccb.run m chunk lba = if ccb.Hits chunk lba then T chunk lba else m chunk lba := by
  unfold WriteCcb.run
  by_cases hhit : ccb.Hits chunk lba
  · rw [if_pos hhit, if_pos hhit]
    obtain ⟨rfl, hlo, hhi⟩ := hhit
    have hlt : lba - ccb.blkno < ccb.data.length := by omega
    have hval := h (lba - ccb.blkno) hlt
    rw [Nat.add_sub_cancel' hlo] at hval
    rw [← hval]
    exact getD_eq_getElem _ _ hlt
  · rw [if_neg hhit, if_neg hhit]

theorem runWrites_right {T : Chunks} {ccbs : List WriteCcb} (h : ∀ ccb ∈ ccbs, ccb.Right T) :
    ∀ (m : Chunks) (chunk lba : Nat), runWrites m ccbs chunk lba =
      if ∃ ccb ∈ ccbs, ccb.Hits chunk lba then T chunk lba else m chunk lba := by
  induction ccbs with
  | nil =>
    intro m chunk lba
    rw [if_neg (by simp)]
    rfl
  | cons ccb ccbs ih =>
    intro m chunk lba
    show runWrites (ccb.run m) ccbs chunk lba = _
    rw [ih (fun c hc => h c (mem_cons_of_mem _ hc)), (h ccb mem_cons_self).run]
    by_cases hrest : ∃ c ∈ ccbs, c.Hits chunk lba
    · obtain ⟨c, hc, hhit⟩ := hrest
      rw [if_pos ⟨c, hc, hhit⟩, if_pos ⟨c, mem_cons_of_mem _ hc, hhit⟩]
    · rw [if_neg hrest]
      by_cases hhit : ccb.Hits chunk lba
      · rw [if_pos hhit, if_pos ⟨ccb, mem_cons_self, hhit⟩]
      · rw [if_neg hhit, if_neg]
        rintro ⟨c, hc, hc'⟩
        rcases mem_cons.mp hc with rfl | hc
        · exact hhit hc'
        · exact hrest ⟨c, hc, hc'⟩

/-! ## Strips -/

/-- One turn of the loop over an I/O: the strip, the place in the chunk and the length in
    bytes. -/
structure Strip where
  stripNo : Nat
  lba : Nat
  length : Nat

def stripAt (stripBits noChunk lbaoffs datalen : Nat) : Strip :=
  let stripSize := 2 ^ stripBits
  let stripNo := lbaoffs >>> stripBits
  let stripOffs := lbaoffs &&& (stripSize - 1)
  let chunkOffs := (stripNo / noChunk) <<< stripBits
  let offset := chunkOffs + stripOffs
  { stripNo := stripNo
    lba := offset >>> devBshift
    length := min (stripSize - stripOffs) datalen }

/-- The loop, which takes at least a byte in each turn. -/
def strips (stripBits noChunk : Nat) : Nat → Nat → Nat → List Strip
  | 0, _, _ => []
  | fuel + 1, lbaoffs, datalen =>
    if datalen = 0 then []
    else
      let strip := stripAt stripBits noChunk lbaoffs datalen
      strip :: strips stripBits noChunk fuel (lbaoffs + strip.length) (datalen - strip.length)

/-- The strips of `n` sectors from `blkno` on. -/
def ioStrips (stripBits noChunk blkno n : Nat) : List Strip :=
  strips stripBits noChunk (n <<< devBshift) (blkno <<< devBshift) (n <<< devBshift)

/-! ## Sectors of the volume -/

/-- How strips of `strip` sectors are laid out in rows of `cols` columns. -/
structure Layout where
  strip : Nat
  cols : Nat
  strip_pos : 0 < strip
  cols_pos : 0 < cols

namespace Layout

variable (l : Layout)

def row (b : Nat) : Nat := b / l.strip / l.cols

def col (b : Nat) : Nat := b / l.strip % l.cols

/-- The sector of the chunk. -/
def lba (b : Nat) : Nat := l.row b * l.strip + b % l.strip

/-- The sector of the volume in a column, next to a sector of a chunk. -/
def block (lba col : Nat) : Nat := (lba / l.strip * l.cols + col) * l.strip + lba % l.strip

variable {l}

theorem lba_div (b : Nat) : l.lba b / l.strip = l.row b := by
  unfold lba
  rw [Nat.mul_comm, Nat.mul_add_div l.strip_pos, Nat.div_eq_of_lt (Nat.mod_lt _ l.strip_pos),
    Nat.add_zero]

theorem lba_mod (b : Nat) : l.lba b % l.strip = b % l.strip := by
  unfold lba
  rw [Nat.mul_comm, Nat.mul_add_mod, Nat.mod_mod]

theorem block_lba (b : Nat) : l.block (l.lba b) (l.col b) = b := by
  unfold block
  rw [lba_div, lba_mod]
  unfold row col
  rw [Nat.mul_comm (b / l.strip / l.cols), Nat.div_add_mod, Nat.mul_comm, Nat.div_add_mod]

theorem lba_block {lba col : Nat} (hcol : col < l.cols) : l.lba (l.block lba col) = lba := by
  have hoff := Nat.mod_lt lba l.strip_pos
  have hdiv : l.block lba col / l.strip = lba / l.strip * l.cols + col := by
    unfold block
    rw [Nat.mul_comm, Nat.mul_add_div l.strip_pos, Nat.div_eq_of_lt hoff, Nat.add_zero]
  have hmod : l.block lba col % l.strip = lba % l.strip := by
    unfold block
    rw [Nat.mul_comm, Nat.mul_add_mod, Nat.mod_mod]
  unfold Layout.lba row
  rw [hdiv, hmod, Nat.mul_comm (lba / l.strip), Nat.mul_add_div l.cols_pos,
    Nat.div_eq_of_lt hcol, Nat.add_zero, Nat.mul_comm, Nat.div_add_mod]

theorem col_block {lba col : Nat} (hcol : col < l.cols) : l.col (l.block lba col) = col := by
  have hoff := Nat.mod_lt lba l.strip_pos
  have hdiv : l.block lba col / l.strip = lba / l.strip * l.cols + col := by
    unfold block
    rw [Nat.mul_comm, Nat.mul_add_div l.strip_pos, Nat.div_eq_of_lt hoff, Nat.add_zero]
  unfold Layout.col
  rw [hdiv, Nat.mul_comm, Nat.mul_add_mod, Nat.mod_eq_of_lt hcol]

theorem row_block {lba col : Nat} (hcol : col < l.cols) :
    l.row (l.block lba col) = lba / l.strip := by
  rw [← lba_div, lba_block hcol]

theorem eq_of_lba_eq {b b' : Nat} (h : l.lba b = l.lba b') (hlt : b < b' + l.strip)
    (hgt : b' < b + l.strip) : b = b' := by
  have hrow : l.row b = l.row b' := by rw [← lba_div, h, lba_div]
  have hoff : b % l.strip = b' % l.strip := by rw [← lba_mod, h, lba_mod]
  have hb := Nat.div_add_mod b l.strip
  have hb' := Nat.div_add_mod b' l.strip
  have hdiv : b / l.strip = b' / l.strip := by
    rcases Nat.lt_trichotomy (b / l.strip) (b' / l.strip) with hlt' | heq | hgt'
    · have hmul := Nat.mul_le_mul_left l.strip hlt'
      rw [Nat.mul_succ] at hmul
      omega
    · exact heq
    · have hmul := Nat.mul_le_mul_left l.strip hgt'
      rw [Nat.mul_succ] at hmul
      omega
  rw [← hb, ← hb', hdiv, hoff]

end Layout

/-- The strips are those of the `k` sectors from `b` on, each within one strip. -/
inductive Covers (l : Layout) : Nat → Nat → List Strip → Prop where
  | nil (b : Nat) : Covers l b 0 []
  | cons {b k j : Nat} {strip : Strip} {rest : List Strip} : 0 < j → j ≤ k →
      strip.length >>> devBshift = j → strip.stripNo = b / l.strip → strip.lba = l.lba b →
      b % l.strip + j ≤ l.strip → Covers l (b + j) (k - j) rest → Covers l b k (strip :: rest)

theorem Layout.within {l : Layout} {b j i : Nat} (hfit : b % l.strip + j ≤ l.strip) (hi : i < j) :
    (b + i) / l.strip = b / l.strip ∧ l.lba (b + i) = l.lba b + i ∧ l.col (b + i) = l.col b := by
  have hb : b + i = l.strip * (b / l.strip) + (b % l.strip + i) := by
    rw [← Nat.add_assoc, Nat.div_add_mod]
  have hlt : b % l.strip + i < l.strip := by omega
  have hdiv : (b + i) / l.strip = b / l.strip := by
    rw [hb, Nat.mul_add_div l.strip_pos, Nat.div_eq_of_lt hlt, Nat.add_zero]
  have hmod : (b + i) % l.strip = b % l.strip + i := by
    rw [hb, Nat.mul_add_mod, Nat.mod_eq_of_lt hlt]
  refine ⟨hdiv, ?_, ?_⟩
  · unfold Layout.lba Layout.row
    rw [hdiv, hmod, Nat.add_assoc]
  · unfold Layout.col
    rw [hdiv]

/-- The layout of strips of `2 ^ stripBits` bytes. -/
def stripLayout (stripBits noChunk : Nat) (hcols : 0 < noChunk) : Layout where
  strip := 2 ^ (stripBits - devBshift)
  cols := noChunk
  strip_pos := Nat.two_pow_pos _
  cols_pos := hcols

@[simp] theorem stripLayout_strip (stripBits noChunk : Nat) (hcols : 0 < noChunk) :
    (stripLayout stripBits noChunk hcols).strip = 2 ^ (stripBits - devBshift) := rfl

/-- The turns of the loop cover the I/O. -/
theorem strips_covers {stripBits noChunk : Nat} (hcols : 0 < noChunk) (hbits : devBshift ≤ stripBits) :
    ∀ {fuel b k : Nat}, k <<< devBshift ≤ fuel →
      Covers (stripLayout stripBits noChunk hcols) b k
        (strips stripBits noChunk fuel (b <<< devBshift) (k <<< devBshift)) := by
  have hsize : 2 ^ stripBits = 2 ^ (stripBits - devBshift) * 512 := by
    have h512 : 512 = 2 ^ devBshift := rfl
    rw [h512, ← Nat.pow_add, Nat.sub_add_cancel hbits]
  have hshift : ∀ x, x <<< devBshift = x * 512 := fun x => Nat.shiftLeft_eq x 9
  intro fuel
  induction fuel with
  | zero =>
    intro b k hk
    rw [hshift] at hk
    have hzero : k = 0 := by omega
    subst hzero
    exact Covers.nil b
  | succ fuel ih =>
    intro b k hk
    unfold strips
    by_cases hzero : k = 0
    · subst hzero
      rw [if_pos (Nat.zero_shiftLeft _)]
      exact Covers.nil b
    · rw [hshift] at hk
      have hpos : 0 < 2 ^ (stripBits - devBshift) := Nat.two_pow_pos _
      have hlt := Nat.mod_lt b hpos
      -- everything is a multiple of 512
      have hno : (b <<< devBshift) >>> stripBits = b / 2 ^ (stripBits - devBshift) := by
        rw [hshift, Nat.shiftRight_eq_div_pow, hsize, Nat.mul_div_mul_right _ _ (by decide)]
      have hoffs : (b <<< devBshift) &&& (2 ^ stripBits - 1) =
          b % 2 ^ (stripBits - devBshift) * 512 := by
        rw [Nat.and_two_pow_sub_one_eq_mod, hshift, hsize, Nat.mul_mod_mul_right]
      have hlen : (stripAt stripBits noChunk (b <<< devBshift) (k <<< devBshift)).length =
          min (2 ^ (stripBits - devBshift) - b % 2 ^ (stripBits - devBshift)) k * 512 := by
        show min (2 ^ stripBits - ((b <<< devBshift) &&& (2 ^ stripBits - 1))) (k <<< devBshift) = _
        rw [hoffs, hshift, hsize, ← Nat.sub_mul, Nat.mul_min_mul_right]
      have hlba : (stripAt stripBits noChunk (b <<< devBshift) (k <<< devBshift)).lba =
          (stripLayout stripBits noChunk hcols).lba b := by
        show (((b <<< devBshift) >>> stripBits / noChunk) <<< stripBits +
          ((b <<< devBshift) &&& (2 ^ stripBits - 1))) >>> devBshift = _
        rw [hno, hoffs, Nat.shiftLeft_eq, hsize, ← Nat.mul_assoc, ← Nat.add_mul,
          Nat.shiftRight_eq_div_pow]
        exact Nat.mul_div_cancel _ (by decide)
      have hj : min (2 ^ (stripBits - devBshift) - b % 2 ^ (stripBits - devBshift)) k ≤ k :=
        Nat.min_le_right _ _
      have hj0 : 0 < min (2 ^ (stripBits - devBshift) - b % 2 ^ (stripBits - devBshift)) k :=
        Nat.lt_min.mpr ⟨by omega, by omega⟩
      have hfit : b % 2 ^ (stripBits - devBshift) +
          min (2 ^ (stripBits - devBshift) - b % 2 ^ (stripBits - devBshift)) k ≤
            2 ^ (stripBits - devBshift) := by
        have hle := Nat.min_le_left (2 ^ (stripBits - devBshift) - b % 2 ^ (stripBits - devBshift)) k
        omega
      generalize min (2 ^ (stripBits - devBshift) - b % 2 ^ (stripBits - devBshift)) k = j at *
      rw [if_neg (by rw [hshift]; omega)]
      dsimp only
      have hnext : b <<< devBshift +
          (stripAt stripBits noChunk (b <<< devBshift) (k <<< devBshift)).length =
            (b + j) <<< devBshift := by
        rw [hlen, hshift, hshift, Nat.add_mul]
      have hleft : k <<< devBshift -
          (stripAt stripBits noChunk (b <<< devBshift) (k <<< devBshift)).length =
            (k - j) <<< devBshift := by
        rw [hlen, hshift, hshift, Nat.sub_mul]
      rw [hnext, hleft]
      apply Covers.cons hj0 hj
      · rw [hlen, Nat.shiftRight_eq_div_pow]
        exact Nat.mul_div_cancel j (by decide)
      · exact hno
      · exact hlba
      · rw [stripLayout_strip]
        exact hfit
      · apply ih
        rw [hshift]
        exact Nat.le_of_lt_succ (lt_of_lt_of_le (Nat.mul_lt_mul_of_pos_right
          (Nat.sub_lt (Nat.lt_of_lt_of_le hj0 hj) hj0) (by decide)) hk)

/-! ## The disk -/

abbrev Disk := Nat → Block

def Disk.write (disk : Disk) (blkno : Nat) (data : List Block) : Disk := fun b =>
  if blkno ≤ b ∧ b < blkno + data.length then data.getD (b - blkno) 0 else disk b

/-- What a disk in place of the volume holds after some steps. -/
def Disk.after {ε : Type} (written : ε → Option (Nat × List Block)) (disk : Disk) : List ε → Disk
  | [] => disk
  | e :: es =>
    match written e with
    | some (blkno, data) => Disk.after written (disk.write blkno data) es
    | none => Disk.after written disk es

theorem Disk.after_cons {ε : Type} (written : ε → Option (Nat × List Block)) (disk : Disk) (e : ε)
    (es : List ε) : disk.after written (e :: es) = (disk.after written [e]).after written es := by
  simp only [Disk.after]
  cases written e <;> rfl

theorem Disk.write_out {disk : Disk} {blkno b : Nat} {data : List Block}
    (h : ¬(blkno ≤ b ∧ b < blkno + data.length)) : disk.write blkno data b = disk b := if_neg h

theorem Disk.write_in {disk : Disk} {blkno i : Nat} {data : List Block} (h : i < data.length) :
    disk.write blkno data (blkno + i) = data.get ⟨i, h⟩ := by
  unfold Disk.write
  rw [if_pos ⟨by omega, by omega⟩, Nat.add_sub_cancel_left]
  exact getD_eq_getElem _ _ h

section

variable {l : Layout} {disk : Disk} {blkno col : Nat} {data : List Block}

theorem Layout.write_away {lba : Nat} (hcol : col < l.cols)
    (haway : ∀ b, blkno ≤ b → b < blkno + data.length → l.lba b ≠ lba) :
    disk.write blkno data (l.block lba col) = disk (l.block lba col) := by
  apply Disk.write_out
  rintro ⟨hlo, hhi⟩
  exact haway _ hlo hhi (Layout.lba_block hcol)

theorem Layout.write_other {b : Nat} (hcol : col < l.cols) (hlen : data.length ≤ l.strip)
    (hlo : blkno ≤ b) (hhi : b < blkno + data.length) (hne : col ≠ l.col b) :
    disk.write blkno data (l.block (l.lba b) col) = disk (l.block (l.lba b) col) := by
  apply Disk.write_out
  rintro ⟨hlo', hhi'⟩
  -- two sectors of the write at one sector of the chunks
  have heq : l.block (l.lba b) col = b :=
    Layout.eq_of_lba_eq (Layout.lba_block hcol) (by omega) (by omega)
  have hcol' := @Layout.col_block l (l.lba b) col hcol
  rw [heq] at hcol'
  exact hne hcol'.symm

end

end OpenBsd.Dev
