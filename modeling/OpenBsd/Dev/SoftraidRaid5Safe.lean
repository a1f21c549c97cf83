/-
  OpenBsd.Dev.SoftraidRaid5Safe

  The volume of `OpenBsd.Dev.SoftraidRaid5` is one disk, through a failure and a rebuild.

  Every sector of every chunk has a virtual content, the one that it would have if no chunk had
  failed: the sector of the disk, or the sum of the row.  The chunks that are online have it, and a
  chunk that is being rebuilt has it in the strips behind the loop.
-/

import OpenBsd.Dev.SoftraidRaid5

namespace OpenBsd.Dev

open OpenBsd.Lib List

namespace SrRaid5

variable (sd : SrRaid5)

theorem noChunk_pos : 0 < sd.noChunk := by
  have hge := sd.chunkNo_ge
  unfold noChunk
  omega

theorem chunkNo_eq : sd.chunkNo = sd.noChunk + 1 := by
  have hge := sd.chunkNo_ge
  unfold noChunk
  omega

def layout : Layout := stripLayout sd.stripBits sd.noChunk sd.noChunk_pos

@[simp] theorem layout_strip : sd.layout.strip = sd.stripBlocks := rfl

@[simp] theorem layout_cols : sd.layout.cols = sd.noChunk := rfl

def rowParity (row : Nat) : Nat := sd.noChunk - row % (sd.noChunk + 1)

theorem rowParity_le (row : Nat) : sd.rowParity row ≤ sd.noChunk := Nat.sub_le _ _

theorem chunk_eq (stripNo : Nat) : sd.chunk stripNo =
    skip (sd.rowParity (stripNo / sd.noChunk)) (stripNo % sd.noChunk) := rfl

theorem parity_lt (stripNo : Nat) : sd.parity stripNo < sd.chunkNo := by
  rw [chunkNo_eq]
  exact Nat.lt_succ_of_le (sd.rowParity_le _)

theorem chunk_lt (stripNo : Nat) : sd.chunk stripNo < sd.chunkNo := by
  rw [chunkNo_eq, chunk_eq]
  exact skip_lt (Nat.mod_lt _ sd.noChunk_pos)

theorem chunk_ne_parity (stripNo : Nat) : sd.chunk stripNo ≠ sd.parity stripNo :=
  skip_ne _ _

theorem strip_unique {x y : Nat} (hchunk : sd.chunk x = sd.chunk y)
    (hoffs : sd.chunkOffs x = sd.chunkOffs y) : x = y := by
  have hrow : x / sd.noChunk = y / sd.noChunk := by
    unfold chunkOffs at hoffs
    rw [Nat.shiftLeft_eq, Nat.shiftLeft_eq] at hoffs
    exact Nat.eq_of_mul_eq_mul_right (Nat.two_pow_pos _) hoffs
  have hcol : x % sd.noChunk = y % sd.noChunk := by
    rw [chunk_eq, chunk_eq, hrow] at hchunk
    have h := congrArg (unskip (sd.rowParity (y / sd.noChunk))) hchunk
    rwa [unskip_skip, unskip_skip] at h
  rw [← Nat.div_add_mod x sd.noChunk, ← Nat.div_add_mod y sd.noChunk, hrow, hcol]

/-! ## Virtual contents -/

/-- What the chunks hold when no chunk has failed. -/
def virt (disk : Disk) : Chunks := fun chunk lba =>
  let parity := sd.rowParity (lba / sd.stripBlocks)
  if chunk = parity then ∑ col ∈ Finset.range sd.noChunk, disk (sd.layout.block lba col)
  else disk (sd.layout.block lba (unskip parity chunk))

theorem virt_sum (disk : Disk) (lba : Nat) :
    ∑ chunk ∈ Finset.range sd.chunkNo, sd.virt disk chunk lba = 0 := by
  rw [chunkNo_eq, sum_range_skip (sd.rowParity_le (lba / sd.stripBlocks))]
  have hparity : sd.virt disk (sd.rowParity (lba / sd.stripBlocks)) lba =
      ∑ col ∈ Finset.range sd.noChunk, disk (sd.layout.block lba col) := if_pos rfl
  have hdata : ∀ col, sd.virt disk (skip (sd.rowParity (lba / sd.stripBlocks)) col) lba =
      disk (sd.layout.block lba col) := by
    intro col
    unfold virt
    dsimp only
    rw [if_neg (skip_ne _ _), unskip_skip]
  simp only [hparity, hdata]
  exact Block.add_self _

theorem virt_erase (disk : Disk) (lba : Nat) {chunk : Nat} (h : chunk < sd.chunkNo) :
    ∑ i ∈ (Finset.range sd.chunkNo).erase chunk, sd.virt disk i lba = sd.virt disk chunk lba :=
  sum_erase_self Block.add_self (Finset.mem_range.mpr h) (sd.virt_sum disk lba)

theorem virt_chunk (disk : Disk) (b : Nat) :
    sd.virt disk (sd.chunk (b / sd.stripBlocks)) (sd.layout.lba b) = disk b := by
  have hrow : sd.layout.lba b / sd.stripBlocks = b / sd.stripBlocks / sd.noChunk :=
    sd.layout.lba_div b
  unfold virt
  dsimp only
  rw [hrow, chunk_eq, if_neg (skip_ne _ _), unskip_skip]
  exact congrArg disk (sd.layout.block_lba b)

theorem virt_congr_data {disk disk' : Disk} {chunk lba : Nat} (hchunk : chunk < sd.chunkNo)
    (hdata : chunk ≠ sd.rowParity (lba / sd.stripBlocks))
    (h : ∀ col < sd.noChunk, skip (sd.rowParity (lba / sd.stripBlocks)) col = chunk →
      disk (sd.layout.block lba col) = disk' (sd.layout.block lba col)) :
    sd.virt disk chunk lba = sd.virt disk' chunk lba := by
  unfold virt
  dsimp only
  rw [if_neg hdata, if_neg hdata]
  apply h
  · rw [chunkNo_eq] at hchunk
    exact unskip_lt (sd.rowParity_le _) hchunk hdata
  · exact skip_unskip hdata

theorem virt_congr {disk disk' : Disk} {chunk lba : Nat} (hchunk : chunk < sd.chunkNo)
    (h : ∀ col < sd.noChunk, disk (sd.layout.block lba col) = disk' (sd.layout.block lba col)) :
    sd.virt disk chunk lba = sd.virt disk' chunk lba := by
  by_cases hdata : chunk = sd.rowParity (lba / sd.stripBlocks)
  · unfold virt
    dsimp only
    rw [if_pos hdata, if_pos hdata]
    exact Finset.sum_congr rfl fun col hcol => h col (Finset.mem_range.mp hcol)
  · exact sd.virt_congr_data hchunk hdata fun col hcol _ => h col hcol

end SrRaid5

/-! ## A write to the disk -/

section

variable {sd : SrRaid5} {disk : Disk} {blkno : Nat} {data : List Block}

theorem virt_write_away {chunk lba : Nat} (hchunk : chunk < sd.chunkNo)
    (haway : ∀ b, blkno ≤ b → b < blkno + data.length → sd.layout.lba b ≠ lba) :
    sd.virt (disk.write blkno data) chunk lba = sd.virt disk chunk lba :=
  sd.virt_congr hchunk fun _ hcol => Layout.write_away hcol haway

theorem virt_write_other {chunk b : Nat} (hchunk : chunk < sd.chunkNo)
    (hlen : data.length ≤ sd.stripBlocks) (hlo : blkno ≤ b) (hhi : b < blkno + data.length)
    (hdata : chunk ≠ sd.chunk (b / sd.stripBlocks))
    (hparity : chunk ≠ sd.parity (b / sd.stripBlocks)) :
    sd.virt (disk.write blkno data) chunk (sd.layout.lba b) = sd.virt disk chunk (sd.layout.lba b) := by
  have hrow : sd.layout.lba b / sd.stripBlocks = b / sd.stripBlocks / sd.noChunk :=
    sd.layout.lba_div b
  apply sd.virt_congr_data hchunk
  · rw [hrow]
    exact hparity
  · intro col hcol hskip
    apply Layout.write_other hcol hlen hlo hhi
    intro heq
    rw [hrow, heq] at hskip
    exact hdata hskip.symm

end

/-! ## One strip -/

theorem sum_rest {n chunk parity : Nat} (hchunk : chunk < n) (hparity : parity < n)
    (hne : chunk ≠ parity) (f : Nat → Block) :
    ∑ i ∈ Finset.range n, f i = f chunk + (f parity + ∑ i ∈ rest n chunk parity, f i) := by
  have hrest : rest n chunk parity = ((Finset.range n).erase chunk).erase parity := by
    ext i
    simp only [rest, Finset.mem_filter, Finset.mem_erase, Finset.mem_range]
    tauto
  rw [hrest, Finset.add_sum_erase _ f (Finset.mem_erase.mpr ⟨hne.symm, Finset.mem_range.mpr hparity⟩),
    Finset.add_sum_erase _ f (Finset.mem_range.mpr hchunk)]

/-- A write of a part of a strip, when the contents are `D` before it and to be `T` behind it. -/
structure StripWrite (sd : SrRaid5) (s : Raid5State) (D T : Chunks) (chunk parity lba : Nat)
    (data : List Block) : Prop where
  chunk_lt : chunk < sd.chunkNo
  parity_lt : parity < sd.chunkNo
  ne : chunk ≠ parity
  fresh : ∀ i (h : i < data.length), T chunk (lba + i) = data.get ⟨i, h⟩
  same : ∀ i < data.length, ∀ c < sd.chunkNo, c ≠ chunk → c ≠ parity → T c (lba + i) = D c (lba + i)
  sumD : ∀ i < data.length, ∑ c ∈ Finset.range sd.chunkNo, D c (lba + i) = 0
  sumT : ∀ i < data.length, ∑ c ∈ Finset.range sd.chunkNo, T c (lba + i) = 0
  online : ∀ i < data.length, ∀ c < sd.chunkNo, s.chunkOnline c = true →
    s.chunks c (lba + i) = D c (lba + i)

/-- At most one chunk is not online. -/
def Raid5State.Single (sd : SrRaid5) (s : Raid5State) : Prop :=
  ∃ c, ∀ i < sd.chunkNo, i ≠ c → s.chunkOnline i = true

section

variable {sd : SrRaid5} {s : Raid5State} {D T : Chunks} {chunk parity lba : Nat} {data : List Block}

section

variable (h : StripWrite sd s D T chunk parity lba data)
include h

theorem StripWrite.parity_rest {i : Nat} (hi : i < data.length) :
    T parity (lba + i) = data.getD i 0 + ∑ c ∈ rest sd.chunkNo chunk parity, D c (lba + i) := by
  have hsum := h.sumT i hi
  have hrest : ∑ c ∈ rest sd.chunkNo chunk parity, T c (lba + i) =
      ∑ c ∈ rest sd.chunkNo chunk parity, D c (lba + i) := by
    apply Finset.sum_congr rfl
    intro c hc
    obtain ⟨hlt, hc1, hc2⟩ := Finset.mem_filter.mp hc
    exact h.same i hi c (Finset.mem_range.mp hlt) hc1 hc2
  have hdata : data.getD i 0 = T chunk (lba + i) := by
    rw [h.fresh i hi]
    exact getD_eq_getElem _ _ hi
  rw [sum_rest h.chunk_lt h.parity_lt h.ne, hrest, add_left_comm] at hsum
  rw [hdata]
  exact eq_of_add_eq_zero_self Block.add_self hsum

theorem StripWrite.parity_old {i : Nat} (hi : i < data.length) :
    T parity (lba + i) = data.getD i 0 + D chunk (lba + i) + D parity (lba + i) := by
  have hsum := h.sumD i hi
  rw [sum_rest h.chunk_lt h.parity_lt h.ne, ← add_assoc] at hsum
  rw [h.parity_rest hi, add_assoc, eq_of_add_eq_zero_self Block.add_self hsum]

theorem StripWrite.old_right (hchunk : s.chunkOnline chunk = true)
    (hparity : s.chunkOnline parity = true) :
    WriteCcb.Right T ⟨parity, lba, xorBuf (xorBuf data (readChunk s.chunks chunk lba data.length))
      (readChunk s.chunks parity lba data.length)⟩ := by
  have hbuf : xorBuf (xorBuf data (readChunk s.chunks chunk lba data.length))
      (readChunk s.chunks parity lba data.length) =
        (List.range data.length).map fun i =>
          data.getD i 0 + s.chunks chunk (lba + i) + s.chunks parity (lba + i) := by
    conv_lhs => rw [eq_map_range data]
    simp only [readChunk, length_map, length_range, xorBuf_map]
  rw [hbuf]
  apply right_map
  intro i hi
  rw [h.parity_old hi, h.online i hi chunk h.chunk_lt hchunk,
    h.online i hi parity h.parity_lt hparity]

theorem StripWrite.rest_right (hrest : ∀ c ∈ rest sd.chunkNo chunk parity, s.chunkOnline c = true) :
    WriteCcb.Right T ⟨parity, lba,
      ((List.range sd.chunkNo).filter fun i => i ≠ chunk ∧ i ≠ parity).foldl
        (fun buf i => xorBuf buf (readChunk s.chunks i lba data.length)) data⟩ := by
  rw [foldl_xorBuf_data]
  apply right_map
  intro i hi
  have hsum := sum_filter_range sd.chunkNo (fun c => c ≠ chunk ∧ c ≠ parity)
    fun c => s.chunks c (lba + i)
  rw [hsum, h.parity_rest hi]
  congr 1
  have hset : (Finset.range sd.chunkNo).filter
      (fun c => decide (c ≠ chunk ∧ c ≠ parity) = true) = rest sd.chunkNo chunk parity := by
    simp only [rest, decide_eq_true_eq]
  rw [hset]
  apply Finset.sum_congr rfl
  intro c hc
  exact (h.online i hi c (Finset.mem_range.mp (Finset.mem_filter.mp hc).1) (hrest c hc)).symm

end

theorem chunkOnline_of_rebuild {c : Nat} (h : s.chunkRebuild c = true) :
    s.chunkOnline c = false := by
  unfold Raid5State.chunkRebuild ScmStatus.chunkRebuild at h
  unfold Raid5State.chunkOnline ScmStatus.chunkOnline
  cases hst : s.status c <;> simp_all

theorem other_not_online :
    ((((List.range sd.chunkNo).filter fun i => i ≠ chunk ∧ i ≠ parity).any
        fun i => ! s.chunkRebuild i && ! s.chunkOnline i) ||
      (((List.range sd.chunkNo).filter fun i => i ≠ chunk ∧ i ≠ parity).any
        fun i => s.chunkRebuild i)) = true ↔
      ∃ c ∈ rest sd.chunkNo chunk parity, s.chunkOnline c = false := by
  simp only [Bool.or_eq_true, any_eq_true, mem_filter, mem_range, rest,
    Finset.mem_filter, Finset.mem_range, Bool.and_eq_true, Bool.not_eq_true', decide_eq_true_eq]
  constructor
  · rintro (⟨c, hc, -, hoff⟩ | ⟨c, hc, hreb⟩)
    · exact ⟨c, hc, hoff⟩
    · exact ⟨c, hc, chunkOnline_of_rebuild hreb⟩
  · rintro ⟨c, hc, hoff⟩
    cases hreb : s.chunkRebuild c with
    | false => exact Or.inl ⟨c, hc, hreb, hoff⟩
    | true => exact Or.inr ⟨c, hc, hreb⟩

theorem StripWrite.right (h : StripWrite sd s D T chunk parity lba data) (hsingle : s.Single sd) :
    ∀ ccb ∈ srRaid5Write sd s chunk parity lba data, ccb.Right T := by
  intro ccb hccb
  unfold srRaid5Write at hccb
  dsimp only at hccb
  rcases mem_append.mp hccb with hccb | hccb
  · split at hccb
    · exact absurd hccb not_mem_nil
    · rw [mem_singleton] at hccb
      subst hccb
      split
      next hother =>
        -- the chunk that is not online is one of the others
        obtain ⟨c, hc, hoff⟩ := other_not_online.mp hother
        obtain ⟨hlt, hc1, hc2⟩ := Finset.mem_filter.mp hc
        obtain ⟨c0, hc0⟩ := hsingle
        have heq : c = c0 := by
          by_contra hne
          rw [hc0 c (Finset.mem_range.mp hlt) hne] at hoff
          cases hoff
        subst heq
        exact h.old_right (hc0 chunk h.chunk_lt hc1.symm) (hc0 parity h.parity_lt hc2.symm)
      next hother =>
        apply h.rest_right
        intro c hc
        by_contra hoff
        exact hother (other_not_online.mpr ⟨c, hc, Bool.eq_false_iff.mpr hoff⟩)
  · split at hccb
    · rw [mem_singleton] at hccb
      subst hccb
      exact fun i hi => (h.fresh i hi).symm
    · exact absurd hccb not_mem_nil

theorem srRaid5Write_hits {c i : Nat} (hi : i < data.length) (hc : c = chunk ∨ c = parity)
    (hup : s.chunkOnline c = true ∨ s.chunkRebuild c = true) :
    ∃ ccb ∈ srRaid5Write sd s chunk parity lba data, ccb.Hits c (lba + i) := by
  have hup' : (s.chunkOnline c || s.chunkRebuild c) = true := by
    rw [Bool.or_eq_true]
    exact hup
  unfold srRaid5Write
  dsimp only
  rcases hc with rfl | rfl
  · rw [if_pos hup']
    exact ⟨_, mem_append_right _ mem_cons_self, rfl, by dsimp only; omega,
      by dsimp only; omega⟩
  · have hon : ¬((! s.chunkOnline c && ! s.chunkRebuild c) = true) := by
      rw [← Bool.not_or, hup']
      exact Bool.false_ne_true
    rw [if_neg hon]
    refine ⟨_, mem_append_left _ mem_cons_self, rfl, ?_, ?_⟩
    · dsimp only
      omega
    · dsimp only
      split
      · simp only [xorBuf, readChunk, length_zipWith, length_map, length_range]
        omega
      · rw [foldl_xorBuf_data, length_map, length_range]
        omega

end

/-! ## The invariant -/

/-- The sectors of a chunk that the volume uses. -/
def SrRaid5.chunkBlocks (sd : SrRaid5) : Nat := sd.coercedSize / sd.stripBlocks * sd.stripBlocks

theorem SrRaid5.lba_lt {sd : SrRaid5} {b : Nat} (h : b < sd.ssdSize) :
    sd.layout.lba b < sd.chunkBlocks := by
  have hpos : 0 < sd.stripBlocks := sd.layout.strip_pos
  have hrow : sd.layout.row b < sd.coercedSize / sd.stripBlocks := by
    unfold Layout.row
    rw [layout_strip, layout_cols, Nat.div_div_eq_div_mul]
    apply Nat.div_lt_of_lt_mul
    rw [Nat.mul_comm, ← Nat.mul_assoc]
    exact h
  calc sd.layout.lba b
      = sd.layout.row b * sd.stripBlocks + b % sd.stripBlocks := rfl
    _ < sd.layout.row b * sd.stripBlocks + sd.stripBlocks :=
        Nat.add_lt_add_left (Nat.mod_lt _ hpos) _
    _ = (sd.layout.row b + 1) * sd.stripBlocks := by rw [Nat.succ_mul]
    _ ≤ sd.chunkBlocks := Nat.mul_le_mul_right _ hrow

/-- A sector of a chunk that has its virtual content. -/
def Raid5State.Has (sd : SrRaid5) (s : Raid5State) (chunk lba : Nat) : Prop :=
  s.chunkOnline chunk = true ∨
    s.chunkRebuild chunk = true ∧ lba < sd.stripBlocks * s.stripNo

structure Raid5Inv (sd : SrRaid5) (s : Raid5State) (disk : Disk) : Prop where
  single : ∃ c, ∀ i < sd.chunkNo, i ≠ c → s.status i = .sdOnline
  states : ∀ i < sd.chunkNo,
    s.status i = .sdOnline ∨ s.status i = .sdOffline ∨ s.status i = .sdRebuild
  has : ∀ c < sd.chunkNo, ∀ lba < sd.chunkBlocks, s.Has sd c lba →
    s.chunks c lba = sd.virt disk c lba

theorem chunkOnline_of_status {s : Raid5State} {c : Nat} (h : s.status c = .sdOnline) :
    s.chunkOnline c = true := by
  unfold Raid5State.chunkOnline
  rw [h]
  rfl

section

variable {sd : SrRaid5} {s : Raid5State} {disk : Disk}

theorem Raid5Inv.chunkOnline (h : Raid5Inv sd s disk) : s.Single sd := by
  obtain ⟨c, hc⟩ := h.single
  exact ⟨c, fun i hi hne => chunkOnline_of_status (hc i hi hne)⟩

theorem Raid5Inv.not_offline (h : Raid5Inv sd s disk) : s.svOffline sd = false := by
  obtain ⟨c, hc⟩ := h.single
  have hcount := countP_range_ge (p := fun i => decide (s.status i = .sdOnline)) [c]
    fun i hi hne => decide_eq_true (hc i hi fun heq => hne (mem_singleton.mpr heq))
  unfold Raid5State.svOffline
  rw [decide_eq_false_iff_not]
  rw [length_singleton] at hcount
  omega

theorem Raid5Inv.validate (h : Raid5Inv sd s disk) {blkno n : Nat} (hn : 0 < n)
    (hin : blkno + n ≤ sd.ssdSize) :
    srValidateIo (s.svOffline sd) sd.ssdSize blkno n = true := by
  unfold srValidateIo
  rw [h.not_offline, if_neg Bool.false_ne_true, if_neg (by omega)]
  dsimp only
  rw [decide_eq_false (by omega)]
  rfl

/-! ## Reads -/

theorem foldlM_regenerate {c lba n : Nat} : ∀ (chunks : List Nat) (buf : List Block),
    (∀ i ∈ chunks, i ≠ c → s.chunkOnline i = true) →
    chunks.foldlM
      (fun data i =>
        if i = c then some data
        else if ! s.chunkOnline i then none
        else some (xorBuf data (readChunk s.chunks i lba n))) buf =
      some ((chunks.filter fun i => i ≠ c).foldl
        (fun buf i => xorBuf buf (readChunk s.chunks i lba n)) buf)
  | [], _, _ => rfl
  | i :: chunks, buf, h => by
    have hrest : ∀ i ∈ chunks, i ≠ c → s.chunkOnline i = true :=
      fun i hi => h i (mem_cons_of_mem _ hi)
    rw [foldlM_cons]
    by_cases heq : i = c
    · rw [if_pos heq, filter_cons_of_neg (by simpa using heq)]
      exact foldlM_regenerate chunks buf hrest
    · rw [if_neg heq, h i mem_cons_self heq, filter_cons_of_pos (by simpa using heq), foldl_cons]
      exact foldlM_regenerate chunks _ hrest

theorem Raid5Inv.regenerate (h : Raid5Inv sd s disk) {c lba n : Nat} (hc : c < sd.chunkNo)
    (hothers : ∀ i < sd.chunkNo, i ≠ c → s.status i = .sdOnline)
    (hin : ∀ i < n, lba + i < sd.chunkBlocks) :
    srRaid5Regenerate sd s c lba n = some ((List.range n).map fun i => sd.virt disk c (lba + i)) := by
  have hzero : List.replicate n (0 : Block) = (List.range n).map fun _ => 0 := by
    rw [map_const', length_range]
  unfold srRaid5Regenerate
  rw [foldlM_regenerate _ _ fun i hi hne =>
    chunkOnline_of_status (hothers i (mem_range.mp hi) hne), hzero, foldl_xorBuf]
  congr 1
  apply map_congr_left
  intro i hi
  rw [zero_add]
  have hsum := sum_filter_range sd.chunkNo (fun j => j ≠ c) fun j => s.chunks j (lba + i)
  have hset : (Finset.range sd.chunkNo).filter (fun j => decide (j ≠ c) = true) =
      (Finset.range sd.chunkNo).erase c := by
    ext j
    simp only [Finset.mem_filter, Finset.mem_erase, decide_eq_true_eq]
    exact And.comm
  rw [hsum, hset, ← sd.virt_erase disk (lba + i) hc]
  apply Finset.sum_congr rfl
  intro j hj
  obtain ⟨hne, hlt⟩ := Finset.mem_erase.mp hj
  have hlt' := Finset.mem_range.mp hlt
  exact h.has j hlt' (lba + i) (hin i (mem_range.mp hi))
    (Or.inl (chunkOnline_of_status (hothers j hlt' hne)))

/-- A part of a strip is read as the disk has it. -/
theorem Raid5Inv.readStrip (h : Raid5Inv sd s disk) {b j : Nat} {strip : Strip}
    (hno : strip.stripNo = b / sd.stripBlocks) (hlba : strip.lba = sd.layout.lba b)
    (hlen : strip.length >>> devBshift = j) (hfit : b % sd.stripBlocks + j ≤ sd.stripBlocks)
    (hin : b + j ≤ sd.ssdSize) :
    srRaid5ReadStrip sd s strip = some ((List.range j).map fun i => disk (b + i)) := by
  have hbound : ∀ i < j, sd.layout.lba b + i < sd.chunkBlocks := by
    intro i hi
    have hlt := @SrRaid5.lba_lt sd (b + i) (by omega)
    rwa [(Layout.within hfit hi).2.1] at hlt
  have hvirt : (List.range j).map (fun i =>
      sd.virt disk (sd.chunk (b / sd.stripBlocks)) (sd.layout.lba b + i)) =
        (List.range j).map fun i => disk (b + i) := by
    apply map_congr_left
    intro i hi
    obtain ⟨hdiv, hlba', -⟩ := Layout.within (l := sd.layout) hfit (mem_range.mp hi)
    rw [← sd.virt_chunk disk (b + i), hlba']
    exact congrArg (fun x => sd.virt disk (sd.chunk x) (sd.layout.lba b + i)) hdiv.symm
  have hc := sd.chunk_lt (b / sd.stripBlocks)
  have hreg : (s.status (sd.chunk (b / sd.stripBlocks)) ≠ .sdOnline) →
      srRaid5Regenerate sd s (sd.chunk (b / sd.stripBlocks)) (sd.layout.lba b) j =
        some ((List.range j).map fun i => disk (b + i)) := by
    intro hoff
    obtain ⟨c, hothers⟩ := h.single
    have heq : sd.chunk (b / sd.stripBlocks) = c := by
      by_contra hne
      exact hoff (hothers _ hc hne)
    rw [← hvirt]
    apply h.regenerate hc _ hbound
    rw [heq]
    exact hothers
  unfold srRaid5ReadStrip
  rw [hno, hlba, hlen]
  dsimp only
  rcases h.states _ hc with hst | hst | hst
  · rw [hst]
    dsimp only
    rw [← hvirt, readChunk]
    congr 1
    apply map_congr_left
    intro i hi
    exact h.has _ hc _ (hbound i (mem_range.mp hi)) (Or.inl (chunkOnline_of_status hst))
  · rw [hst]
    dsimp only
    exact hreg (by rw [hst]; exact ScmStatus.noConfusion)
  · rw [hst]
    dsimp only
    exact hreg (by rw [hst]; exact ScmStatus.noConfusion)

theorem Raid5Inv.readStrips (h : Raid5Inv sd s disk) {b k : Nat} {strips : List Strip}
    (hcov : Covers sd.layout b k strips) (hin : b + k ≤ sd.ssdSize) :
    srRaid5ReadStrips sd s strips = some ((List.range k).map fun i => disk (b + i)) := by
  induction hcov with
  | nil b => rfl
  | @cons b k j strip rest hj hjk hlen hno hlba hfit _ ih =>
    unfold srRaid5ReadStrips
    rw [h.readStrip hno hlba hlen hfit (by omega), ih (by omega)]
    show some _ = some _
    congr 1
    have hk : k = j + (k - j) := by omega
    conv_rhs => rw [hk]
    rw [range_add, map_append, map_map]
    simp only [Function.comp_def, Nat.add_assoc]

end

end OpenBsd.Dev
