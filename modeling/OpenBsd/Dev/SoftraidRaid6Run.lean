/-
  OpenBsd.Dev.SoftraidRaid6Run

  Writes of RAID 6, and runs.  A write changes one chunk of data in each row, and P and Q by the
  difference; it is refused where one of the three has failed.
-/

import OpenBsd.Dev.SoftraidRaid6Read

namespace OpenBsd.Dev

open OpenBsd.Lib List

section

variable {sd : SrRaid6} {s s' : Raid6State} {disk : Disk}

/-! ## Writes -/

theorem virt_delta {blkno b : Nat} {data : List Block} (hlen : data.length ≤ sd.stripBlocks)
    (hlo : blkno ≤ b) (hhi : b < blkno + data.length) :
    sd.virt (disk.write blkno data) (sd.pchunk (b / sd.stripBlocks)) (sd.layout.lba b) =
        disk.write blkno data b + sd.virt disk (sd.chunk (b / sd.stripBlocks)) (sd.layout.lba b) +
          sd.virt disk (sd.pchunk (b / sd.stripBlocks)) (sd.layout.lba b) ∧
      sd.virt (disk.write blkno data) (sd.qchunk (b / sd.stripBlocks)) (sd.layout.lba b) =
        Gf256.gen ^ sd.chunk (b / sd.stripBlocks) • disk.write blkno data b +
          Gf256.gen ^ sd.chunk (b / sd.stripBlocks) •
            sd.virt disk (sd.chunk (b / sd.stripBlocks)) (sd.layout.lba b) +
          sd.virt disk (sd.qchunk (b / sd.stripBlocks)) (sd.layout.lba b) := by
  have hrow : sd.layout.lba b / sd.stripBlocks = b / sd.stripBlocks / sd.noChunk :=
    sd.layout.lba_div b
  have hx : sd.chunk (b / sd.stripBlocks) ∈ sd.dataChunks (sd.layout.lba b / sd.stripBlocks) := by
    rw [hrow]
    exact sd.mem_dataChunks.mpr ⟨sd.chunk_lt _, sd.chunk_ne_pchunk _, sd.chunk_ne_qchunk _⟩
  have hsame : ∀ z ∈ sd.dataChunks (sd.layout.lba b / sd.stripBlocks),
      z ≠ sd.chunk (b / sd.stripBlocks) →
        sd.virt (disk.write blkno data) z (sd.layout.lba b) = sd.virt disk z (sd.layout.lba b) :=
    fun z hz hne => SrRaid6.virt_write_other hz hlen hlo hhi hne
  obtain ⟨hP, hQ⟩ := sd.virt_rows disk (sd.layout.lba b)
  obtain ⟨hP', hQ'⟩ := sd.virt_rows (disk.write blkno data) (sd.layout.lba b)
  rw [sd.pchunk_eq, sd.qchunk_eq, ← hrow, hP', hQ', hP, hQ]
  constructor
  · rw [sum_change Block.add_self hx hsame, sd.virt_chunk]
  · rw [sum_change Block.add_self hx fun z hz hne => by rw [hsame z hz hne], sd.virt_chunk]

/-- Some chunk has failed. -/
def Raid6State.Degraded (sd : SrRaid6) (s : Raid6State) : Prop :=
  ∃ c < sd.chunkNo, (s.status c).failed = true

section

variable (h : Raid6Inv sd s disk)
include h

variable {data : List Block} {blkno : Nat}

/-- A part of a write that is in one strip: it is refused for a failed chunk, or the chunk of data,
    P and Q are written, and all three rightly. -/
theorem Raid6Inv.writeStrip {b j : Nat} {strip : Strip}
    (hlen : data.length ≤ sd.stripBlocks) (hlo : blkno ≤ b) (hhi : b + j ≤ blkno + data.length)
    (hfit : b % sd.stripBlocks + j ≤ sd.stripBlocks) (hno : strip.stripNo = b / sd.stripBlocks)
    (hlba : strip.lba = sd.layout.lba b) :
    srRaid6WriteStrip sd s strip ((data.drop (b - blkno)).take j) = .error .bad ∧ s.Degraded sd ∨
      ∃ ccbs, srRaid6WriteStrip sd s strip ((data.drop (b - blkno)).take j) = .ok ccbs ∧
        (∀ ccb ∈ ccbs, ccb.Right (sd.virt (disk.write blkno data))) ∧
        ∀ i < j, ∀ c, c = sd.chunk (b / sd.stripBlocks) ∨ c = sd.pchunk (b / sd.stripBlocks) ∨
          c = sd.qchunk (b / sd.stripBlocks) → ∃ ccb ∈ ccbs, ccb.Hits c (sd.layout.lba b + i) := by
  have hd : (data.drop (b - blkno)).take j = (List.range j).map fun i => disk.write blkno data (b + i) := by
    apply ext_getElem
    · rw [length_take, length_drop, length_map, length_range]
      omega
    · intro i hi _
      have hij : i < j := by
        rw [length_take] at hi
        omega
      have hb : b + i = blkno + (b - blkno + i) := by omega
      rw [getElem_map, getElem_range, hb, Disk.write_in (by omega : b - blkno + i < data.length)]
      simp
  have hwithin : ∀ i < j, (b + i) / sd.stripBlocks = b / sd.stripBlocks ∧
      sd.layout.lba (b + i) = sd.layout.lba b + i := fun i hi =>
    ⟨(Layout.within (l := sd.layout) hfit hi).1, (Layout.within (l := sd.layout) hfit hi).2.1⟩
  have htells := srFail_tells s (sd.chunk_ne_pchunk (b / sd.stripBlocks))
    (sd.chunk_ne_qchunk (b / sd.stripBlocks)) (sd.rowP_ne_rowQ _) sd.chunkNo
  have hzeros : ∀ l : List Block, List.replicate ((List.range j).map fun i =>
      disk.write blkno data (b + i)).length (0 : Block) = (List.range j).map fun _ => 0 := by
    intro _
    rw [map_const', length_map]
  have hxlt := sd.chunk_lt (b / sd.stripBlocks)
  have hplt := sd.rowP_lt (b / sd.stripBlocks / sd.noChunk)
  have hqlt := sd.rowQ_lt (b / sd.stripBlocks / sd.noChunk)
  rw [← sd.pchunk_eq] at hplt
  rw [← sd.qchunk_eq] at hqlt
  rw [hd]
  unfold srRaid6WriteStrip srFail
  rw [hno, hlba]
  dsimp only
  generalize (List.range sd.chunkNo).foldl _ _ = fail at htells ⊢
  by_cases hfail : (fail.x || fail.q || fail.p) = true
  · rw [if_pos hfail]
    refine Or.inl ⟨rfl, ?_⟩
    simp only [Bool.or_eq_true] at hfail
    rcases hfail with (hx | hq) | hp
    · exact ⟨_, htells.x.mp hx⟩
    · exact ⟨_, htells.q.mp hq⟩
    · exact ⟨_, htells.p.mp hp⟩
  · right
    rw [if_neg hfail]
    simp only [Bool.or_eq_true, not_or] at hfail
    obtain ⟨⟨hx, hq⟩, hp⟩ := hfail
    have hgood : ∀ c < sd.chunkNo, ¬(s.status c).failed = true →
        ∀ lba, s.chunks c lba = sd.virt disk c lba :=
      fun c hc hf => h.has c hc (Bool.eq_false_iff.mpr hf)
    have hX := hgood _ hxlt fun hf => hx (htells.x.mpr ⟨hxlt, hf⟩)
    have hP := hgood _ hplt fun hf => hp (htells.p.mpr ⟨hplt, hf⟩)
    have hQ := hgood _ hqlt fun hf => hq (htells.q.mpr ⟨hqlt, hf⟩)
    have hgn := gen_pow_ne_zero (sd.chunk (b / sd.stripBlocks))
    rw [gfPow_chunk hxlt, ok_bind, gfPremul_ok hgn, ok_bind, hzeros [], xorBuf_map, srRaid6Xorq_eq,
      zipWith_smul, addioP_map, addioQ_map hgn, ok_bind, addioP_map, addioP_map]
    refine ⟨_, rfl, ?_, ?_⟩
    · intro ccb hccb
      have hdelta := fun i (hi : i < j) =>
        @virt_delta sd disk blkno (b + i) data hlen (by omega) (by omega)
      simp only [mem_cons, not_mem_nil, or_false] at hccb
      rcases hccb with rfl | rfl | rfl
      · apply right_map
        intro i hi
        exact (part_spec hfit hi).2
      · apply right_map
        intro i hi
        have hi' := (hdelta i hi).1
        rw [(hwithin i hi).1, (hwithin i hi).2] at hi'
        rw [hi', zero_add, hX, hP]
      · apply right_map
        intro i hi
        have hi' := (hdelta i hi).2
        rw [(hwithin i hi).1, (hwithin i hi).2] at hi'
        rw [hi', zero_add, hX, hQ]
    · intro i hi c hc
      have hlen' : ∀ f : Nat → Block, sd.layout.lba b + i < sd.layout.lba b + ((List.range j).map f).length := by
        intro f
        rw [length_map, length_range]
        omega
      rcases hc with rfl | rfl | rfl
      · exact ⟨_, mem_cons_self, rfl, Nat.le_add_right _ _, hlen' _⟩
      · exact ⟨_, mem_cons_of_mem _ mem_cons_self, rfl, Nat.le_add_right _ _, hlen' _⟩
      · exact ⟨_, mem_cons_of_mem _ (mem_cons_of_mem _ mem_cons_self), rfl,
          Nat.le_add_right _ _, hlen' _⟩

theorem Raid6Inv.writeStrips (hlen : data.length ≤ sd.stripBlocks)
    {b k : Nat} {strips : List Strip} (hcov : Covers sd.layout b k strips) (hlo : blkno ≤ b)
    (hhi : b + k = blkno + data.length) :
    srRaid6WriteStrips sd s strips (data.drop (b - blkno)) = .error .bad ∧ s.Degraded sd ∨
      ∃ ccbs, srRaid6WriteStrips sd s strips (data.drop (b - blkno)) = .ok ccbs ∧
        (∀ ccb ∈ ccbs, ccb.Right (sd.virt (disk.write blkno data))) ∧
        ∀ x, b ≤ x → x < b + k → ∀ c, c = sd.chunk (x / sd.stripBlocks) ∨
          c = sd.pchunk (x / sd.stripBlocks) ∨ c = sd.qchunk (x / sd.stripBlocks) →
            ∃ ccb ∈ ccbs, ccb.Hits c (sd.layout.lba x) := by
  induction hcov with
  | nil b =>
    refine Or.inr ⟨[], rfl, fun ccb hccb => absurd hccb not_mem_nil, ?_⟩
    intro x hx hx'
    omega
  | @cons b k j strip rest hj hjk hstrip hno hlba hfit _ ih =>
    have hdrop : data.drop (b + j - blkno) = (data.drop (b - blkno)).drop j := by
      rw [List.drop_drop]
      congr 1
      omega
    have hrest := ih (by omega) (by omega)
    rw [hdrop] at hrest
    unfold srRaid6WriteStrips
    rw [hstrip]
    dsimp only
    rcases h.writeStrip hlen hlo (by omega) hfit hno hlba with ⟨hbad, hdeg⟩ | ⟨ccbs, hccbs, hright, hhits⟩
    · rw [hbad]
      exact Or.inl ⟨rfl, hdeg⟩
    rcases hrest with ⟨hbad, hdeg⟩ | ⟨ccbs', hccbs', hright', hhits'⟩
    · rw [hccbs, ok_bind, hbad]
      exact Or.inl ⟨rfl, hdeg⟩
    · rw [hccbs, ok_bind, hccbs', ok_bind]
      refine Or.inr ⟨_, rfl, ?_, ?_⟩
      · intro ccb hccb
        rcases mem_append.mp hccb with hccb | hccb
        · exact hright ccb hccb
        · exact hright' ccb hccb
      · intro x hx hx' c hc
        by_cases hxj : x < b + j
        · obtain ⟨i, rfl⟩ := Nat.exists_eq_add_of_le hx
          obtain ⟨hdiv, hlba', -⟩ := Layout.within (l := sd.layout) hfit (by omega : i < j)
          rw [SrRaid6.layout_strip] at hdiv
          rw [hdiv] at hc
          obtain ⟨ccb, hccb, hhit⟩ := hhits i (by omega) c hc
          rw [hlba']
          exact ⟨ccb, mem_append_left _ hccb, hhit⟩
        · obtain ⟨ccb, hccb, hhit⟩ := hhits' x (by omega) (by omega) c hc
          exact ⟨ccb, mem_append_right _ hccb, hhit⟩

/-- `sr_raid6_rw` of a write refuses it, or puts the new contents on the chunks. -/
theorem Raid6Inv.writeIo {blkno : Nat} {data : List Block} (hlen : data.length ≤ sd.stripBlocks) :
    srRaid6Write sd s blkno data = .error .bad ∧
        (srValidateIo (s.svOffline sd) sd.ssdSize blkno data.length = true → s.Degraded sd) ∨
      ∃ ccbs, srRaid6Write sd s blkno data = .ok ccbs ∧
        ∀ (m : Chunks) (c lba : Nat), c < sd.chunkNo → m c lba = sd.virt disk c lba →
          runWrites m ccbs c lba = sd.virt (disk.write blkno data) c lba := by
  have hcov : Covers sd.layout blkno data.length
      (ioStrips sd.stripBits sd.noChunk blkno data.length) :=
    strips_covers sd.noChunk_pos sd.stripBits_ge (Nat.le_refl _)
  have hstrips := h.writeStrips hlen hcov (Nat.le_refl _) rfl
  rw [Nat.sub_self, List.drop_zero] at hstrips
  unfold srRaid6Write
  split
  next =>
    rcases hstrips with ⟨hbad, hdeg⟩ | ⟨ccbs, hccbs, hright, hhits⟩
    · exact Or.inl ⟨hbad, fun _ => hdeg⟩
    · refine Or.inr ⟨ccbs, hccbs, ?_⟩
      intro m c lba hc hm
      rw [runWrites_right hright]
      split
      next => rfl
      next hmiss =>
        rw [hm]
        symm
        by_cases haway : ∃ b, blkno ≤ b ∧ b < blkno + data.length ∧ sd.layout.lba b = lba
        · -- another chunk of data, in a row of the write
          obtain ⟨b, hlo, hhi, rfl⟩ := haway
          have hmiss' : ∀ hc, _ := fun hc => hmiss (hhits b hlo hhi c hc)
          have hrow : sd.layout.lba b / sd.stripBlocks = b / sd.stripBlocks / sd.noChunk :=
            sd.layout.lba_div b
          apply SrRaid6.virt_write_other _ hlen hlo hhi fun heq => hmiss' (Or.inl heq)
          rw [hrow]
          exact sd.mem_dataChunks.mpr
            ⟨hc, fun heq => hmiss' (Or.inr (Or.inl heq)), fun heq => hmiss' (Or.inr (Or.inr heq))⟩
        · apply SrRaid6.virt_write_away hc
          intro b hlo hhi heq
          exact haway ⟨b, hlo, hhi, heq⟩
  next hval => exact Or.inl ⟨rfl, fun hval' => absurd hval' hval⟩

theorem Raid6Inv.not_offline : s.svOffline sd = false := by
  obtain ⟨a, b, hab⟩ := h.two
  have hcount := countP_range_ge (p := fun i => decide (s.status i = .sdOnline)) [a, b]
    fun i hi hne => decide_eq_true (hab i hi (fun heq => hne (by simp [heq]))
      fun heq => hne (by simp [heq]))
  have hlen : [a, b].length = 2 := rfl
  rw [hlen] at hcount
  unfold Raid6State.svOffline
  rw [decide_eq_false_iff_not]
  omega

theorem Raid6Inv.read {n : Nat} (hval : srValidateIo false sd.ssdSize blkno n = true) :
    srRaid6Read sd s blkno n = .ok ((List.range n).map fun i => disk (blkno + i)) := by
  have hcov : Covers sd.layout blkno n (ioStrips sd.stripBits sd.noChunk blkno n) :=
    strips_covers sd.noChunk_pos sd.stripBits_ge (Nat.le_refl _)
  unfold srRaid6Read
  rw [h.not_offline, if_pos hval]
  exact h.readStrips hcov

end

/-! ## Runs -/

/-- At most two chunks are not online, and the rows add up. -/
structure Raid6Start (sd : SrRaid6) (s : Raid6State) : Prop where
  two : ∃ a b, ∀ i < sd.chunkNo, i ≠ a → i ≠ b → s.status i = .sdOnline
  rows : sd.Rows s.chunks
  last : s.last = s.chunks

/-- Writes are of a strip at most, and no third chunk fails. -/
def Raid6Step.Fair (sd : SrRaid6) (s : Raid6State) : Raid6Step → Prop
  | .read _ _ => True
  | .write _ data => data.length ≤ sd.stripBlocks
  | .fail chunk status _ => ∃ a b, ∀ i < sd.chunkNo, i ≠ a → i ≠ b →
      Function.update s.status chunk status i = .sdOnline

theorem Raid6Start.inv (h : Raid6Start sd s) : Raid6Inv sd s (sd.disk s.chunks) where
  two := h.two
  has := fun _ hc _ lba => SrRaid6.Rows.virt_eq sd h.rows hc lba
  last := fun _ hc lba => by rw [h.last]; exact SrRaid6.Rows.virt_eq sd h.rows hc lba

theorem raid6Step_write {blkno : Nat} {data : List Block} {ccbs : List WriteCcb}
    (h : srRaid6Write sd s blkno data = .ok ccbs) :
    raid6Step sd s (.write blkno data) = some
      { s with chunks := runWrites s.chunks ccbs, last := runWrites s.last ccbs } := by
  dsimp only [raid6Step]
  rw [h]

theorem Raid6Inv.step (h : Raid6Inv sd s disk) {e : Raid6Step} (hfair : e.Fair sd s)
    (hstep : raid6Step sd s e = some s') : Raid6Inv sd s' (disk.after Raid6Step.written [e]) := by
  cases e with
  | read blkno n =>
    dsimp only [raid6Step] at hstep
    split at hstep
    · cases hstep
      exact h
    · cases hstep
  | write blkno data =>
    rcases h.writeIo hfair with ⟨hbad, -⟩ | ⟨ccbs, hccbs, hnew⟩
    · dsimp only [raid6Step] at hstep
      rw [hbad] at hstep
      cases hstep
    · rw [raid6Step_write hccbs] at hstep
      cases hstep
      constructor
      · exact h.two
      · exact fun c hc hgood lba => hnew _ c lba hc (h.has c hc hgood lba)
      · exact fun c hc lba => hnew _ c lba hc (h.last c hc lba)
  | fail chunk status contents =>
    dsimp only [raid6Step] at hstep
    split at hstep
    next hfail =>
      cases hstep
      constructor
      · exact hfair
      · intro c hc hgood lba
        dsimp only at hgood ⊢
        by_cases heq : c = chunk
        · -- nothing is asked of what has failed
          rw [heq, Function.update_self, hfail.2] at hgood
          cases hgood
        · rw [Function.update_of_ne heq] at hgood ⊢
          exact h.has c hc hgood lba
      · exact h.last
    next => cases hstep

theorem Raid6Inv.run {es : List Raid6Step}
    (hrun : Run (raid6Step sd) (fun s e => e.Fair sd s) s es s') :
    ∀ {disk : Disk}, Raid6Inv sd s disk → Raid6Inv sd s' (disk.after Raid6Step.written es) := by
  induction hrun with
  | nil s => exact fun h => h
  | cons hok hstep _ ih =>
    intro disk h
    rw [Disk.after_cons]
    exact ih (h.step hok hstep)

end

end OpenBsd.Dev
