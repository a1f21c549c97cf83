/-
  OpenBsd.Dev.SoftraidRaid5Run

  Every step of a volume of RAID 5 keeps the virtual contents, as long as no I/O ends behind the
  volume.  `sr_validate_io` lets in one that ends at sector `ssd_size`, in a row that
  `sr_raid5_rebuild` does not come to.
-/

import OpenBsd.Dev.SoftraidRaid5Safe

namespace OpenBsd.Dev

open OpenBsd.Lib List Function

section

variable {sd : SrRaid5} {s s' : Raid5State} {disk : Disk}

/-! ## Writes -/

theorem Raid5Inv.stripWrite (h : Raid5Inv sd s disk) {blkno b j : Nat} {data : List Block}
    (hlen : data.length ≤ sd.stripBlocks) (hin : blkno + data.length ≤ sd.ssdSize)
    (hlo : blkno ≤ b) (hhi : b + j ≤ blkno + data.length)
    (hfit : b % sd.stripBlocks + j ≤ sd.stripBlocks) :
    StripWrite sd s (sd.virt disk) (sd.virt (disk.write blkno data))
      (sd.chunk (b / sd.stripBlocks)) (sd.parity (b / sd.stripBlocks)) (sd.layout.lba b)
      ((data.drop (b - blkno)).take j) := by
  have hj : ((data.drop (b - blkno)).take j).length = j := by
    rw [length_take, length_drop]
    omega
  -- a sector of the part is one of the write
  have hwithin : ∀ i < j, (b + i) / sd.stripBlocks = b / sd.stripBlocks ∧
      sd.layout.lba (b + i) = sd.layout.lba b + i := fun i hi =>
    ⟨(Layout.within (l := sd.layout) hfit hi).1, (Layout.within (l := sd.layout) hfit hi).2.1⟩
  constructor
  · exact sd.chunk_lt _
  · exact sd.parity_lt _
  · exact sd.chunk_ne_parity _
  · intro i hi
    rw [hj] at hi
    obtain ⟨hdiv, hlba⟩ := hwithin i hi
    have hlt : b - blkno + i < data.length := by omega
    have hb : b + i = blkno + (b - blkno + i) := by omega
    rw [← hlba, ← hdiv, sd.virt_chunk, hb, Disk.write_in hlt]
    simp
  · intro i hi c hc hne1 hne2
    rw [hj] at hi
    obtain ⟨hdiv, hlba⟩ := hwithin i hi
    rw [← hlba]
    apply virt_write_other hc hlen (by omega) (by omega)
    · rw [hdiv]
      exact hne1
    · rw [hdiv]
      exact hne2
  · intro i _
    exact sd.virt_sum _ _
  · intro i _
    exact sd.virt_sum _ _
  · intro i hi c hc hon
    rw [hj] at hi
    have hlt := @SrRaid5.lba_lt sd (b + i) (by omega)
    rw [(hwithin i hi).2] at hlt
    exact h.has c hc _ hlt (Or.inl hon)

theorem Raid5Inv.writeStrips_right (h : Raid5Inv sd s disk) {blkno : Nat} {data : List Block}
    (hlen : data.length ≤ sd.stripBlocks) (hin : blkno + data.length ≤ sd.ssdSize)
    {b k : Nat} {strips : List Strip} (hcov : Covers sd.layout b k strips) (hlo : blkno ≤ b)
    (hhi : b + k = blkno + data.length) :
    ∀ ccb ∈ srRaid5WriteStrips sd s strips (data.drop (b - blkno)),
      ccb.Right (sd.virt (disk.write blkno data)) := by
  induction hcov with
  | nil b => exact fun ccb hccb => absurd hccb not_mem_nil
  | @cons b k j strip rest hj hjk hstrip hno hlba hfit _ ih =>
    intro ccb hccb
    unfold srRaid5WriteStrips at hccb
    rw [hstrip, hno, hlba] at hccb
    dsimp only at hccb
    rcases mem_append.mp hccb with hccb | hccb
    · exact (h.stripWrite hlen hin hlo (by omega) hfit).right h.chunkOnline ccb hccb
    · apply ih (by omega) (by omega) ccb
      rw [List.drop_drop] at hccb
      have hdrop : b + j - blkno = b - blkno + j := by omega
      rw [hdrop]
      exact hccb

theorem writeStrips_hits {b k : Nat} {strips : List Strip} (hcov : Covers sd.layout b k strips) :
    ∀ {data : List Block}, data.length = k → ∀ {x c : Nat}, b ≤ x → x < b + k →
      c = sd.chunk (x / sd.stripBlocks) ∨ c = sd.parity (x / sd.stripBlocks) →
      s.chunkOnline c = true ∨ s.chunkRebuild c = true →
      ∃ ccb ∈ srRaid5WriteStrips sd s strips data, ccb.Hits c (sd.layout.lba x) := by
  induction hcov with
  | nil b =>
    intro data _ x c hlo hhi
    omega
  | @cons b k j strip rest hj hjk hstrip hno hlba hfit _ ih =>
    intro data hdata x c hlo hhi hc hup
    unfold srRaid5WriteStrips
    rw [hstrip, hno, hlba]
    dsimp only
    by_cases hx : x < b + j
    · obtain ⟨i, rfl⟩ := Nat.exists_eq_add_of_le hlo
      obtain ⟨hdiv, hlba', -⟩ := Layout.within (l := sd.layout) hfit (by omega : i < j)
      rw [SrRaid5.layout_strip] at hdiv
      rw [hdiv] at hc
      have hi : i < (data.take j).length := by
        rw [length_take]
        omega
      obtain ⟨ccb, hccb, hhit⟩ := @srRaid5Write_hits sd s _ _ (sd.layout.lba b) _ c i hi hc hup
      rw [hlba']
      exact ⟨ccb, mem_append_left _ hccb, hhit⟩
    · have hdata' : (data.drop j).length = k - j := by
        rw [length_drop, hdata]
      obtain ⟨ccb, hccb, hhit⟩ := ih hdata' (by omega) (by omega) hc hup
      exact ⟨ccb, mem_append_right _ hccb, hhit⟩

theorem Raid5Inv.write (h : Raid5Inv sd s disk) {blkno : Nat} {data : List Block}
    (hlen : data.length ≤ sd.stripBlocks) (hin : blkno + data.length ≤ sd.ssdSize)
    (hstep : srRaid5WriteIo sd s blkno data = some s') :
    Raid5Inv sd s' (disk.write blkno data) := by
  unfold srRaid5WriteIo at hstep
  split at hstep
  next =>
    cases hstep
    have hcov : Covers sd.layout blkno data.length
        (ioStrips sd.stripBits sd.noChunk blkno data.length) :=
      strips_covers sd.noChunk_pos sd.stripBits_ge (Nat.le_refl _)
    have hright := h.writeStrips_right hlen hin hcov (Nat.le_refl _) rfl
    rw [Nat.sub_self, List.drop_zero] at hright
    constructor
    · exact h.single
    · exact h.states
    · intro c hc lba hlba hhas
      have hhas' : s.Has sd c lba := hhas
      show runWrites _ _ c lba = _
      rw [runWrites_right hright]
      split
      next => rfl
      next hmiss =>
        rw [h.has c hc lba hlba hhas']
        -- a sector that the write passes by
        by_cases haway : ∃ b, blkno ≤ b ∧ b < blkno + data.length ∧ sd.layout.lba b = lba
        · obtain ⟨b, hlo, hhi, rfl⟩ := haway
          have hup : s.chunkOnline c = true ∨ s.chunkRebuild c = true :=
            hhas'.imp id And.left
          have hmiss' : ∀ hc, _ := fun hc => hmiss (writeStrips_hits hcov rfl hlo hhi hc hup)
          symm
          apply virt_write_other hc hlen hlo hhi
          · exact fun heq => hmiss' (Or.inl heq)
          · exact fun heq => hmiss' (Or.inr heq)
        · symm
          apply virt_write_away hc
          intro b hlo hhi heq
          exact haway ⟨b, hlo, hhi, heq⟩
  next => cases hstep

/-! ## Rebuild -/

theorem chunkStrips_eq (sd : SrRaid5) : chunkStrips sd = sd.coercedSize / sd.stripBlocks := by
  have hbits : 2 ^ sd.stripBits = sd.stripBlocks * 2 ^ devBshift := by
    rw [SrRaid5.stripBlocks, ← Nat.pow_add, Nat.sub_add_cancel sd.stripBits_ge]
  unfold chunkStrips SrRaid5.ssdSize
  rw [Nat.mul_div_cancel _ sd.noChunk_pos, Nat.shiftLeft_eq, Nat.shiftRight_eq_div_pow, hbits,
    Nat.mul_div_mul_right _ _ (Nat.two_pow_pos _)]
  exact Nat.mul_div_cancel _ sd.layout.strip_pos

theorem Raid5Inv.rebuildChunk (h : Raid5Inv sd s disk) {c : Nat} (hc : rebuildChunk sd s = some c) :
    c < sd.chunkNo ∧ s.chunkRebuild c = true ∧
      ∀ i < sd.chunkNo, i ≠ c → s.status i = .sdOnline := by
  have hlt := mem_range.mp (mem_of_find?_eq_some hc)
  have hreb : s.chunkRebuild c = true := find?_some hc
  obtain ⟨c', hothers⟩ := h.single
  have heq : c = c' := by
    by_contra hne
    have hon := chunkOnline_of_status (hothers c hlt hne)
    rw [chunkOnline_of_rebuild hreb] at hon
    cases hon
  subst heq
  exact ⟨hlt, hreb, hothers⟩

/-- A strip more of the rebuild chunk has its content. -/
theorem Raid5Inv.rebuildStrip (h : Raid5Inv sd s disk) (hstep : srRaid5RebuildStrip sd s = some s') :
    Raid5Inv sd s' disk := by
  unfold srRaid5RebuildStrip at hstep
  obtain ⟨c, hc, hstep⟩ := Option.bind_eq_some_iff.mp hstep
  obtain ⟨hlt, hreb, hothers⟩ := h.rebuildChunk hc
  split at hstep
  next hmore =>
    obtain ⟨xorbuf, hbuf, hstep⟩ := Option.bind_eq_some_iff.mp hstep
    cases hstep
    rw [chunkStrips_eq] at hmore
    have hend : sd.stripBlocks * s.stripNo + sd.stripBlocks ≤ sd.chunkBlocks := by
      calc sd.stripBlocks * s.stripNo + sd.stripBlocks
          = sd.stripBlocks * (s.stripNo + 1) := (Nat.mul_succ _ _).symm
        _ ≤ sd.stripBlocks * (sd.coercedSize / sd.stripBlocks) := Nat.mul_le_mul_left _ hmore
        _ = sd.chunkBlocks := Nat.mul_comm _ _
    rw [h.regenerate hlt hothers fun i hi => by omega] at hbuf
    cases hbuf
    have hright : ∀ ccb ∈ [(⟨c, sd.stripBlocks * s.stripNo, (List.range sd.stripBlocks).map fun i =>
        sd.virt disk c (sd.stripBlocks * s.stripNo + i)⟩ : WriteCcb)], ccb.Right (sd.virt disk) := by
      intro ccb hccb
      rw [mem_singleton] at hccb
      subst hccb
      exact right_map fun i _ => rfl
    constructor
    · exact h.single
    · exact h.states
    · intro c' hc' lba hlba hhas
      show runWrites _ _ c' lba = _
      rw [runWrites_right hright]
      split
      next => rfl
      next hmiss =>
        apply h.has c' hc' lba hlba
        rcases hhas with hon | ⟨hreb', hpos⟩
        · exact Or.inl hon
        · refine Or.inr ⟨hreb', ?_⟩
          -- behind the loop, or in the strip that is written
          have heq : c' = c := by
            by_contra hne
            have hon := chunkOnline_of_status (hothers c' hc' hne)
            have hoff : s.chunkOnline c' = false := chunkOnline_of_rebuild hreb'
            rw [hon] at hoff
            cases hoff
          by_contra hge
          apply hmiss
          refine ⟨_, mem_singleton_self _, heq, Nat.le_of_not_lt hge, ?_⟩
          show lba < _ + ((List.range sd.stripBlocks).map _).length
          rw [length_map, length_range, ← Nat.mul_succ]
          exact hpos
  next => cases hstep

theorem Raid5Inv.rebuildDone (h : Raid5Inv sd s disk) (hstep : srRaid5RebuildDone sd s = some s') :
    Raid5Inv sd s' disk := by
  unfold srRaid5RebuildDone at hstep
  obtain ⟨c, hc, hstep⟩ := Option.bind_eq_some_iff.mp hstep
  obtain ⟨hlt, hreb, hothers⟩ := h.rebuildChunk hc
  split at hstep
  next => cases hstep
  next hmore =>
    cases hstep
    rw [chunkStrips_eq] at hmore
    have hend : sd.chunkBlocks ≤ sd.stripBlocks * s.stripNo := by
      rw [Nat.mul_comm]
      exact Nat.mul_le_mul_right _ (Nat.le_of_not_lt hmore)
    have honline : ∀ i < sd.chunkNo, update s.status c .sdOnline i = .sdOnline := by
      intro i hi
      by_cases heq : i = c
      · rw [heq, update_self]
      · rw [update_of_ne heq]
        exact hothers i hi heq
    constructor
    · exact ⟨c, fun i hi _ => honline i hi⟩
    · exact fun i hi => Or.inl (honline i hi)
    · intro c' hc' lba hlba _
      apply h.has c' hc' lba hlba
      by_cases heq : c' = c
      · subst heq
        exact Or.inr ⟨hreb, by omega⟩
      · exact Or.inl (chunkOnline_of_status (hothers c' hc' heq))

/-! ## Failure and replacement -/

theorem Raid5Inv.fail (h : Raid5Inv sd s disk) {c : Nat}
    (hothers : ∀ i < sd.chunkNo, i ≠ c → s.status i = .sdOnline) :
    Raid5Inv sd { s with status := update s.status c .sdOffline } disk := by
  constructor
  · refine ⟨c, fun i hi hne => ?_⟩
    show update s.status c .sdOffline i = _
    rw [update_of_ne hne]
    exact hothers i hi hne
  · intro i hi
    show update s.status c .sdOffline i = _ ∨ update s.status c .sdOffline i = _ ∨
      update s.status c .sdOffline i = _
    by_cases heq : i = c
    · rw [heq, update_self]
      exact Or.inr (Or.inl rfl)
    · rw [update_of_ne heq]
      exact Or.inl (hothers i hi heq)
  · intro c' hc' lba hlba hhas
    apply h.has c' hc' lba hlba
    by_cases heq : c' = c
    · -- what is offline has nothing
      unfold Raid5State.Has Raid5State.chunkOnline Raid5State.chunkRebuild at hhas
      dsimp only at hhas
      rw [heq, update_self] at hhas
      rcases hhas with hhas | ⟨hhas, -⟩ <;> cases hhas
    · exact Or.inl (chunkOnline_of_status (hothers c' hc' heq))

theorem Raid5Inv.replace (h : Raid5Inv sd s disk) {c : Nat} {contents : Nat → Block}
    (hc : c < sd.chunkNo) (hoff : s.status c = .sdOffline) :
    Raid5Inv sd
      { status := update s.status c .sdRebuild
        chunks := update s.chunks c contents
        stripNo := 0 } disk := by
  have hothers : ∀ i < sd.chunkNo, i ≠ c → s.status i = .sdOnline := by
    obtain ⟨c', hc'⟩ := h.single
    have heq : c = c' := by
      by_contra hne
      rw [hc' c hc hne] at hoff
      cases hoff
    subst heq
    exact hc'
  constructor
  · refine ⟨c, fun i hi hne => ?_⟩
    show update s.status c .sdRebuild i = _
    rw [update_of_ne hne]
    exact hothers i hi hne
  · intro i hi
    show update s.status c .sdRebuild i = _ ∨ update s.status c .sdRebuild i = _ ∨
      update s.status c .sdRebuild i = _
    by_cases heq : i = c
    · rw [heq, update_self]
      exact Or.inr (Or.inr rfl)
    · rw [update_of_ne heq]
      exact Or.inl (hothers i hi heq)
  · intro c' hc' lba hlba hhas
    by_cases heq : c' = c
    · -- the loop is at its start
      unfold Raid5State.Has Raid5State.chunkOnline Raid5State.chunkRebuild at hhas
      dsimp only at hhas
      rw [heq, update_self] at hhas
      rcases hhas with hhas | ⟨-, hhas⟩
      · cases hhas
      · omega
    · show update s.chunks c contents c' lba = _
      rw [update_of_ne heq]
      exact h.has c' hc' lba hlba (Or.inl (chunkOnline_of_status (hothers c' hc' heq)))

end

/-! ## Runs -/

/-- All chunks are online, and the rows add up. -/
structure Raid5Start (sd : SrRaid5) (s : Raid5State) : Prop where
  online : ∀ c < sd.chunkNo, s.status c = .sdOnline
  parity : ∀ lba < sd.chunkBlocks, ∑ c ∈ Finset.range sd.chunkNo, s.chunks c lba = 0

/-- I/Os are of a strip at most, and no chunk fails while another one is not online. -/
def Raid5Step.Fair (sd : SrRaid5) (s : Raid5State) : Raid5Step → Prop
  | .read _ n => n ≤ sd.stripBlocks
  | .write _ data => data.length ≤ sd.stripBlocks
  | .fail chunk => ∀ i < sd.chunkNo, i ≠ chunk → s.status i = .sdOnline
  | _ => True

/-- An I/O ends in the volume. -/
def Raid5Step.Inside (sd : SrRaid5) : Raid5Step → Prop
  | .read blkno n => blkno + n ≤ sd.ssdSize
  | .write blkno data => blkno + data.length ≤ sd.ssdSize
  | _ => True

theorem Raid5Start.inv {sd : SrRaid5} {s : Raid5State} (h : Raid5Start sd s) :
    Raid5Inv sd s (sd.disk s.chunks) := by
  constructor
  · exact ⟨0, fun i hi _ => h.online i hi⟩
  · exact fun i hi => Or.inl (h.online i hi)
  · intro c hc lba hlba _
    have hdisk : ∀ col < sd.noChunk, sd.disk s.chunks (sd.layout.block lba col) =
        s.chunks (skip (sd.rowParity (lba / sd.stripBlocks)) col) lba := by
      intro col hcol
      have hrow : sd.layout.block lba col / sd.stripBlocks / sd.noChunk = lba / sd.stripBlocks :=
        Layout.row_block (l := sd.layout) hcol
      have hcol' : sd.layout.block lba col / sd.stripBlocks % sd.noChunk = col :=
        Layout.col_block (l := sd.layout) hcol
      have hlba' := @Layout.lba_block sd.layout lba col hcol
      show s.chunks (sd.chunk (sd.layout.block lba col / sd.stripBlocks))
        (sd.layout.lba (sd.layout.block lba col)) = _
      rw [SrRaid5.chunk_eq, hrow, hcol', hlba']
    unfold SrRaid5.virt
    dsimp only
    by_cases hparity : c = sd.rowParity (lba / sd.stripBlocks)
    · have hsum := h.parity lba hlba
      rw [sd.chunkNo_eq, sum_range_skip (sd.rowParity_le (lba / sd.stripBlocks))] at hsum
      rw [if_pos hparity, hparity, eq_of_add_eq_zero_self Block.add_self hsum]
      exact Finset.sum_congr rfl fun col hcol => (hdisk col (Finset.mem_range.mp hcol)).symm
    · rw [if_neg hparity, hdisk, skip_unskip hparity]
      rw [sd.chunkNo_eq] at hc
      exact unskip_lt (sd.rowParity_le _) hc hparity

section

variable {sd : SrRaid5} {s s' : Raid5State} {disk : Disk}

theorem Raid5Inv.step (h : Raid5Inv sd s disk) {e : Raid5Step} (hfair : e.Fair sd s)
    (hin : e.Inside sd) (hstep : raid5Step sd s e = some s') :
    Raid5Inv sd s' (disk.after Raid5Step.written [e]) := by
  cases e with
  | read blkno n =>
    obtain ⟨_, -, rfl⟩ := Option.map_eq_some_iff.mp hstep
    exact h
  | write blkno data => exact h.write hfair hin hstep
  | fail chunk =>
    dsimp only [raid5Step] at hstep
    split at hstep
    · cases hstep
      exact h.fail hfair
    · cases hstep
  | replace chunk contents =>
    dsimp only [raid5Step] at hstep
    split at hstep
    next hoff =>
      cases hstep
      exact h.replace hoff.1 hoff.2
    next => cases hstep
  | rebuildStrip => exact h.rebuildStrip hstep
  | rebuildDone => exact h.rebuildDone hstep

theorem Raid5Inv.run {es : List Raid5Step}
    (hrun : Run (raid5Step sd) (fun s e => e.Fair sd s ∧ e.Inside sd) s es s') :
    ∀ {disk : Disk}, Raid5Inv sd s disk → Raid5Inv sd s' (disk.after Raid5Step.written es) := by
  induction hrun with
  | nil s => exact fun h => h
  | cons hok hstep _ ih =>
    intro disk h
    rw [Disk.after_cons]
    exact ih (h.step hok.1 hok.2 hstep)

theorem Raid5Inv.read (h : Raid5Inv sd s disk) {blkno n : Nat} (hn : 0 < n)
    (hin : blkno + n ≤ sd.ssdSize) :
    srRaid5Read sd s blkno n = some ((List.range n).map fun i => disk (blkno + i)) := by
  have hcov : Covers sd.layout blkno n (ioStrips sd.stripBits sd.noChunk blkno n) :=
    strips_covers sd.noChunk_pos sd.stripBits_ge (Nat.le_refl _)
  unfold srRaid5Read
  rw [if_pos (h.validate hn hin)]
  exact h.readStrips hcov hin

end

/-- As long as all I/Os end in the volume, it is one disk.  Neither reads nor writes are refused,
    and no two strips share a place or are on the parity chunk of their row. -/
theorem raid5_run_disk (sd : SrRaid5) {s s' : Raid5State} {es : List Raid5Step}
    (hstart : Raid5Start sd s)
    (hrun : Run (raid5Step sd) (fun s e => e.Fair sd s ∧ e.Inside sd) s es s') :
    (∀ blkno n, 0 < n → blkno + n ≤ sd.ssdSize →
      srRaid5Read sd s' blkno n =
        some ((List.range n).map fun i => (sd.disk s.chunks).after Raid5Step.written es (blkno + i))) ∧
    (∀ blkno data, data ≠ [] → blkno + data.length ≤ sd.ssdSize →
      (srRaid5WriteIo sd s' blkno data).isSome) ∧
    (∀ x y, sd.chunk x = sd.chunk y → sd.chunkOffs x = sd.chunkOffs y → x = y) ∧
    ∀ x, sd.chunk x < sd.chunkNo ∧ sd.chunk x ≠ sd.parity x := by
  have h := hstart.inv.run hrun
  refine ⟨fun blkno n hn hin => h.read hn hin, ?_, ?_, ?_⟩
  · intro blkno data hdata hin
    unfold srRaid5WriteIo
    rw [if_pos (h.validate (length_pos_iff.mpr hdata) hin)]
    rfl
  · exact fun x y => sd.strip_unique
  · exact fun x => ⟨sd.chunk_lt x, sd.chunk_ne_parity x⟩

/-- Three chunks of one sector that is used, and a spare one. -/
def smallRaid5 : SrRaid5 where
  chunkNo := 3
  stripBits := 9
  coercedSize := 1
  chunkNo_ge := by decide
  stripBits_ge := Nat.le_refl devBshift

def zeroRaid5 : Raid5State :=
  { status := fun _ => .sdOnline
    chunks := fun _ _ => 0
    stripNo := 0 }

theorem zeroRaid5_start : Raid5Start smallRaid5 zeroRaid5 where
  online := fun _ _ => rfl
  parity := fun _ _ => Finset.sum_const_zero

/-- A chunk fails and is rebuilt between two writes. -/
theorem raid5_run_disk_rebuilt :
    ∃ s', Run (raid5Step smallRaid5) (fun s e => e.Fair smallRaid5 s ∧ e.Inside smallRaid5) zeroRaid5
      [.write 0 [fun _ => ⟨1⟩], .fail 0, .write 1 [fun _ => ⟨2⟩], .replace 0 fun _ => fun _ => ⟨3⟩,
        .rebuildStrip, .rebuildDone] s' ∧
      srRaid5Read smallRaid5 s' 0 2 = some [fun _ => ⟨1⟩, fun _ => ⟨2⟩] := by
  have hfit : [(fun _ => ⟨1⟩ : Block)].length ≤ smallRaid5.stripBlocks := by decide
  have hin : 0 + 1 ≤ smallRaid5.ssdSize ∧ 1 + 1 ≤ smallRaid5.ssdSize := by decide
  have hrun : ∃ s', Run (raid5Step smallRaid5)
      (fun s e => e.Fair smallRaid5 s ∧ e.Inside smallRaid5) zeroRaid5
      [.write 0 [fun _ => ⟨1⟩], .fail 0, .write 1 [fun _ => ⟨2⟩], .replace 0 fun _ => fun _ => ⟨3⟩,
        .rebuildStrip, .rebuildDone] s' :=
    ⟨_, Run.cons ⟨hfit, hin.1⟩ rfl (Run.cons ⟨fun _ _ _ => rfl, trivial⟩ rfl
      (Run.cons ⟨hfit, hin.2⟩ rfl (Run.cons ⟨trivial, trivial⟩ rfl
      (Run.cons ⟨trivial, trivial⟩ rfl (Run.cons ⟨trivial, trivial⟩ rfl (Run.nil _))))))⟩
  obtain ⟨s', hrun⟩ := hrun
  exact ⟨s', hrun, (raid5_run_disk smallRaid5 zeroRaid5_start hrun).1 0 2 (by decide) (by decide)⟩

/-! ## A sector behind the volume -/

/-- A volume of two sectors takes a write to sector 2, in a row that the rebuild leaves out.  It is
    read back as what was on the new chunk. -/
theorem rebuild_loses_last :
    Raid5Start smallRaid5 zeroRaid5 ∧
    ∃ es s', Run (raid5Step smallRaid5) (fun s e => e.Fair smallRaid5 s) zeroRaid5 es s' ∧
      (smallRaid5.disk zeroRaid5.chunks).after Raid5Step.written es 2 = (fun _ => ⟨1⟩) ∧
      srRaid5Read smallRaid5 s' 2 1 = some [0] ∧ (0 : Block) ≠ fun _ => ⟨1⟩ := by
  have hfit : [(fun _ => ⟨1⟩ : Block)].length ≤ smallRaid5.stripBlocks := by decide
  refine ⟨zeroRaid5_start,
    [.write 2 [fun _ => ⟨1⟩], .fail 0, .replace 0 fun _ => 0, .rebuildStrip, .rebuildDone], _,
    Run.cons hfit rfl (Run.cons (fun _ _ _ => rfl) rfl (Run.cons trivial rfl (Run.cons trivial rfl
      (Run.cons trivial rfl (Run.nil _))))), rfl, rfl, ?_⟩
  intro h
  exact absurd (congrArg XorWord.bits (congrFun h 0)) (by decide)

end OpenBsd.Dev
