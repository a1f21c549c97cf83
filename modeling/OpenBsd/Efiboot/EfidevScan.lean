/-
  OpenBsd.Efiboot.EfidevScan

  What the scan of `findopenbsd_gpt` does on an entry array of any size and any
  number of entries.

  Entry `k` is the one that the scan looks at after `k` others.  `gh_part_num` is compared
  in front of a block only, with a count that wraps at 2^32, so entries behind it are looked
  at, and the loop may go on for ever.
-/

import OpenBsd.Efiboot.Efidev

namespace OpenBsd.Efiboot

open OpenBsd.Lib
open OpenBsd.Disklabel

/-! ## One block -/

section

variable (gh : GptHeader) (buf : List UInt8)

def gptSecoffset (i : Nat) : Nat := gh.ghPartSize.toNat * i

/-- `memcmp(&gp->gp_type, openbsd_uuid, sizeof(struct uuid)) == 0` -/
def typeMatches (i : Nat) : Prop := Uuid.codec.dec (buf.drop (gptSecoffset gh i)) = openbsdUuid

/-- `gp->gp_lba_start` -/
def lbaStart (i : Nat) : UInt64 := (GptPartition.codec.dec (buf.drop (gptSecoffset gh i))).gpLbaStart

/-- An entry that is compared inside `buf` and passed by. -/
def PassedBy (i : Nat) : Prop := gptSecoffset gh i + 16 ≤ devBsize ∧ ¬ typeMatches gh buf i

theorem gptScanBlock_succ (n i : Nat) :
    gptScanBlock gh buf (n + 1) i =
      if devBsize < gptSecoffset gh i + 16 then .undef
      else if Uuid.codec.dec (buf.drop (gptSecoffset gh i)) = openbsdUuid then
        if devBsize < gptSecoffset gh i + 40 then .undef else .val (some (lbaStart gh buf i)) none
      else gptScanBlock gh buf n (i + 1) := by
  rfl

/-- How the scan of a block ends at entry `k`. -/
def BlockEnd (r : Ret (Option UInt64)) (k : Nat) : Prop :=
  (r = .undef ∧ (devBsize < gptSecoffset gh k + 16 ∨
      (gptSecoffset gh k + 16 ≤ devBsize ∧ typeMatches gh buf k ∧
        devBsize < gptSecoffset gh k + 40))) ∨
    (r = .val (some (lbaStart gh buf k)) none ∧ gptSecoffset gh k + 40 ≤ devBsize ∧
      typeMatches gh buf k)

/-- The scan of one block: where it ends, and that it passed by all before. -/
theorem gptScanBlock_cases (n i : Nat) :
    (gptScanBlock gh buf n i = .val none none ∧ ∀ j, i ≤ j → j < i + n → PassedBy gh buf j) ∨
      ∃ k, i ≤ k ∧ k < i + n ∧ (∀ j, i ≤ j → j < k → PassedBy gh buf j) ∧
        BlockEnd gh buf (gptScanBlock gh buf n i) k := by
  induction n generalizing i with
  | zero =>
    left
    refine ⟨rfl, ?_⟩
    intro j hij hji
    omega
  | succ n ih =>
    rw [gptScanBlock_succ]
    have hnone : ∀ j, i ≤ j → j < i → PassedBy gh buf j := by
      intro j hij hji
      omega
    by_cases hout : devBsize < gptSecoffset gh i + 16
    · right
      rw [if_pos hout]
      exact ⟨i, Nat.le_refl i, by omega, hnone, Or.inl ⟨rfl, Or.inl hout⟩⟩
    · have hin : gptSecoffset gh i + 16 ≤ devBsize := Nat.not_lt.mp hout
      rw [if_neg hout]
      by_cases htype : Uuid.codec.dec (buf.drop (gptSecoffset gh i)) = openbsdUuid
      · right
        rw [if_pos htype]
        refine ⟨i, Nat.le_refl i, by omega, hnone, ?_⟩
        by_cases hlba : devBsize < gptSecoffset gh i + 40
        · rw [if_pos hlba]
          exact Or.inl ⟨rfl, Or.inr ⟨hin, htype, hlba⟩⟩
        · rw [if_neg hlba]
          exact Or.inr ⟨rfl, Nat.not_lt.mp hlba, htype⟩
      · -- this one is passed by, and the rest is as said
        rw [if_neg htype]
        have hfirst : ∀ {m : Nat}, (∀ j, i + 1 ≤ j → j < m → PassedBy gh buf j) →
            ∀ j, i ≤ j → j < m → PassedBy gh buf j := by
          intro m hrest j hij hjm
          by_cases hj : j = i
          · rw [hj]
            exact ⟨hin, htype⟩
          · exact hrest j (by omega) hjm
        rcases ih (i + 1) with ⟨hrun, hall⟩ | ⟨k, hik, hkn, hbefore, hend⟩
        · left
          refine ⟨hrun, ?_⟩
          intro j hij hjn
          exact hfirst hall j hij (by omega)
        · right
          exact ⟨k, by omega, by omega, hfirst hbefore, hend⟩

end

/-! ## The array -/

section

variable (d : Disk) (gh : GptHeader)

/-- The read of block `s` of the entry array. -/
def arrayBlock (s : Nat) : Except IoStop (List UInt8) :=
  efidIo d (efiSectoblk d (gh.ghPartLba.toNat + s) % 2 ^ 32) 1

/-- Entry `k` is on the disk and of the OpenBSD type. -/
def EntryMatches (k : Nat) : Prop :=
  ∃ buf, arrayBlock d gh (k / gptPartspersec gh) = .ok buf ∧
    typeMatches gh buf (k % gptPartspersec gh)

/-- Entry `k` is on the disk, of the OpenBSD type and starts at LBA `v`. -/
def EntryAt (k : Nat) (v : UInt64) : Prop :=
  ∃ buf, arrayBlock d gh (k / gptPartspersec gh) = .ok buf ∧
    typeMatches gh buf (k % gptPartspersec gh) ∧ lbaStart gh buf (k % gptPartspersec gh) = v

/-- `part < gh_part_num` in front of block `s`; `part` has 32 bits. -/
def CountBelow (s : Nat) : Prop := gptPartspersec gh * s % 2 ^ 32 < gh.ghPartNum.toNat

/-- The scan comes to entry `k`: `part` is below `gh_part_num` in front of its
    block and all before, these are read, and no entry in front of `k` is of the
    OpenBSD type. -/
structure Reached (k : Nat) : Prop where
  count : ∀ s ≤ k / gptPartspersec gh, CountBelow gh s
  io : ∀ s < k / gptPartspersec gh, ∃ buf, arrayBlock d gh s = .ok buf
  type : ∀ j < k, ¬ EntryMatches d gh j

/-- Entry `k` does no harm: its block can be asked for, its type is compared
    inside the buffer, and if it is of the OpenBSD type then its start is read
    inside the buffer and it is one of the `gh_part_num` entries. -/
structure EntryHarmless (k : Nat) : Prop where
  io : arrayBlock d gh (k / gptPartspersec gh) ≠ .error .undef
  type : ∀ buf, arrayBlock d gh (k / gptPartspersec gh) = .ok buf →
    gptSecoffset gh (k % gptPartspersec gh) + 16 ≤ devBsize
  found : ∀ buf, arrayBlock d gh (k / gptPartspersec gh) = .ok buf →
    typeMatches gh buf (k % gptPartspersec gh) →
    gptSecoffset gh (k % gptPartspersec gh) + 40 ≤ devBsize ∧
      (k < gh.ghPartNum.toNat ∨ lbaStart gh buf (k % gptPartspersec gh) = -1)

/-- Something ends the scan: `part` comes to `gh_part_num`, a block is not read,
    or an entry is of the OpenBSD type. -/
def ScanEnds : Prop :=
  (∃ s, ¬ CountBelow gh s) ∨ (∃ s, ∀ buf, arrayBlock d gh s ≠ .ok buf) ∨ ∃ k, EntryMatches d gh k

/-- A result that keeps the promise: there is one, and it is -1 or the start of
    one of the `gh_part_num` entries, of the OpenBSD type. -/
def GoodResult (r : Ret UInt64) : Prop :=
  r ≠ .undef ∧ ∀ v err, r = .val v err → v ≠ -1 → ∃ k < gh.ghPartNum.toNat, EntryAt d gh k v

/-- A block that the loop goes through and leaves behind. -/
def BlockPassed (s : Nat) : Prop :=
  CountBelow gh s ∧
    ∃ buf, arrayBlock d gh s = .ok buf ∧ ∀ i < gptPartspersec gh, PassedBy gh buf i

/-- How the loop ends in block `t`. -/
inductive LoopEnd (t : Nat) : Ret UInt64 → Prop where
  | count (h : ¬ CountBelow gh t) : LoopEnd t (.val (-1) none)
  | undef (hc : CountBelow gh t) (h : arrayBlock d gh t = .error .undef) : LoopEnd t .undef
  | status (hc : CountBelow gh t) (h : arrayBlock d gh t = .error .status) :
      LoopEnd t (.val (-1) (some "I/O Error\n"))
  | outside (hc : CountBelow gh t) {buf i} (h : arrayBlock d gh t = .ok buf)
      (hi : i < gptPartspersec gh) (hpass : ∀ j < i, PassedBy gh buf j)
      (hout : devBsize < gptSecoffset gh i + 16 ∨
        (gptSecoffset gh i + 16 ≤ devBsize ∧ typeMatches gh buf i ∧
          devBsize < gptSecoffset gh i + 40)) : LoopEnd t .undef
  | found (hc : CountBelow gh t) {buf i} (h : arrayBlock d gh t = .ok buf)
      (hi : i < gptPartspersec gh) (hpass : ∀ j < i, PassedBy gh buf j)
      (hin : gptSecoffset gh i + 40 ≤ devBsize) (hm : typeMatches gh buf i) :
      LoopEnd t (.val (lbaStart gh buf i) none)

end

section

variable {d : Disk} {gh : GptHeader}

theorem countBelow_iff {s part : Nat} (hpart : part = gptPartspersec gh * s % 2 ^ 32) :
    CountBelow gh s ↔ part < gh.ghPartNum.toNat := by
  rw [hpart]
  rfl

/-- The loop from block `s` on: it goes on for all the turns given, or ends in a
    block, and the blocks before were passed. -/
theorem gptScanBlocks_cases (hsize : gh.ghPartSize ≠ 0) (n s part : Nat)
    (hpart : part = gptPartspersec gh * s % 2 ^ 32) :
    (gptScanBlocks d gh n part (gh.ghPartLba.toNat + s) = none ∧
        ∀ u, s ≤ u → u < s + n → BlockPassed d gh u) ∨
      ∃ t r, gptScanBlocks d gh n part (gh.ghPartLba.toNat + s) = some r ∧
        s ≤ t ∧ t < s + n ∧ (∀ u, s ≤ u → u < t → BlockPassed d gh u) ∧ LoopEnd d gh t r := by
  induction n generalizing s part with
  | zero =>
    left
    refine ⟨rfl, ?_⟩
    intro u hsu hus
    omega
  | succ n ih =>
    have hnone : ∀ u, s ≤ u → u < s → BlockPassed d gh u := by
      intro u hsu hus
      omega
    rw [gptScanBlocks]
    by_cases hc : CountBelow gh s
    · rw [if_pos ((countBelow_iff hpart).mp hc)]
      cases hblk : arrayBlock d gh s with
      | error e =>
        right
        rw [arrayBlock] at hblk
        cases e with
        | status =>
          refine ⟨s, _, ?_, Nat.le_refl s, by omega, hnone, LoopEnd.status hc hblk⟩
          rw [hblk]
        | undef =>
          refine ⟨s, _, ?_, Nat.le_refl s, by omega, hnone, LoopEnd.undef hc hblk⟩
          rw [hblk]
      | ok buf =>
        have hread := hblk
        rw [arrayBlock] at hread
        rw [hread]
        dsimp only
        rw [if_neg hsize]
        rcases gptScanBlock_cases gh buf (gptPartspersec gh) 0 with
          ⟨hrun, hall⟩ | ⟨i, -, hi, hbefore, hend⟩
        · -- the block is passed: the rest of the run
          rw [hrun]
          dsimp only
          have hstep : (part + gptPartspersec gh) % 2 ^ 32
              = gptPartspersec gh * (s + 1) % 2 ^ 32 := by
            rw [hpart, Nat.mod_add_mod, Nat.mul_succ]
          have hs : BlockPassed d gh s :=
            ⟨hc, buf, hblk, fun i hi => hall i (Nat.zero_le i) (by omega)⟩
          have hfirst : ∀ {m : Nat}, (∀ u, s + 1 ≤ u → u < m → BlockPassed d gh u) →
              ∀ u, s ≤ u → u < m → BlockPassed d gh u := by
            intro m hrest u hsu hum
            by_cases hu : u = s
            · rw [hu]
              exact hs
            · exact hrest u (by omega) hum
          rcases ih (s + 1) _ hstep with ⟨hrest, hpassed⟩ | ⟨t, r, hrest, hst, htn, hpassed, hend⟩
          · left
            refine ⟨hrest, ?_⟩
            intro u hsu hun
            exact hfirst hpassed u hsu (by omega)
          · right
            exact ⟨t, r, hrest, by omega, by omega, hfirst hpassed, hend⟩
        · -- the loop ends at entry `i` of this block
          right
          have hpass : ∀ j < i, PassedBy gh buf j := fun j hj => hbefore j (Nat.zero_le j) hj
          rw [Nat.zero_add] at hi
          rcases hend with ⟨hrun, hout⟩ | ⟨hrun, hin, hm⟩
          · refine ⟨s, .undef, ?_, Nat.le_refl s, by omega, hnone,
              LoopEnd.outside hc hblk hi hpass hout⟩
            rw [hrun]
          · refine ⟨s, .val (lbaStart gh buf i) none, ?_, Nat.le_refl s, by omega, hnone,
              LoopEnd.found hc hblk hi hpass hin hm⟩
            rw [hrun]
    · right
      rw [if_neg fun h => hc ((countBelow_iff hpart).mpr h)]
      exact ⟨s, _, rfl, Nat.le_refl s, by omega, hnone, LoopEnd.count hc⟩

theorem arrayBlock_mod (d : Disk) (gh : GptHeader) (s : Nat) :
    arrayBlock d gh (s % 2 ^ 32) = arrayBlock d gh s := by
  have hdvd : (2 : Nat) ^ 32 ∣ 2 ^ 64 := by decide
  have hsum : (gh.ghPartLba.toNat + s % 2 ^ 32) * efiBlkspersec d % 2 ^ 32
      = (gh.ghPartLba.toNat + s) * efiBlkspersec d % 2 ^ 32 := by
    rw [Nat.mul_mod, Nat.add_mod_mod, ← Nat.mul_mod]
  rw [arrayBlock, arrayBlock, efiSectoblk, efiSectoblk, Nat.mod_mod_of_dvd _ hdvd,
    Nat.mod_mod_of_dvd _ hdvd, hsum]

theorem countBelow_mod (gh : GptHeader) (s : Nat) : CountBelow gh (s % 2 ^ 32) ↔ CountBelow gh s := by
  rw [CountBelow, CountBelow, Nat.mul_mod_mod]

theorem entryMatches_of {s i : Nat} {buf : List UInt8} (hi : i < gptPartspersec gh)
    (h : arrayBlock d gh s = .ok buf) :
    EntryMatches d gh (gptPartspersec gh * s + i) ↔ typeMatches gh buf i := by
  have hdiv : (gptPartspersec gh * s + i) / gptPartspersec gh = s := by
    rw [Nat.mul_add_div (by omega), Nat.div_eq_of_lt hi, Nat.add_zero]
  have hmod : (gptPartspersec gh * s + i) % gptPartspersec gh = i := by
    rw [Nat.mul_add_mod, Nat.mod_eq_of_lt hi]
  rw [EntryMatches, hdiv, hmod]
  constructor
  · rintro ⟨buf', h', hm⟩
    rw [h] at h'
    injection h' with h'
    rw [h']
    exact hm
  · intro hm
    exact ⟨buf, h, hm⟩

theorem BlockPassed.not_matches {k : Nat} (hpos : 0 < gptPartspersec gh)
    (h : BlockPassed d gh (k / gptPartspersec gh)) : ¬ EntryMatches d gh k := by
  obtain ⟨-, buf, hblk, hall⟩ := h
  rintro ⟨buf', h', hm⟩
  rw [hblk] at h'
  injection h' with h'
  subst h'
  exact (hall _ (Nat.mod_lt _ hpos)).2 hm

variable {t : Nat}

/-- An entry behind passed blocks and behind passed entries of its own is
    reached. -/
theorem reached_of {i : Nat} (hi : i < gptPartspersec gh) (hc : CountBelow gh t)
    (hpassed : ∀ u < t, BlockPassed d gh u)
    (hpass : ∀ buf, arrayBlock d gh t = .ok buf → ∀ j < i, PassedBy gh buf j) :
    Reached d gh (gptPartspersec gh * t + i) := by
  have hpos : 0 < gptPartspersec gh := by omega
  have hdiv : (gptPartspersec gh * t + i) / gptPartspersec gh = t := by
    rw [Nat.mul_add_div hpos, Nat.div_eq_of_lt hi, Nat.add_zero]
  constructor
  · rw [hdiv]
    intro u hu
    rcases Nat.lt_or_eq_of_le hu with hlt | heq
    · exact (hpassed u hlt).1
    · rw [heq]
      exact hc
  · rw [hdiv]
    intro u hu
    obtain ⟨-, buf, hblk, -⟩ := hpassed u hu
    exact ⟨buf, hblk⟩
  · intro j hj
    by_cases hlt : j / gptPartspersec gh < t
    · exact (hpassed _ hlt).not_matches hpos
    · -- `j` lies in block `t`, in front of `i`
      have heq : j / gptPartspersec gh = t := by
        have hle : j / gptPartspersec gh ≤ (gptPartspersec gh * t + i) / gptPartspersec gh :=
          Nat.div_le_div_right hj.le
        omega
      have hsplit := Nat.div_add_mod j (gptPartspersec gh)
      rw [heq] at hsplit
      rintro ⟨buf, hblk, hm⟩
      rw [heq] at hblk
      exact (hpass buf hblk _ (by omega)).2 hm

theorem not_scanEnds (hpos : 0 < gptPartspersec gh) (h : ∀ s < 2 ^ 32, BlockPassed d gh s) :
    ¬ ScanEnds d gh := by
  -- all blocks are like one of the first 2^32
  have hall : ∀ s, BlockPassed d gh s := by
    intro s
    obtain ⟨hc, buf, hblk, hpass⟩ := h (s % 2 ^ 32) (Nat.mod_lt _ (by decide))
    rw [arrayBlock_mod] at hblk
    exact ⟨(countBelow_mod gh s).mp hc, buf, hblk, hpass⟩
  rintro (⟨s, hs⟩ | ⟨s, hs⟩ | ⟨k, hk⟩)
  · exact hs (hall s).1
  · obtain ⟨-, buf, hblk, -⟩ := hall s
    exact hs buf hblk
  · exact (hall _).not_matches hpos hk

variable {r : Ret UInt64}

theorem LoopEnd.scanEnds (h : LoopEnd d gh t r) (hr : r ≠ .undef) :
    ScanEnds d gh := by
  cases h with
  | count h => exact Or.inl ⟨t, h⟩
  | undef => exact absurd rfl hr
  | status hc h =>
    refine Or.inr (Or.inl ⟨t, ?_⟩)
    intro buf hbuf
    rw [h] at hbuf
    cases hbuf
  | outside => exact absurd rfl hr
  | @found hc buf i h hi hpass hin hm =>
    exact Or.inr (Or.inr ⟨_, (entryMatches_of hi h).mpr hm⟩)

/-- A loop that ends well has met entries that do no harm, and only these. -/
theorem LoopEnd.harmless (hpos : 0 < gptPartspersec gh)
    (h : LoopEnd d gh t r) (hpassed : ∀ u < t, BlockPassed d gh u) (hgood : GoodResult d gh r)
    {k : Nat} (hk : Reached d gh k) : EntryHarmless d gh k := by
  -- an entry of a passed block is only compared
  by_cases hlt : k / gptPartspersec gh < t
  · obtain ⟨-, buf, hblk, hall⟩ := hpassed _ hlt
    have hpass := hall _ (Nat.mod_lt k hpos)
    constructor
    · rw [hblk]
      intro h'
      cases h'
    · intro _ _
      exact hpass.1
    · intro buf' h' hm
      rw [hblk] at h'
      injection h' with h'
      rw [← h'] at hm
      exact absurd hm hpass.2
  have hsplit := Nat.div_add_mod k (gptPartspersec gh)
  cases h with
  | count h => exact absurd (hk.count t (Nat.not_lt.mp hlt)) h
  | undef hc h => exact absurd rfl hgood.1
  | outside => exact absurd rfl hgood.1
  | status hc h =>
    -- this block is not read, so none behind it is reached
    have heq : k / gptPartspersec gh = t := by
      by_contra hne
      obtain ⟨buf, hbuf⟩ := hk.io t (by omega)
      rw [h] at hbuf
      cases hbuf
    constructor
    · rw [heq, h]
      intro h'
      cases h'
    all_goals
      intro buf hbuf
      rw [heq, h] at hbuf
      cases hbuf
  | @found hc buf i h hi hpass hin hm =>
    have hmatch : EntryMatches d gh (gptPartspersec gh * t + i) := (entryMatches_of hi h).mpr hm
    -- no entry behind the one that is found is reached
    have hle : k ≤ gptPartspersec gh * t + i := by
      by_contra hgt
      exact hk.type _ (Nat.not_le.mp hgt) hmatch
    have heq : k / gptPartspersec gh = t := by
      have hdiv := Nat.div_le_div_right (c := gptPartspersec gh) hle
      rw [Nat.mul_add_div hpos, Nat.div_eq_of_lt hi, Nat.add_zero] at hdiv
      omega
    rw [heq] at hsplit
    have hki : k % gptPartspersec gh ≤ i := by omega
    constructor
    · rw [heq, h]
      intro h'
      cases h'
    · intro buf' h'
      rw [heq, h] at h'
      injection h' with h'
      rcases Nat.lt_or_eq_of_le hki with hlt' | heq'
      · exact (hpass _ hlt').1
      · rw [heq']
        omega
    · intro buf' h' hm'
      rw [heq, h] at h'
      injection h' with h'
      rw [← h'] at hm' ⊢
      have hi' : k % gptPartspersec gh = i := by
        rcases Nat.lt_or_eq_of_le hki with hlt' | heq'
        · exact absurd hm' (hpass _ hlt').2
        · exact heq'
      rw [hi']
      refine ⟨hin, ?_⟩
      by_cases hv : lbaStart gh buf i = -1
      · exact Or.inr hv
      · -- the value is the start of an entry below `gh_part_num`; none in front of `k` is
        -- of the type
        obtain ⟨k', hk', buf', hbuf', hm'', -⟩ := hgood.2 _ _ rfl hv
        left
        by_contra hge
        exact hk.type k' (by omega) ⟨buf', hbuf', hm''⟩

/-- A loop that meets only entries that do no harm ends well. -/
theorem LoopEnd.good (hpos : 0 < gptPartspersec gh)
    (h : LoopEnd d gh t r) (hpassed : ∀ u < t, BlockPassed d gh u)
    (hharm : ∀ k, Reached d gh k → EntryHarmless d gh k) : GoodResult d gh r := by
  have hminus : ∀ err, GoodResult d gh (.val (-1) err) := by
    intro err
    refine ⟨(by rintro ⟨⟩), ?_⟩
    intro v err' hr hv
    injection hr with hr
    exact absurd hr.symm hv
  have hdiv : ∀ {i}, i < gptPartspersec gh →
      (gptPartspersec gh * t + i) / gptPartspersec gh = t := by
    intro i hi
    rw [Nat.mul_add_div hpos, Nat.div_eq_of_lt hi, Nat.add_zero]
  have hmod : ∀ {i}, i < gptPartspersec gh →
      (gptPartspersec gh * t + i) % gptPartspersec gh = i := by
    intro i hi
    rw [Nat.mul_add_mod, Nat.mod_eq_of_lt hi]
  -- the entry at which the loop ended was reached
  have hreach : ∀ {buf i}, CountBelow gh t → arrayBlock d gh t = .ok buf →
      i < gptPartspersec gh → (∀ j < i, PassedBy gh buf j) →
      EntryHarmless d gh (gptPartspersec gh * t + i) := by
    intro buf i hc hblk hi hpass
    refine hharm _ (reached_of hi hc hpassed ?_)
    intro buf' h'
    rw [hblk] at h'
    injection h' with h'
    rw [← h']
    exact hpass
  cases h with
  | count h => exact hminus _
  | status hc h => exact hminus _
  | undef hc h =>
    have hr : Reached d gh (gptPartspersec gh * t + 0) :=
      reached_of hpos hc hpassed fun _ _ j hj => absurd hj (Nat.not_lt_zero j)
    have hio := (hharm _ hr).io
    rw [hdiv hpos] at hio
    exact absurd h hio
  | @outside hc buf i h hi hpass hout =>
    have harm := hreach hc h hi hpass
    have htype := harm.type buf (by rw [hdiv hi, h])
    have hfound := harm.found buf (by rw [hdiv hi, h])
    rw [hmod hi] at htype hfound
    rcases hout with hout | ⟨-, hm, hout⟩
    · omega
    · have := (hfound hm).1
      omega
  | @found hc buf i h hi hpass hin hm =>
    have harm := hreach hc h hi hpass
    have hfound := harm.found buf (by rw [hdiv hi, h])
    rw [hmod hi] at hfound
    refine ⟨(by rintro ⟨⟩), ?_⟩
    intro v err hr hv
    injection hr with hr
    rcases (hfound hm).2 with hlt | hneg
    · refine ⟨_, hlt, buf, ?_⟩
      rw [hdiv hi, hmod hi]
      exact ⟨h, hm, hr⟩
    · rw [hr] at hneg
      exact absurd hneg hv

/-- The loop as a whole: it ends, and well, exactly when something ends it and
    all the entries that it comes to do no harm. -/
theorem gptScanBlocks_good_iff (hsize : gh.ghPartSize ≠ 0) (hle : gh.ghPartSize.toNat ≤ devBsize) :
    GoodResult d gh ((gptScanBlocks d gh (2 ^ 32) 0 gh.ghPartLba.toNat).getD .undef) ↔
      ScanEnds d gh ∧ ∀ k, Reached d gh k → EntryHarmless d gh k := by
  have hpos : 0 < gptPartspersec gh := by
    have hne : gh.ghPartSize.toNat ≠ 0 := by
      intro h
      exact hsize (UInt32.toNat_inj.mp h)
    exact Nat.div_pos hle (Nat.pos_of_ne_zero hne)
  have hrun := gptScanBlocks_cases (d := d) hsize (2 ^ 32) 0 0 (by rw [Nat.mul_zero, Nat.zero_mod])
  rw [Nat.add_zero] at hrun
  rcases hrun with ⟨hrun, hpassed⟩ | ⟨t, r, hrun, -, -, hpassed, hend⟩
  · -- the loop is never left
    rw [hrun]
    constructor
    · intro hgood
      exact absurd rfl hgood.1
    · rintro ⟨hends, -⟩
      refine absurd hends (not_scanEnds hpos ?_)
      intro s hs
      exact hpassed s (Nat.zero_le s) (by omega)
  · have hpassed' : ∀ u < t, BlockPassed d gh u := fun u hu => hpassed u (Nat.zero_le u) hu
    rw [hrun]
    constructor
    · intro hgood
      exact ⟨hend.scanEnds hgood.1, fun k hk => hend.harmless hpos hpassed' hgood hk⟩
    · rintro ⟨-, hharm⟩
      exact hend.good hpos hpassed' hharm

/-! ## The header -/

/-- The header passes the tests in front of the loop. -/
structure HeaderTaken (d : Disk) (gh : GptHeader) : Prop where
  sig : gh.ghSig = gptsignature
  partSize : gh.ghPartSize.toNat ≤ devBsize
  lbaStart : gh.ghLbaStart.toNat < d.size - 1
  partLba : gh.ghPartLba < gh.ghLbaStart
  partNum : (gh.ghPartNum * gh.ghPartSize).toNat / d.secsize ≤ (gh.ghLbaStart - gh.ghPartLba).toNat

/-- What the loop needs behind a header that is taken. -/
structure ArrayHarmless (d : Disk) (gh : GptHeader) : Prop where
  /-- `GPT_PARTSPERSEC` is not evaluated with a size of 0 -/
  zero : gh.ghPartSize = 0 → gh.ghPartNum = 0 ∨ arrayBlock d gh 0 = .error .status
  ends : gh.ghPartSize ≠ 0 → ScanEnds d gh
  entry : gh.ghPartSize ≠ 0 → ∀ k, Reached d gh k → EntryHarmless d gh k

/-- The read of LBA 1. -/
def headerBlock (d : Disk) : Except IoStop (List UInt8) := efidIo d (efiSectoblk d 1 % 2 ^ 32) 1

/-- `findopenbsd_gpt` ends, divides by no zero, reads inside `buf`, and returns
    -1 or the start of one of the `gh_part_num` entries, of the OpenBSD type. -/
def GptRobust (d : Disk) : Prop :=
  ∃ buf, headerBlock d = .ok buf ∧ GoodResult d (GptHeader.codec.dec buf) (findopenbsdGpt d)

theorem goodResult_minus (d : Disk) (gh : GptHeader) (err : Option String) :
    GoodResult d gh (.val (-1) err) := by
  refine ⟨(by rintro ⟨⟩), ?_⟩
  intro v err' hr hv
  injection hr with hr
  exact absurd hr.symm hv

/-- Without a loop a size of 0 comes to nothing; with one it divides, unless the
    first block is not read. -/
theorem gptScanBlocks_zero (d : Disk) (gh : GptHeader) (hsize : gh.ghPartSize = 0) :
    GoodResult d gh ((gptScanBlocks d gh (2 ^ 32) 0 gh.ghPartLba.toNat).getD .undef) ↔
      gh.ghPartNum = 0 ∨ arrayBlock d gh 0 = .error .status := by
  rw [show (2 : Nat) ^ 32 = (2 ^ 32 - 1) + 1 by decide, gptScanBlocks]
  by_cases hnum : gh.ghPartNum = 0
  · have hstop : ¬ 0 < gh.ghPartNum.toNat := by
      rw [hnum]
      decide
    rw [if_neg hstop]
    exact ⟨fun _ => Or.inl hnum, fun _ => goodResult_minus d gh none⟩
  · have hgo : 0 < gh.ghPartNum.toNat := by
      rw [Nat.pos_iff_ne_zero]
      intro h
      exact hnum (UInt32.toNat_inj.mp h)
    rw [if_pos hgo]
    have hread : efidIo d (efiSectoblk d gh.ghPartLba.toNat % 2 ^ 32) 1 = arrayBlock d gh 0 := rfl
    rw [hread]
    cases hblk : arrayBlock d gh 0 with
    | ok buf =>
      dsimp only
      rw [if_pos hsize]
      constructor
      · intro hgood
        exact absurd rfl hgood.1
      · rintro (h | h)
        · exact absurd h hnum
        · cases h
    | error e =>
      cases e with
      | status => exact ⟨fun _ => Or.inr rfl, fun _ => goodResult_minus d gh _⟩
      | undef =>
        constructor
        · intro hgood
          exact absurd rfl hgood.1
        · rintro (h | h)
          · exact absurd h hnum
          · cases h

/-- The tests in front of the loop. -/
theorem findopenbsdGpt_cases {d : Disk} {buf : List UInt8} (hread : headerBlock d = .ok buf) :
    (¬ HeaderTaken d (GptHeader.codec.dec buf) ∧ ∃ err, findopenbsdGpt d = .val (-1) err) ∨
      (HeaderTaken d (GptHeader.codec.dec buf) ∧ findopenbsdGpt d =
        (gptScanBlocks d (GptHeader.codec.dec buf) (2 ^ 32) 0
          (GptHeader.codec.dec buf).ghPartLba.toNat).getD .undef) := by
  rw [headerBlock] at hread
  unfold findopenbsdGpt
  rw [hread]
  dsimp only
  by_cases hsig : (GptHeader.codec.dec buf).ghSig ≠ gptsignature
  · rw [if_pos hsig]
    exact Or.inl ⟨fun h => hsig h.sig, _, rfl⟩
  rw [if_neg hsig]
  by_cases hps : devBsize < (GptHeader.codec.dec buf).ghPartSize.toNat
  · rw [if_pos hps]
    exact Or.inl ⟨fun h => absurd hps (Nat.not_lt.mpr h.partSize), _, rfl⟩
  rw [if_neg hps]
  by_cases hlba : d.size - 1 ≤ (GptHeader.codec.dec buf).ghLbaStart.toNat ∨
      (GptHeader.codec.dec buf).ghLbaStart ≤ (GptHeader.codec.dec buf).ghPartLba
  · rw [if_pos hlba]
    refine Or.inl ⟨?_, _, rfl⟩
    intro h
    rcases hlba with hlba | hlba
    · exact absurd h.lbaStart (Nat.not_lt.mpr hlba)
    · exact absurd h.partLba (UInt64.not_lt.mpr hlba)
  rw [if_neg hlba]
  by_cases hnum : ((GptHeader.codec.dec buf).ghLbaStart - (GptHeader.codec.dec buf).ghPartLba).toNat
      < ((GptHeader.codec.dec buf).ghPartNum * (GptHeader.codec.dec buf).ghPartSize).toNat / d.secsize
  · rw [if_pos hnum]
    exact Or.inl ⟨fun h => absurd hnum (Nat.not_lt.mpr h.partNum), _, rfl⟩
  rw [if_neg hnum]
  rw [not_or, Nat.not_le, UInt64.not_le] at hlba
  refine Or.inr ⟨⟨not_not.mp hsig, Nat.not_lt.mp hps, hlba.1, hlba.2, Nat.not_lt.mp hnum⟩, ?_⟩
  cases gptScanBlocks d (GptHeader.codec.dec buf) (2 ^ 32) 0
    (GptHeader.codec.dec buf).ghPartLba.toNat <;> rfl

/-- `findopenbsd_gpt` is robust exactly on the disks whose header is read and, if
    the header is taken, whose array does no harm. -/
theorem findopenbsdGpt_robust_iff (d : Disk) :
    GptRobust d ↔ ∃ buf, headerBlock d = .ok buf ∧
      (HeaderTaken d (GptHeader.codec.dec buf) → ArrayHarmless d (GptHeader.codec.dec buf)) := by
  rw [GptRobust]
  apply exists_congr
  intro buf
  apply and_congr_right
  intro hread
  rcases findopenbsdGpt_cases hread with ⟨hnot, err, hrun⟩ | ⟨htaken, hrun⟩
  · rw [hrun]
    exact ⟨fun _ h => absurd h hnot, fun _ => goodResult_minus d _ err⟩
  rw [hrun]
  by_cases hsize : (GptHeader.codec.dec buf).ghPartSize = 0
  · rw [gptScanBlocks_zero d _ hsize]
    constructor
    · intro h _
      exact ⟨fun _ => h, fun hne => absurd hsize hne, fun hne => absurd hsize hne⟩
    · intro h
      exact (h htaken).zero hsize
  · rw [gptScanBlocks_good_iff hsize htaken.partSize]
    constructor
    · rintro ⟨hends, hharm⟩ _
      exact ⟨fun h => absurd h hsize, fun _ => hends, fun _ => hharm⟩
    · intro h
      exact ⟨(h htaken).ends hsize, (h htaken).entry hsize⟩

/-- A header that passes the tests with `gh_part_size` 0 and `gh_part_num` 1. -/
def sizelessHeader : GptHeader where
  ghSig := gptsignature
  ghRev := gptrevision
  ghSize := 92
  ghCsum := 0
  ghRsvd := 0
  ghLbaSelf := 1
  ghLbaAlt := 99
  ghLbaStart := 34
  ghLbaEnd := 65
  ghGuid := openbsdUuid
  ghPartLba := 2
  ghPartNum := 1
  ghPartSize := 0
  ghPartCsum := 0

/-- A disk of 100 sectors of 512 bytes with this header in each. -/
def sizelessDisk : Disk where
  secsize := devBsize
  size := 100
  sector _ := GptHeader.codec.enc sizelessHeader ++ List.replicate (devBsize - GptHeader.codec.size) 0
  secsize_pos := devBsize_pos
  secsize_dvd := Nat.dvd_refl devBsize
  size_lt := by decide
  length_sector _ := by
    rw [List.length_append, GptHeader.codec.length_enc, List.length_replicate]
    decide

theorem findopenbsdGpt_divides_by_zero :
    (∃ buf, headerBlock sizelessDisk = .ok buf ∧ GptHeader.codec.dec buf = sizelessHeader) ∧
      ¬ GptRobust sizelessDisk := by
  have hread : headerBlock sizelessDisk = .ok (sizelessDisk.sector 1) := by
    have hoff : efiSectoblk sizelessDisk 1 % 2 ^ 32 = 1 := by decide
    rw [headerBlock, hoff]
    exact efidIo_one rfl (by decide)
  have hdec : GptHeader.codec.dec (sizelessDisk.sector 1) = sizelessHeader :=
    GptHeader.codec.dec_enc ..
  refine ⟨⟨_, hread, hdec⟩, ?_⟩
  rintro ⟨buf, hbuf, hgood⟩
  rw [hread] at hbuf
  injection hbuf with hbuf
  rw [← hbuf, hdec] at hgood
  have htaken : HeaderTaken sizelessDisk sizelessHeader :=
    ⟨rfl, by decide, by decide, by decide, by decide⟩
  rcases findopenbsdGpt_cases hread with ⟨hnot, -⟩ | ⟨-, hrun⟩
  · rw [hdec] at hnot
    exact hnot htaken
  · rw [hrun, hdec, gptScanBlocks_zero sizelessDisk sizelessHeader rfl] at hgood
    rcases hgood with hnum | hstatus
    · exact absurd hnum (by decide)
    · -- LBA 2 is read
      have hblk : arrayBlock sizelessDisk sizelessHeader 0 = .ok (sizelessDisk.sector 2) := by
        have hoff : efiSectoblk sizelessDisk (sizelessHeader.ghPartLba.toNat + 0) % 2 ^ 32 = 2 := by
          decide
        rw [arrayBlock, hoff]
        exact efidIo_one rfl (by decide)
      rw [hblk] at hstatus
      cases hstatus

end

end OpenBsd.Efiboot
