/-
  OpenBsd.Kern.SubrDiskGpt

  `readgptlabel` of `sys/kern/subr_disk.c` on any label and any disk, with each
  division, checksum, copy and allocation checked.

  `d_secsize` and `DL_GETDSIZE` are those of the label and `strat` is what the driver makes
  of a block number, so sectors hold anything and reads fail anywhere.
-/

import OpenBsd.Kern.SubrDisk

namespace OpenBsd.Kern

open OpenBsd.Lib List
open OpenBsd.Disklabel

def dosLabelsector : Nat := 1

/-- What ends a run of `readgptlabel` early. -/
inductive GptStop where
  | errno (e : Errno)
  | divByZero
  /-- `crc32` over bytes behind `gh` -/
  | pastHeader
  /-- a copy of entries to behind the array -/
  | pastArray
  /-- `malloc: allocation too large` -/
  | panic
deriving DecidableEq

/-- What `readgptlabel` is called on. -/
structure GptDev where
  /-- `d_secsize` -/
  secsize : Nat
  /-- `DL_GETDSIZE` -/
  dsize : Nat
  /-- `(*strat)(bp); biowait(bp)` with this `b_blkno`, and `b_data` -/
  strat : Nat → Except Errno (List UInt8)
  /-- `malloc` with `M_NOWAIT` finds memory, for the one header or the other -/
  malloc : Bool → Bool

namespace GptDev

/-- `a / b` -/
def udiv (a b : Nat) : Except GptStop Nat := if b = 0 then .error .divByZero else .ok (a / b)

/-- `a % b` -/
def umod (a b : Nat) : Except GptStop Nat := if b = 0 then .error .divByZero else .ok (a % b)

theorem udiv_eq (a : Nat) {b : Nat} (h : b ≠ 0) : udiv a b = .ok (a / b) := if_neg h

theorem umod_eq (a : Nat) {b : Nat} (h : b ≠ 0) : umod a b = .ok (a % b) := if_neg h

section

variable (crc32 : List UInt8 → UInt32) (l : GptDev)

def blkspersec : Nat := l.secsize / devBsize

def sectoblk (n : Nat) : Nat := n * l.blkspersec

/-- The read of the sector of `part_blkno`: the bytes at `bp->b_data + offset`. -/
def readRecord (part_blkno : Nat) : Except GptStop (List UInt8) := do
  let sec ← udiv part_blkno l.blkspersec
  let rest ← umod part_blkno l.blkspersec
  match l.strat (sec * l.blkspersec) with
  | .error e => throw (.errno e)
  | .ok b_data => return b_data.drop (rest * devBsize)

/-- The loop that reads `n` more sectors of the entry array `gp`. -/
def readParts (ghpartspersec lba : Nat) :
    (n i : Nat) → List GptPartition → Except GptStop (List GptPartition)
  | 0, _, gp => .ok gp
  | n + 1, i, gp => do
      let buf ← l.readRecord (l.sectoblk (lba + i))
      -- `bcopy` to `gp + i * ghpartspersec`
      if gp.length < i * ghpartspersec + ghpartspersec then throw .pastArray
      readParts ghpartspersec lba n (i + 1)
        (gp.take (i * ghpartspersec) ++ sectorParts ghpartspersec buf ++
          gp.drop (i * ghpartspersec + ghpartspersec))

/-- `gpt_chk_hdr`; `true` is the return value 0. -/
def chkHdr (gh : GptHeader) (pad : List UInt8) : Except GptStop Bool :=
  if sizeofGptHeader < gh.ghSize.toNat then .error .pastHeader
  else .ok (crc32 ((GptHeader.codec.enc { gh with ghCsum := 0 } ++ pad).take gh.ghSize.toNat)
    = gh.ghCsum)

/-- The array `gp` behind a header that is taken. -/
def readArray (gh : GptHeader) (altheader : Bool) : Except GptStop (List GptPartition) := do
  let ghpartspersec ← udiv l.secsize gh.ghPartSize.toNat
  let ghpartnum := gh.ghPartNum.toNat
  if mallocMax < ghpartnum * sizeofGptPartition then throw .panic
  if l.malloc altheader = false then throw (.errno .enomem)
  let n ← udiv ghpartnum ghpartspersec
  l.readParts ghpartspersec gh.ghPartLba.toNat n 0 (List.replicate ghpartnum GptPartition.zero)

/-- The body of the `for` loop: `none` is `continue`. -/
def tryHeader (part_blkno : Nat) (altheader : Bool) :
    Except GptStop (Option (GptHeader × List GptPartition)) := do
  let buf ← l.readRecord part_blkno
  let gh := GptHeader.codec.dec buf
  let ghpartspersec ← udiv l.secsize gh.ghPartSize.toNat
  if gh.ghSig ≠ gptsignature then throw (.errno .einval)
  if gh.ghRev ≠ gptrevision then throw (.errno .einval)
  let good ← chkHdr crc32 gh ((buf.drop GptHeader.codec.size).take 4)
  if good = false then
    if altheader then throw (.errno .einval)
    if l.dsize ≤ gh.ghLbaAlt.toNat then throw (.errno .einval)
    return none
  if gh.ghSize.toNat < gptminhdrsize ∨ l.secsize < gh.ghSize.toNat then throw (.errno .einval)
  if l.dsize ≤ gh.ghLbaStart.toNat ∨ l.dsize ≤ gh.ghLbaEnd.toNat ∨ l.dsize ≤ gh.ghPartLba.toNat then
    throw (.errno .einval)
  if gh.ghPartSize.toNat % gptminpartsize ≠ 0 ∨ l.secsize < gh.ghPartSize.toNat ∨
      ghpartspersec = 0 then throw (.errno .einval)
  if gh.ghPartSize.toNat ≠ gptminpartsize then throw (.errno .einval)
  let gp ← l.readArray gh altheader
  if gptChkParts crc32 gh gp = false then
    if altheader then throw (.errno .einval)
    return none
  return some (gh, gp)

/-- The `for` loop, with `fuel` rounds to go: `none` when they do not suffice. -/
def headerLoop : (fuel part_blkno : Nat) → (altheader : Bool) →
    Option (Except GptStop (GptHeader × List GptPartition))
  | 0, _, _ => none
  | fuel + 1, part_blkno, altheader =>
    match l.tryHeader crc32 part_blkno altheader with
    | .error stop => some (.error stop)
    | .ok (some t) => some (.ok t)
    | .ok none => headerLoop fuel (l.sectoblk (l.dsize - 1)) true

/-- The rest of `readgptlabel`: where it places the OpenBSD partition, and the
    bytes that it passes to `checkdisklabel`, if any. -/
def placeLabel (bend : Nat) (partoffp spoofonly : Bool) (t : GptHeader × List GptPartition) :
    Except GptStop (Placement × Option (List UInt8)) := do
  let (ourpart, slots) := gptScan t.1 partoffp 0 t.2 []
  match ourpart with
  | none => return (⟨none, 0, bend, slots⟩, none)
  | some i =>
    let gp_tmp := t.2.getD i GptPartition.zero
    let place := ⟨some i, gp_tmp.gpLbaStart.toNat, (gp_tmp.gpLbaEnd + 1).toNat, slots⟩
    if spoofonly then return (place, none)
    let buf ← l.readRecord (l.sectoblk place.partoff + dosLabelsector)
    return (place, some buf)

/-- `readgptlabel`, with `fuel` rounds of its loop. -/
def readgptlabel (fuel secpercyl bend : Nat) (partoffp spoofonly : Bool) :
    Option (Except GptStop (Placement × Option (List UInt8))) :=
  if secpercyl = 0 then some (.error (.errno .einval))
  else if l.secsize = 0 then some (.error (.errno .enospc))
  else
    match l.headerLoop crc32 fuel (l.sectoblk gptsector) false with
    | none => none
    | some (.error stop) => some (.error stop)
    | some (.ok t) => some (l.placeLabel bend partoffp spoofonly t)

end

/-! ## Runs that end in an errno at worst -/

/-- The result is a value or an errno. -/
def Good {α : Type} (r : Except GptStop α) : Prop := ∀ stop, r = .error stop → ∃ e, stop = .errno e

variable {α : Type}

theorem good_ok (a : α) : Good (.ok a : Except GptStop α) := by
  rintro stop ⟨⟩

theorem good_errno (e : Errno) : Good (.error (.errno e) : Except GptStop α) := by
  rintro stop ⟨⟩
  exact ⟨e, rfl⟩

theorem not_good {stop : GptStop} (h : ∀ e, stop ≠ .errno e) :
    ¬ Good (.error stop : Except GptStop α) := by
  intro hgood
  obtain ⟨e, he⟩ := hgood stop rfl
  exact h e he

section

variable {crc32 : List UInt8 → UInt32} {l : GptDev}

/-! ## Reads -/

theorem blkspersec_ne (hle : devBsize ≤ l.secsize) : l.blkspersec ≠ 0 := by
  have hpos : 0 < l.secsize / devBsize := Nat.div_pos hle (by decide)
  rw [blkspersec]
  omega

theorem readRecord_cases (hle : devBsize ≤ l.secsize) (b : Nat) :
    (∃ e, l.readRecord b = .error (.errno e)) ∨ ∃ buf, l.readRecord b = .ok buf := by
  unfold readRecord
  rw [udiv_eq _ (blkspersec_ne hle), umod_eq _ (blkspersec_ne hle)]
  dsimp only [bind, Except.bind]
  cases l.strat (b / l.blkspersec * l.blkspersec) with
  | error e => exact Or.inl ⟨e, rfl⟩
  | ok b_data => exact Or.inr ⟨_, rfl⟩

/-- What a read leaves, if it succeeds. -/
def recordBytes (l : GptDev) (b : Nat) : List UInt8 :=
  match l.readRecord b with
  | .ok buf => buf
  | .error _ => []

variable {buf : List UInt8} {b : Nat}

theorem recordBytes_eq (h : l.readRecord b = .ok buf) :
    l.recordBytes b = buf := by
  rw [recordBytes, h]

/-! ## The array -/

/-- The reads of `n` sectors of the array from its sector `i` on succeed. -/
def PartsRead (l : GptDev) (lba n i : Nat) : Prop :=
  ∀ k < n, ∃ buf, l.readRecord (l.sectoblk (lba + (i + k))) = .ok buf

/-- The entries of `n` sectors of the array from its sector `i` on. -/
def partsOnDisk (l : GptDev) (pps lba n i : Nat) : List GptPartition :=
  (List.range n).flatMap fun k => sectorParts pps (l.recordBytes (l.sectoblk (lba + (i + k))))

theorem partsOnDisk_succ (pps lba n i : Nat) :
    l.partsOnDisk pps lba (n + 1) i
      = sectorParts pps (l.recordBytes (l.sectoblk (lba + i))) ++ l.partsOnDisk pps lba n (i + 1) := by
  rw [partsOnDisk, partsOnDisk, range_succ_eq_map, flatMap_cons, flatMap_map, Nat.add_zero]
  congr 2
  funext k
  rw [Nat.succ_eq_add_one, Nat.add_right_comm i 1 k, Nat.add_assoc i k 1]

/-- The loop stores inside the array, and comes to its end unless a read fails. -/
theorem readParts_cases (hle : devBsize ≤ l.secsize) (pps lba n i : Nat) (gp : List GptPartition)
    (hroom : (i + n) * pps ≤ gp.length) :
    (∃ e, l.readParts pps lba n i gp = .error (.errno e) ∧ ¬ PartsRead l lba n i) ∨
      (PartsRead l lba n i ∧ l.readParts pps lba n i gp
        = .ok (gp.take (i * pps) ++ l.partsOnDisk pps lba n i ++ gp.drop ((i + n) * pps))) := by
  induction n generalizing i gp with
  | zero =>
    right
    refine ⟨?_, ?_⟩
    · intro k hk
      exact absurd hk (Nat.not_lt_zero k)
    · rw [readParts, partsOnDisk, range_zero, flatMap_nil, append_nil, Nat.add_zero,
        take_append_drop]
  | succ n ih =>
    rcases readRecord_cases hle (l.sectoblk (lba + i)) with ⟨e, hread⟩ | ⟨buf, hread⟩
    · left
      refine ⟨e, ?_, ?_⟩
      · rw [readParts, hread]
        rfl
      · intro hall
        obtain ⟨buf, hbuf⟩ := hall 0 (Nat.succ_pos n)
        rw [Nat.add_zero, hread] at hbuf
        cases hbuf
    · -- the copy ends inside the array
      have hmul : (i + (n + 1)) * pps = i * pps + pps + n * pps := by
        rw [Nat.add_mul, Nat.succ_mul]
        omega
      have hin : ¬ gp.length < i * pps + pps := by omega
      have htake : (gp.take (i * pps)).length = i * pps := by
        rw [length_take]
        omega
      have hstep : l.readParts pps lba (n + 1) i gp
          = l.readParts pps lba n (i + 1) (gp.take (i * pps) ++ sectorParts pps buf ++
              gp.drop (i * pps + pps)) := by
        rw [readParts, hread]
        dsimp only [bind, Except.bind]
        rw [if_neg hin]
      have hlen : (gp.take (i * pps) ++ sectorParts pps buf ++ gp.drop (i * pps + pps)).length
          = gp.length := by
        rw [length_append, length_append, htake, length_sectorParts, length_drop]
        omega
      have hshift : ∀ k, i + 1 + k = i + (k + 1) := by
        intro k
        omega
      have hrest : (i + 1 + n) * pps = i * pps + pps + n * pps := by
        rw [← hmul, hshift]
      rw [hstep]
      rcases ih (i + 1) _ (by rw [hlen, hrest]; omega) with ⟨e, hrun, hfail⟩ | ⟨hall, hrun⟩
      · left
        refine ⟨e, hrun, ?_⟩
        intro hall
        apply hfail
        intro k hk
        rw [hshift]
        exact hall (k + 1) (by omega)
      · right
        refine ⟨?_, ?_⟩
        · intro k hk
          rcases k with _ | k
          · exact ⟨buf, hread⟩
          · rw [← hshift]
            exact hall k (by omega)
        · -- what was stored before stays, and this sector's entries follow
          have hfront : (gp.take (i * pps) ++ sectorParts pps buf ++
              gp.drop (i * pps + pps)).take ((i + 1) * pps)
              = gp.take (i * pps) ++ sectorParts pps buf := by
            apply take_left'
            rw [length_append, htake, length_sectorParts, Nat.succ_mul]
          have hback : (gp.take (i * pps) ++ sectorParts pps buf ++
              gp.drop (i * pps + pps)).drop ((i + 1 + n) * pps)
              = gp.drop ((i + (n + 1)) * pps) := by
            have hfrontLen : (gp.take (i * pps) ++ sectorParts pps buf).length = i * pps + pps := by
              rw [length_append, htake, length_sectorParts]
            rw [hrest, hmul, ← hfrontLen, ← List.drop_drop, drop_left, hfrontLen, List.drop_drop]
          rw [hrun, hfront, hback, partsOnDisk_succ, recordBytes_eq hread]
          simp only [append_assoc]

/-! ## One header -/

/-- The checksum that `gpt_chk_hdr` computes over `gh_size` bytes of the header
    in front of `buf`. -/
def headerCsum (crc32 : List UInt8 → UInt32) (buf : List UInt8) : UInt32 :=
  crc32 ((GptHeader.codec.enc { GptHeader.codec.dec buf with ghCsum := 0 } ++
    (buf.drop GptHeader.codec.size).take 4).take (GptHeader.codec.dec buf).ghSize.toNat)

/-- The tests behind the checksum. -/
structure HeaderFits (l : GptDev) (gh : GptHeader) : Prop where
  size : gptminhdrsize ≤ gh.ghSize.toNat
  lbaStart : gh.ghLbaStart.toNat < l.dsize
  lbaEnd : gh.ghLbaEnd.toNat < l.dsize
  partLba : gh.ghPartLba.toNat < l.dsize
  partSize : gh.ghPartSize.toNat = gptminpartsize

/-- The entries that `readgptlabel` has in its array behind the header `gh`. -/
def storedArray (l : GptDev) (gh : GptHeader) : List GptPartition :=
  l.partsOnDisk (l.secsize / gptminpartsize) gh.ghPartLba.toNat
      (gh.ghPartNum.toNat / (l.secsize / gptminpartsize)) 0 ++
    List.replicate (gh.ghPartNum.toNat -
      gh.ghPartNum.toNat / (l.secsize / gptminpartsize) * (l.secsize / gptminpartsize))
      GptPartition.zero

/-- The sectors of the array can be read. -/
def ArrayRead (l : GptDev) (gh : GptHeader) : Prop :=
  PartsRead l gh.ghPartLba.toNat (gh.ghPartNum.toNat / (l.secsize / gptminpartsize)) 0

/-- Behind a header that is taken: `malloc` panics, or finds no memory, or the
    array is read. -/
theorem readArray_cases (hle : devBsize ≤ l.secsize) {gh : GptHeader}
    (hps : gh.ghPartSize.toNat = gptminpartsize) (altheader : Bool) :
    (mallocMax < gh.ghPartNum.toNat * sizeofGptPartition ∧
        l.readArray gh altheader = .error .panic) ∨
      (gh.ghPartNum.toNat * sizeofGptPartition ≤ mallocMax ∧
        ((∃ e, l.readArray gh altheader = .error (.errno e) ∧
            ¬ (l.malloc altheader = true ∧ ArrayRead l gh)) ∨
          ((l.malloc altheader = true ∧ ArrayRead l gh) ∧
            l.readArray gh altheader = .ok (l.storedArray gh)))) := by
  have hne : gptminpartsize ≠ 0 := by decide
  have hpps : l.secsize / gptminpartsize ≠ 0 := by
    have hpos : 0 < l.secsize / gptminpartsize := Nat.div_pos (le_trans (by decide) hle) (by decide)
    omega
  unfold readArray
  rw [hps, udiv_eq _ hne]
  dsimp only [bind, Except.bind]
  by_cases hbig : mallocMax < gh.ghPartNum.toNat * sizeofGptPartition
  · rw [if_pos hbig]
    exact Or.inl ⟨hbig, rfl⟩
  rw [if_neg hbig]
  refine Or.inr ⟨Nat.not_lt.mp hbig, ?_⟩
  by_cases hmem : l.malloc altheader = false
  · rw [if_pos hmem]
    refine Or.inl ⟨.enomem, rfl, ?_⟩
    rintro ⟨h, -⟩
    rw [hmem] at h
    cases h
  rw [if_neg hmem, udiv_eq _ hpps]
  dsimp only
  -- whole sectors of entries do not exceed the count
  have hroom : (0 + gh.ghPartNum.toNat / (l.secsize / gptminpartsize)) * (l.secsize / gptminpartsize)
      ≤ (List.replicate gh.ghPartNum.toNat GptPartition.zero).length := by
    rw [length_replicate, Nat.zero_add]
    exact Nat.div_mul_le_self ..
  rcases readParts_cases hle _ gh.ghPartLba.toNat _ 0 _ hroom with ⟨e, hrun, hfail⟩ | ⟨hall, hrun⟩
  · left
    exact ⟨e, hrun, fun h => hfail h.2⟩
  · right
    refine ⟨⟨?_, hall⟩, ?_⟩
    · rw [Bool.not_eq_false] at hmem
      exact hmem
    · rw [hrun, storedArray, Nat.zero_mul, take_zero, nil_append, Nat.zero_add, drop_replicate]

theorem tryHeader_unsigned (hread : l.readRecord b = .ok buf)
    (altheader : Bool) {gh : GptHeader} (hgh : GptHeader.codec.dec buf = gh)
    (hps : gh.ghPartSize ≠ 0) (h : ¬ (gh.ghSig = gptsignature ∧ gh.ghRev = gptrevision)) :
    l.tryHeader crc32 b altheader = .error (.errno .einval) := by
  have hne : gh.ghPartSize.toNat ≠ 0 := by
    intro h
    exact hps (UInt32.toNat_inj.mp h)
  simp only [tryHeader, hread, bind, Except.bind, pure, Except.pure, hgh, udiv_eq _ hne, ne_eq]
  by_cases hsig : gh.ghSig = gptsignature
  · have hrev : ¬ gh.ghRev = gptrevision := fun hrev => h ⟨hsig, hrev⟩
    simp only [hsig, hrev, not_true_eq_false, not_false_eq_true, if_false, if_true]
    rfl
  · simp only [hsig, not_false_eq_true, if_true]
    rfl

/-- A round of the loop, test by test. -/
theorem tryHeader_eq (hle : devBsize ≤ l.secsize) {b : Nat} {buf : List UInt8}
    (hread : l.readRecord b = .ok buf) (altheader : Bool) {gh : GptHeader}
    (hgh : GptHeader.codec.dec buf = gh) (hps : gh.ghPartSize ≠ 0) (hsig : gh.ghSig = gptsignature)
    (hrev : gh.ghRev = gptrevision) (hsize : gh.ghSize.toNat ≤ sizeofGptHeader) :
    (headerCsum crc32 buf ≠ gh.ghCsum → l.tryHeader crc32 b altheader =
        if altheader ∨ l.dsize ≤ gh.ghLbaAlt.toNat then .error (.errno .einval) else .ok none) ∧
      (headerCsum crc32 buf = gh.ghCsum → ¬ HeaderFits l gh →
        l.tryHeader crc32 b altheader = .error (.errno .einval)) ∧
      (headerCsum crc32 buf = gh.ghCsum → HeaderFits l gh →
        l.tryHeader crc32 b altheader = (l.readArray gh altheader).bind fun gp =>
          if gptChkParts crc32 gh gp = false then
            if altheader then .error (.errno .einval) else .ok none
          else .ok (some (gh, gp))) := by
  have hne : gh.ghPartSize.toNat ≠ 0 := by
    intro h
    exact hps (UInt32.toNat_inj.mp h)
  have hchk : chkHdr crc32 gh ((buf.drop GptHeader.codec.size).take 4)
      = .ok (decide (headerCsum crc32 buf = gh.ghCsum)) := by
    rw [chkHdr, if_neg (Nat.not_lt.mpr hsize), headerCsum, hgh]
  have hbound : sizeofGptHeader ≤ l.secsize := le_trans (by decide) hle
  refine ⟨?_, ?_, ?_⟩
  · intro hcsum
    simp only [tryHeader, hread, bind, Except.bind, pure, Except.pure, hgh, udiv_eq _ hne, hsig, hrev,
      ne_eq, not_true_eq_false, if_false, hchk, decide_eq_false hcsum, if_true]
    cases altheader with
    | true => rfl
    | false =>
      by_cases halt : l.dsize ≤ gh.ghLbaAlt.toNat
      · rw [if_pos halt, if_pos (Or.inr halt)]
        rfl
      · have hor : ¬ (false = true ∨ l.dsize ≤ gh.ghLbaAlt.toNat) := by
          rintro (h | h)
          · cases h
          · exact halt h
        rw [if_neg halt, if_neg hor]
        rfl
  · intro hcsum hfits
    simp only [tryHeader, hread, bind, Except.bind, pure, Except.pure, hgh, udiv_eq _ hne, hsig, hrev,
      ne_eq, not_true_eq_false, if_false, hchk, decide_eq_true hcsum, Bool.true_eq_false]
    -- one of the tests left fails
    by_cases h1 : gh.ghSize.toNat < gptminhdrsize ∨ l.secsize < gh.ghSize.toNat
    · rw [if_pos h1]
      rfl
    rw [if_neg h1]
    by_cases h2 : l.dsize ≤ gh.ghLbaStart.toNat ∨ l.dsize ≤ gh.ghLbaEnd.toNat ∨
        l.dsize ≤ gh.ghPartLba.toNat
    · rw [if_pos h2]
      rfl
    rw [if_neg h2]
    split
    · rfl
    · split
      · rfl
      · rename_i h4
        refine absurd ?_ hfits
        exact ⟨by omega, by omega, by omega, by omega, not_not.mp h4⟩
  · intro hcsum hfits
    have h1 : ¬ (gh.ghSize.toNat < gptminhdrsize ∨ l.secsize < gh.ghSize.toNat) := by
      have := hfits.size
      omega
    have h2 : ¬ (l.dsize ≤ gh.ghLbaStart.toNat ∨ l.dsize ≤ gh.ghLbaEnd.toNat ∨
        l.dsize ≤ gh.ghPartLba.toNat) := by
      have := hfits.lbaStart
      have := hfits.lbaEnd
      have := hfits.partLba
      omega
    have h3 : ¬ (¬ gptminpartsize % gptminpartsize = 0 ∨ l.secsize < gptminpartsize ∨
        l.secsize / gptminpartsize = 0) := by
      rw [gptminpartsize]
      rw [devBsize] at hle
      omega
    have hdiv : udiv l.secsize gptminpartsize = .ok (l.secsize / gptminpartsize) :=
      udiv_eq _ (by decide)
    simp only [tryHeader, hread, bind, Except.bind, pure, Except.pure, hgh, hdiv, hsig, hrev,
      ne_eq, not_true_eq_false, if_false, hchk, decide_eq_true hcsum, Bool.true_eq_false, if_neg h1,
      if_neg h2, hfits.partSize, if_neg h3]
    cases l.readArray gh altheader with
    | error stop => rfl
    | ok gp =>
      dsimp only
      by_cases hc : gptChkParts crc32 gh gp = false
      · rw [if_pos hc, if_pos hc]
        cases altheader <;> rfl
      · rw [if_neg hc, if_neg hc]

/-- A header in front of `buf` that passes all the tests. -/
structure HeaderTaken (crc32 : List UInt8 → UInt32) (l : GptDev) (buf : List UInt8) : Prop where
  sig : (GptHeader.codec.dec buf).ghSig = gptsignature
  rev : (GptHeader.codec.dec buf).ghRev = gptrevision
  csum : headerCsum crc32 buf = (GptHeader.codec.dec buf).ghCsum
  fits : HeaderFits l (GptHeader.codec.dec buf)

/-- What a header needs for `readgptlabel` to try it. -/
structure HeaderSafe (crc32 : List UInt8 → UInt32) (l : GptDev) (buf : List UInt8) : Prop where
  /-- `d_secsize` is divided by it -/
  partSize : (GptHeader.codec.dec buf).ghPartSize ≠ 0
  /-- `crc32` covers so many bytes of `gh` -/
  size : (GptHeader.codec.dec buf).ghSig = gptsignature →
    (GptHeader.codec.dec buf).ghRev = gptrevision →
    (GptHeader.codec.dec buf).ghSize.toNat ≤ sizeofGptHeader
  /-- the array is not too large for `malloc` -/
  partNum : HeaderTaken crc32 l buf →
    (GptHeader.codec.dec buf).ghPartNum.toNat * sizeofGptPartition ≤ mallocMax

/-- The primary header is given up for the alternate one: its checksum is wrong
    and the alternate one is on the disk, or that of its entries is wrong. -/
structure Dropped (crc32 : List UInt8 → UInt32) (l : GptDev) (buf : List UInt8) : Prop where
  sig : (GptHeader.codec.dec buf).ghSig = gptsignature
  rev : (GptHeader.codec.dec buf).ghRev = gptrevision
  broken : (headerCsum crc32 buf ≠ (GptHeader.codec.dec buf).ghCsum ∧
      (GptHeader.codec.dec buf).ghLbaAlt.toNat < l.dsize) ∨
    (HeaderTaken crc32 l buf ∧ l.malloc false = true ∧ ArrayRead l (GptHeader.codec.dec buf) ∧
      gptChkParts crc32 (GptHeader.codec.dec buf) (storedArray l (GptHeader.codec.dec buf)) = false)

/-- A round of the loop goes well exactly for a safe header. -/
theorem good_tryHeader_iff (hle : devBsize ≤ l.secsize) {b : Nat} {buf : List UInt8}
    (hread : l.readRecord b = .ok buf) (altheader : Bool) :
    Good (l.tryHeader crc32 b altheader) ↔ HeaderSafe crc32 l buf := by
  obtain ⟨gh, hgh⟩ : ∃ gh, GptHeader.codec.dec buf = gh := ⟨_, rfl⟩
  by_cases hps : gh.ghPartSize = 0
  · -- the division comes first
    have hrun : l.tryHeader crc32 b altheader = .error .divByZero := by
      simp only [tryHeader, hread, bind, Except.bind, hgh, hps]
      rfl
    rw [hrun]
    constructor
    · intro h
      exact absurd h (not_good (by rintro e ⟨⟩))
    · intro h
      rw [← hgh] at hps
      exact absurd hps h.partSize
  have hne : gh.ghPartSize.toNat ≠ 0 := by
    intro h
    exact hps (UInt32.toNat_inj.mp h)
  have hpart : (GptHeader.codec.dec buf).ghPartSize ≠ 0 := by
    rw [hgh]
    exact hps
  by_cases hsigned : gh.ghSig = gptsignature ∧ gh.ghRev = gptrevision
  swap
  · rw [tryHeader_unsigned hread altheader hgh hps hsigned]
    rw [← hgh] at hsigned
    exact ⟨fun _ => ⟨hpart, fun h h' => absurd ⟨h, h'⟩ hsigned, fun h => absurd ⟨h.sig, h.rev⟩ hsigned⟩,
      fun _ => good_errno _⟩
  obtain ⟨hsig, hrev⟩ := hsigned
  by_cases hsize : sizeofGptHeader < gh.ghSize.toNat
  · have hrun : l.tryHeader crc32 b altheader = .error .pastHeader := by
      simp only [tryHeader, hread, bind, Except.bind, hgh, udiv_eq _ hne, ne_eq, hsig, not_true_eq_false,
        if_false, hrev, chkHdr, if_pos hsize]
    rw [hrun]
    constructor
    · intro h
      exact absurd h (not_good (by rintro e ⟨⟩))
    · intro h
      have hle' := h.size (by rw [hgh]; exact hsig) (by rw [hgh]; exact hrev)
      rw [hgh] at hle'
      omega
  have hsafe : (HeaderTaken crc32 l buf → gh.ghPartNum.toNat * sizeofGptPartition ≤ mallocMax) →
      HeaderSafe crc32 l buf := by
    intro h
    rw [← hgh] at h hsize
    exact ⟨hpart, fun _ _ => Nat.not_lt.mp hsize, h⟩
  obtain ⟨hbad, hunfit, htaken⟩ := @tryHeader_eq crc32 _ hle _ _ hread altheader _ hgh hps hsig hrev
    (Nat.not_lt.mp hsize)
  by_cases hcsum : headerCsum crc32 buf = gh.ghCsum
  swap
  · rw [hbad hcsum]
    refine ⟨fun _ => hsafe ?_, fun _ => ?_⟩
    · intro h
      refine absurd ?_ hcsum
      rw [← hgh]
      exact h.csum
    · split
      · exact good_errno _
      · exact good_ok _
  by_cases hfits : HeaderFits l gh
  swap
  · rw [hunfit hcsum hfits]
    refine ⟨fun _ => hsafe ?_, fun _ => good_errno _⟩
    intro h
    refine absurd ?_ hfits
    rw [← hgh]
    exact h.fits
  rw [htaken hcsum hfits]
  rcases readArray_cases hle hfits.partSize altheader with ⟨hbig, hrun⟩ | ⟨hsmall, ⟨e, hrun, -⟩ | ⟨-, hrun⟩⟩
  · rw [hrun]
    constructor
    · intro h
      exact absurd h (not_good (by rintro e ⟨⟩))
    · intro h
      have htake : HeaderTaken crc32 l buf := by
        rw [← hgh] at hsig hrev hcsum hfits
        exact ⟨hsig, hrev, hcsum, hfits⟩
      have hnum := h.partNum htake
      rw [hgh] at hnum
      omega
  · rw [hrun]
    exact ⟨fun _ => hsafe fun _ => hsmall, fun _ => good_errno e⟩
  · rw [hrun]
    refine ⟨fun _ => hsafe fun _ => hsmall, fun _ => ?_⟩
    dsimp only [Except.bind]
    split
    · split
      · exact good_errno _
      · exact good_ok _
    · exact good_ok _

/-- The loop goes on to the alternate header exactly behind a safe primary one
    that is dropped. -/
theorem tryHeader_none_iff (hle : devBsize ≤ l.secsize) {b : Nat} {buf : List UInt8}
    (hread : l.readRecord b = .ok buf) (hsafe : HeaderSafe crc32 l buf) (altheader : Bool) :
    l.tryHeader crc32 b altheader = .ok none ↔ altheader = false ∧ Dropped crc32 l buf := by
  obtain ⟨gh, hgh⟩ : ∃ gh, GptHeader.codec.dec buf = gh := ⟨_, rfl⟩
  have hps := hsafe.partSize
  have hsz := hsafe.size
  have hnum := hsafe.partNum
  rw [hgh] at hps hsz hnum
  have hne : gh.ghPartSize.toNat ≠ 0 := by
    intro h
    exact hps (UInt32.toNat_inj.mp h)
  by_cases hsigned : gh.ghSig = gptsignature ∧ gh.ghRev = gptrevision
  swap
  · rw [tryHeader_unsigned hread altheader hgh hps hsigned]
    rw [← hgh] at hsigned
    exact ⟨fun h => (by cases h), fun h => absurd ⟨h.2.sig, h.2.rev⟩ hsigned⟩
  obtain ⟨hsig, hrev⟩ := hsigned
  obtain ⟨hbad, hunfit, htaken⟩ := @tryHeader_eq crc32 _ hle _ _ hread altheader _ hgh hps hsig hrev
    (hsz hsig hrev)
  by_cases hcsum : headerCsum crc32 buf = gh.ghCsum
  swap
  · rw [hbad hcsum]
    constructor
    · intro h
      split at h
      · cases h
      · rename_i hnot
        rw [not_or, Bool.not_eq_true, Nat.not_le] at hnot
        rw [← hgh] at hsig hrev hcsum hnot
        exact ⟨hnot.1, hsig, hrev, Or.inl ⟨hcsum, hnot.2⟩⟩
    · rintro ⟨halt, hdrop⟩
      rcases hdrop.broken with ⟨-, hlba⟩ | ⟨htake, -⟩
      · rw [hgh] at hlba
        rw [if_neg]
        rintro (h | h)
        · rw [halt] at h
          cases h
        · omega
      · have hc := htake.csum
        rw [hgh] at hc
        exact absurd hc hcsum
  by_cases hfits : HeaderFits l gh
  swap
  · rw [hunfit hcsum hfits]
    refine ⟨fun h => (by cases h), ?_⟩
    rintro ⟨-, hdrop⟩
    rcases hdrop.broken with ⟨hc, -⟩ | ⟨htake, -⟩
    · rw [hgh] at hc
      exact absurd hcsum hc
    · have hf := htake.fits
      rw [hgh] at hf
      exact absurd hf hfits
  have htake : HeaderTaken crc32 l buf := by
    rw [← hgh] at hsig hrev hcsum hfits
    exact ⟨hsig, hrev, hcsum, hfits⟩
  rw [htaken hcsum hfits]
  rcases readArray_cases hle hfits.partSize altheader with
    ⟨hbig, -⟩ | ⟨-, ⟨e, hrun, hfail⟩ | ⟨⟨hmem, hall⟩, hrun⟩⟩
  · have := hnum htake
    omega
  · rw [hrun]
    refine ⟨fun h => (by cases h), ?_⟩
    rintro ⟨halt, hdrop⟩
    rcases hdrop.broken with ⟨hc, -⟩ | ⟨-, hm, ha, -⟩
    · rw [hgh] at hc
      exact absurd hcsum hc
    · rw [hgh] at ha
      rw [halt] at hfail
      exact absurd ⟨hm, ha⟩ hfail
  · rw [hrun]
    dsimp only [Except.bind]
    constructor
    · intro h
      by_cases hc : gptChkParts crc32 gh (l.storedArray gh) = false
      · rw [if_pos hc] at h
        cases altheader with
        | true => cases h
        | false =>
          rw [← hgh] at hsig hrev hall hc
          exact ⟨rfl, hsig, hrev, Or.inr ⟨htake, hmem, hall, hc⟩⟩
      · rw [if_neg hc] at h
        cases h
    · rintro ⟨halt, hdrop⟩
      rcases hdrop.broken with ⟨hc, -⟩ | ⟨-, -, -, hc⟩
      · rw [hgh] at hc
        exact absurd hcsum hc
      · rw [hgh] at hc
        rw [if_pos hc, halt]
        rfl

theorem tryHeader_unread {b : Nat} {e : Errno} (h : l.readRecord b = .error (.errno e))
    (altheader : Bool) : l.tryHeader crc32 b altheader = .error (.errno e) := by
  unfold tryHeader
  rw [h]
  rfl

theorem tryHeader_alt_ne (hle : devBsize ≤ l.secsize) (b : Nat) :
    l.tryHeader crc32 b true ≠ .ok none := by
  intro h
  rcases readRecord_cases hle b with ⟨e, hread⟩ | ⟨buf, hread⟩
  · rw [tryHeader_unread hread] at h
    cases h
  · have hsafe : HeaderSafe crc32 l buf := by
      rw [← good_tryHeader_iff hle hread true, h]
      exact good_ok none
    have halt := ((tryHeader_none_iff hle hread hsafe true).mp h).1
    cases halt

theorem headerLoop_succ (fuel b : Nat) (altheader : Bool) :
    (∃ stop, l.tryHeader crc32 b altheader = .error stop ∧
        l.headerLoop crc32 (fuel + 1) b altheader = some (.error stop)) ∨
      (∃ t, l.tryHeader crc32 b altheader = .ok (some t) ∧
        l.headerLoop crc32 (fuel + 1) b altheader = some (.ok t)) ∨
      (l.tryHeader crc32 b altheader = .ok none ∧
        l.headerLoop crc32 (fuel + 1) b altheader
          = l.headerLoop crc32 fuel (l.sectoblk (l.dsize - 1)) true) := by
  rw [headerLoop]
  cases l.tryHeader crc32 b altheader with
  | error stop => exact Or.inl ⟨stop, rfl, rfl⟩
  | ok o =>
    cases o with
    | some t => exact Or.inr (Or.inl ⟨t, rfl, rfl⟩)
    | none => exact Or.inr (Or.inr ⟨rfl, rfl⟩)

def LoopGood (crc32 : List UInt8 → UInt32) (l : GptDev) (fuel b : Nat) (altheader : Bool) : Prop :=
  ∃ r, l.headerLoop crc32 fuel b altheader = some r ∧ Good r

/-- The header of this sector is safe, if it can be read. -/
def SectorSafe (crc32 : List UInt8 → UInt32) (l : GptDev) (n : Nat) : Prop :=
  ∀ buf, l.readRecord (l.sectoblk n) = .ok buf → HeaderSafe crc32 l buf

theorem loopGood_alt (hle : devBsize ≤ l.secsize) (n : Nat) :
    LoopGood crc32 l 1 (l.sectoblk n) true ↔ SectorSafe crc32 l n := by
  have hround : LoopGood crc32 l 1 (l.sectoblk n) true ↔
      Good (l.tryHeader crc32 (l.sectoblk n) true) := by
    rcases @headerLoop_succ crc32 l 0 (l.sectoblk n) true with ⟨stop, htry, hloop⟩ | ⟨t, htry, hloop⟩ | ⟨htry, -⟩
    · rw [LoopGood, hloop, htry]
      constructor
      · rintro ⟨r, hr, hgood⟩ s hs
        injection hr with hr
        injection hs with hs
        exact hgood s (by rw [← hr, hs])
      · intro hgood
        exact ⟨_, rfl, fun s hs => hgood s (by injection hs with hs; rw [hs])⟩
    · rw [LoopGood, hloop, htry]
      exact ⟨fun _ => good_ok _, fun _ => ⟨_, rfl, good_ok t⟩⟩
    · exact absurd htry (tryHeader_alt_ne hle _)
  rw [hround]
  rcases readRecord_cases hle (l.sectoblk n) with ⟨e, hread⟩ | ⟨buf, hread⟩
  · rw [tryHeader_unread hread]
    refine ⟨fun _ buf hbuf => ?_, fun _ => good_errno e⟩
    rw [hread] at hbuf
    cases hbuf
  · rw [good_tryHeader_iff hle hread true]
    constructor
    · intro hsafe buf' hbuf
      rw [hread] at hbuf
      injection hbuf with hbuf
      rw [← hbuf]
      exact hsafe
    · intro h
      exact h buf hread

/-- The loop: the primary header has to be safe, and the alternate one if the
    primary one is dropped. -/
theorem loopGood_iff (hle : devBsize ≤ l.secsize) :
    LoopGood crc32 l 2 (l.sectoblk gptsector) false ↔
      SectorSafe crc32 l gptsector ∧
        ∀ buf, l.readRecord (l.sectoblk gptsector) = .ok buf → Dropped crc32 l buf →
          SectorSafe crc32 l (l.dsize - 1) := by
  rcases readRecord_cases hle (l.sectoblk gptsector) with ⟨e, hread⟩ | ⟨buf, hread⟩
  · have htry := @tryHeader_unread crc32 _ _ _ hread false
    refine ⟨fun _ => ⟨?_, ?_⟩, fun _ => ?_⟩
    · intro buf hbuf
      rw [hread] at hbuf
      cases hbuf
    · intro buf hbuf
      rw [hread] at hbuf
      cases hbuf
    · refine ⟨.error (.errno e), ?_, good_errno e⟩
      rw [headerLoop, htry]
  · -- the read is known, so both sides are about this header
    have hsector : SectorSafe crc32 l gptsector ↔ HeaderSafe crc32 l buf := by
      constructor
      · intro h
        exact h buf hread
      · intro hsafe buf' hbuf
        rw [hread] at hbuf
        injection hbuf with hbuf
        rw [← hbuf]
        exact hsafe
    have hdropped : (∀ buf', l.readRecord (l.sectoblk gptsector) = .ok buf' → Dropped crc32 l buf' →
        SectorSafe crc32 l (l.dsize - 1)) ↔
        (Dropped crc32 l buf → SectorSafe crc32 l (l.dsize - 1)) := by
      constructor
      · intro h
        exact h buf hread
      · intro h buf' hbuf
        rw [hread] at hbuf
        injection hbuf with hbuf
        rw [← hbuf]
        exact h
    rw [hsector, hdropped]
    have hgood := @good_tryHeader_iff crc32 _ hle _ _ hread false
    rcases @headerLoop_succ crc32 l 1 (l.sectoblk gptsector) false with
      ⟨stop, htry, hloop⟩ | ⟨t, htry, hloop⟩ | ⟨htry, hloop⟩
    · rw [htry] at hgood
      rw [LoopGood, hloop]
      constructor
      · rintro ⟨r, hr, hr'⟩
        injection hr with hr
        have hstop : Good (.error stop : Except GptStop (Option (GptHeader × List GptPartition))) := by
          intro s hs
          injection hs with hs
          exact hr' s (by rw [← hr, hs])
        have hsafe := hgood.mp hstop
        refine ⟨hsafe, ?_⟩
        intro hdrop
        have hnone := (tryHeader_none_iff hle hread hsafe false).mpr ⟨rfl, hdrop⟩
        rw [htry] at hnone
        cases hnone
      · rintro ⟨hsafe, -⟩
        refine ⟨_, rfl, ?_⟩
        intro s hs
        injection hs with hs
        exact hgood.mpr hsafe s (by rw [hs])
    · rw [htry] at hgood
      have hsafe := hgood.mp (good_ok _)
      rw [LoopGood, hloop]
      refine ⟨fun _ => ⟨hsafe, ?_⟩, fun _ => ⟨_, rfl, good_ok t⟩⟩
      intro hdrop
      have hnone := (tryHeader_none_iff hle hread hsafe false).mpr ⟨rfl, hdrop⟩
      rw [htry] at hnone
      cases hnone
    · rw [htry] at hgood
      have hsafe := hgood.mp (good_ok _)
      have hdrop := ((tryHeader_none_iff hle hread hsafe false).mp htry).2
      have hrest : LoopGood crc32 l 2 (l.sectoblk gptsector) false ↔
          LoopGood crc32 l 1 (l.sectoblk (l.dsize - 1)) true := by
        rw [LoopGood, LoopGood, hloop]
      rw [hrest, loopGood_alt hle]
      exact ⟨fun h => ⟨hsafe, fun _ => h⟩, fun h => h.2 hdrop⟩

/-! ## The function -/

theorem good_placeLabel (hle : devBsize ≤ l.secsize) (bend : Nat) (partoffp spoofonly : Bool)
    (t : GptHeader × List GptPartition) : Good (l.placeLabel bend partoffp spoofonly t) := by
  unfold placeLabel
  dsimp only
  split
  · exact good_ok _
  · split
    · exact good_ok _
    · rename_i i _ _
      rcases readRecord_cases hle
        (l.sectoblk (t.2.getD i GptPartition.zero).gpLbaStart.toNat + dosLabelsector) with
        ⟨e, hread⟩ | ⟨buf, hread⟩
      · rw [hread]
        exact good_errno e
      · rw [hread]
        exact good_ok _

/-- `readgptlabel` returns after two headers at most, without a division by
    zero, a checksum over bytes behind the header, a copy behind the array or a
    panic. -/
def Robust (crc32 : List UInt8 → UInt32) (l : GptDev) (secpercyl bend : Nat)
    (partoffp spoofonly : Bool) : Prop :=
  ∃ r, l.readgptlabel crc32 2 secpercyl bend partoffp spoofonly = some r ∧ Good r

/-- It is robust exactly on the disks whose primary header is safe, if it can be
    read, and so is the alternate one, if the primary one is dropped. -/
theorem readgptlabel_robust_iff (crc32 : List UInt8 → UInt32) (l : GptDev) {secpercyl : Nat}
    (hcyl : secpercyl ≠ 0) (hdvd : devBsize ∣ l.secsize) (bend : Nat) (partoffp spoofonly : Bool) :
    Robust crc32 l secpercyl bend partoffp spoofonly ↔
      l.secsize = 0 ∨ (SectorSafe crc32 l gptsector ∧
        ∀ buf, l.readRecord (l.sectoblk gptsector) = .ok buf → Dropped crc32 l buf →
          SectorSafe crc32 l (l.dsize - 1)) := by
  unfold Robust readgptlabel
  rw [if_neg hcyl]
  by_cases hsec : l.secsize = 0
  · rw [if_pos hsec]
    exact ⟨fun _ => Or.inl hsec, fun _ => ⟨_, rfl, good_errno _⟩⟩
  have hle : devBsize ≤ l.secsize := Nat.le_of_dvd (Nat.pos_of_ne_zero hsec) hdvd
  rw [if_neg hsec, ← loopGood_iff hle]
  -- behind the loop nothing goes wrong
  rw [LoopGood]
  cases hloop : l.headerLoop crc32 2 (l.sectoblk gptsector) false with
  | none =>
    constructor
    · rintro ⟨r, hr, -⟩
      cases hr
    · rintro (h | ⟨r, hr, -⟩)
      · exact absurd h hsec
      · cases hr
  | some r =>
    cases r with
    | error stop =>
      constructor
      · rintro ⟨r, hr, hgood⟩
        injection hr with hr
        refine Or.inr ⟨_, rfl, ?_⟩
        intro s hs
        injection hs with hs
        exact hgood s (by rw [← hr, hs])
      · rintro (h | ⟨r, hr, hgood⟩)
        · exact absurd h hsec
        · injection hr with hr
          refine ⟨_, rfl, ?_⟩
          intro s hs
          injection hs with hs
          exact hgood s (by rw [← hr, hs])
    | ok t =>
      exact ⟨fun _ => Or.inr ⟨_, rfl, good_ok t⟩,
        fun _ => ⟨_, rfl, good_placeLabel hle bend partoffp spoofonly t⟩⟩

/-- A disk of 100 sectors with `sec` in each. -/
def ofSector (sec : List UInt8) : GptDev where
  secsize := devBsize
  dsize := 100
  strat _ := .ok sec
  malloc _ := true

theorem ofSector_readRecord (sec : List UInt8) (n : Nat) :
    (ofSector sec).readRecord ((ofSector sec).sectoblk n) = .ok sec := by
  have hblks : (ofSector sec).blkspersec = 1 := by
    show devBsize / devBsize = 1
    decide
  unfold readRecord sectoblk
  rw [hblks, Nat.mul_one, udiv_eq _ Nat.one_ne_zero, umod_eq _ Nat.one_ne_zero]
  dsimp only [bind, Except.bind, ofSector]
  rw [Nat.mod_one, Nat.zero_mul, List.drop_zero]
  rfl

/-- A sector of bytes 1: no signature, so it is safe. -/
theorem readgptlabel_robust_iff_ones :
    (1 : Nat) ≠ 0 ∧ Robust (fun _ => 0) (ofSector (List.replicate devBsize 1)) 1 0 false false := by
  refine ⟨by decide, ?_⟩
  rw [readgptlabel_robust_iff _ _ Nat.one_ne_zero (Nat.dvd_refl _)]
  have hsig : (GptHeader.codec.dec (List.replicate devBsize 1)).ghSig ≠ gptsignature := by
    decide
  have hps : (GptHeader.codec.dec (List.replicate devBsize 1)).ghPartSize ≠ 0 := by
    decide
  refine Or.inr ⟨?_, ?_⟩
  · intro buf hbuf
    rw [ofSector_readRecord] at hbuf
    injection hbuf with hbuf
    rw [← hbuf]
    exact ⟨hps, fun h => absurd h hsig, fun h => absurd h.sig hsig⟩
  · intro buf hbuf hdrop
    rw [ofSector_readRecord] at hbuf
    injection hbuf with hbuf
    have h := hdrop.sig
    rw [← hbuf] at h
    exact absurd h hsig

theorem readgptlabel_divides_by_zero :
    ¬ Robust (fun _ => 0) (ofSector (List.replicate devBsize 0)) 1 0 false false := by
  have hps : (GptHeader.codec.dec (List.replicate devBsize 0)).ghPartSize = 0 := by
    decide
  have hread := ofSector_readRecord (List.replicate devBsize 0) gptsector
  have htry : (ofSector (List.replicate devBsize 0)).tryHeader (fun _ => 0)
      ((ofSector (List.replicate devBsize 0)).sectoblk gptsector) false = .error .divByZero := by
    simp only [tryHeader, hread, bind, Except.bind, hps]
    rfl
  rintro ⟨r, hr, hgood⟩
  unfold readgptlabel at hr
  have hsec : ¬ (ofSector (List.replicate devBsize 0)).secsize = 0 := by decide
  rw [if_neg Nat.one_ne_zero, if_neg hsec, headerLoop, htry] at hr
  injection hr with hr
  obtain ⟨e, he⟩ := hgood .divByZero hr.symm
  cases he

end

end GptDev

end OpenBsd.Kern
