/-
  OpenBsd.Kern.SubrDiskUid

  `setdisklabel` of `sys/kern/subr_disk.c`: the label that replaces another, and
  the unique identifier that it gets when it brings none.

  The random bytes are the stream `draws`, one element a call of
  `arc4random_buf`; `disklist` gives `dk_label` of each attached disk, `none`
  where it is null.  The loop that draws has no bound, so it runs on fuel and a
  run that takes all of it has no result.
-/

import OpenBsd.Disk
import OpenBsd.Kern.SubrDiskSwap

namespace OpenBsd.Kern

open OpenBsd.Lib
open OpenBsd.Sys

abbrev DiskUid := Vector UInt8 8

def zeroUid : DiskUid := Vector.replicate 8 0

/-- The body of the first loop of `setdisklabel`, on the two entries `i`. -/
def keepPartition (openmask : UInt32) (i : Nat) (opp npp : Partition) :
    Except LabelErrno Partition :=
  if openmask.toBitVec.getLsbD i = true ∧
      (dlGetpoffset npp ≠ dlGetpoffset opp ∨ dlGetpsize npp < dlGetpsize opp) then
    .error .ebusy
  else if npp.pFstype = fsUnused ∧ opp.pFstype ≠ fsUnused then
    .ok { npp with pFragblock := opp.pFragblock, pCpg := opp.pCpg }
  else .ok npp

/-- The loop, over the entries `is`. -/
def keepPartitions (olp : Disklabel) (openmask : UInt32) :
    (is : List (Fin 16)) → Disklabel → Except LabelErrno Disklabel
  | [], nlp => .ok nlp
  | i :: is, nlp =>
    match keepPartition openmask i olp.dPartitions[i] nlp.dPartitions[i] with
    | .error e => .error e
    | .ok npp =>
      keepPartitions olp openmask is { nlp with dPartitions := nlp.dPartitions.set i npp }

/-- Whether the search of `disklist` ends at a disk: `dk != NULL`. -/
def uidTaken (disklist : List (Option Disklabel)) (uid : DiskUid) : Prop :=
  ∃ lab, some lab ∈ disklist ∧ lab.dUid = uid

instance (disklist : List (Option Disklabel)) (uid : DiskUid) :
    Decidable (uidTaken disklist uid) :=
  decidable_of_iff (disklist.any fun dk => dk.any fun lab => lab.dUid = uid) <| by
    simp [uidTaken, List.any_eq_true, Option.any_eq_true]

/-- The loop that draws identifiers, from draw `k` on. -/
def generateUid (disklist : List (Option Disklabel)) (draws : Nat → DiskUid) :
    (fuel k : Nat) → Option DiskUid
  | 0, _ => none
  | fuel + 1, k =>
    if uidTaken disklist (draws k) ∧ draws k = zeroUid then
      generateUid disklist draws fuel (k + 1)
    else some (draws k)

/-- `setdisklabel`: the label left in `olp`. -/
def setdisklabel (mem : Nat → UInt16) (disklist : List (Option Disklabel))
    (draws : Nat → DiskUid) (fuel : Nat) (olp nlp : Disklabel) (openmask : UInt32) :
    Option (Except LabelErrno Disklabel) :=
  if nlp.dSecpercyl = 0 ∨ nlp.dSecsize = 0 ∨ nlp.dSecsize.toNat % devBsize ≠ 0 then
    some (.error .einval)
  -- a label that is to be invalidated is taken as it is
  else if nlp.dMagic = 0xffffffff then some (.ok nlp)
  else if nlp.dMagic ≠ diskmagic ∨ nlp.dMagic2 ≠ diskmagic ∨ dkcksum mem nlp ≠ 0 then
    some (.error .einval)
  else
    match keepPartitions olp openmask (List.finRange 16) nlp with
    | .error e => some (.error e)
    | .ok nlp =>
      let uid :=
        if nlp.dUid = zeroUid then generateUid disklist draws fuel 0 else some nlp.dUid
      uid.map fun uid =>
        let nlp := dlSetdsize { nlp with dUid := uid } (dlGetdsize olp)
        let raw := dlSetpsize (dlSetpoffset (nlp.dPartitions.get rawPart) 0) (dlGetdsize nlp)
        .ok (setCksum mem { nlp with dPartitions := nlp.dPartitions.set rawPart raw rawPart_lt })

/-! ## The identifier -/

theorem keepPartitions_uid {olp nlp nlp' : Disklabel} {openmask : UInt32} {is : List (Fin 16)}
    (h : keepPartitions olp openmask is nlp = .ok nlp') : nlp'.dUid = nlp.dUid := by
  induction is generalizing nlp with
  | nil =>
    cases h
    rfl
  | cons i is ih =>
    rw [keepPartitions] at h
    cases hkeep : keepPartition openmask i olp.dPartitions[i] nlp.dPartitions[i] with
    | error e =>
      rw [hkeep] at h
      cases h
    | ok npp =>
      rw [hkeep] at h
      have hrest : nlp'.dUid = { nlp with dPartitions := nlp.dPartitions.set i npp }.dUid := ih h
      exact hrest

variable {disklist : List (Option Disklabel)} {fuel : Nat} {draws : Nat → DiskUid}

theorem generateUid_spec {k : Nat} {uid : DiskUid} (h : generateUid disklist draws fuel k = some uid) :
    ∃ m, k ≤ m ∧ (∀ j, k ≤ j → j < m → draws j = zeroUid ∧ uidTaken disklist zeroUid) ∧
      uid = draws m ∧ ¬ (uidTaken disklist (draws m) ∧ draws m = zeroUid) := by
  induction fuel generalizing k with
  | zero => cases h
  | succ fuel ih =>
    rw [generateUid] at h
    by_cases hagain : uidTaken disklist (draws k) ∧ draws k = zeroUid
    · rw [if_pos hagain] at h
      obtain ⟨m, hkm, hskip, huid, hstop⟩ := ih h
      refine ⟨m, by omega, ?_, huid, hstop⟩
      intro j hkj hjm
      by_cases hj : j = k
      · subst hj
        exact ⟨hagain.2, hagain.2 ▸ hagain.1⟩
      · exact hskip j (by omega) hjm
    · rw [if_neg hagain] at h
      cases h
      refine ⟨k, Nat.le_refl k, ?_, rfl, hagain⟩
      intro j hkj hjk
      omega

theorem setdisklabel_uid {mem : Nat → UInt16} {olp nlp out : Disklabel} {openmask : UInt32}
    (hmagic : nlp.dMagic = diskmagic) (huid : nlp.dUid = zeroUid)
    (h : setdisklabel mem disklist draws fuel olp nlp openmask = some (.ok out)) :
    generateUid disklist draws fuel 0 = some out.dUid := by
  have hvalid : ¬ nlp.dMagic = 0xffffffff := by
    rw [hmagic]
    decide
  unfold setdisklabel at h
  split at h
  · cases h
  -- the label is not one that invalidates
  split at h
  · cases h
  cases hkeep : keepPartitions olp openmask (List.finRange 16) nlp with
  | error e =>
    rw [hkeep] at h
    cases h
  | ok nlp' =>
    rw [hkeep] at h
    dsimp only at h
    rw [if_pos ((keepPartitions_uid hkeep).trans huid), Option.map_eq_some_iff] at h
    obtain ⟨uid, hgen, hout⟩ := h
    cases hout
    exact hgen

/-- The identifier that `setdisklabel` generates is usable when the first draw
    that it does not throw away is: it throws away a draw of zero, and that only
    while a disk of identifier zero is attached. -/
theorem setdisklabel_uid_usable_iff {mem : Nat → UInt16} {disklist : List (Option Disklabel)}
    {draws : Nat → DiskUid} {fuel : Nat} {olp nlp out : Disklabel} {openmask : UInt32}
    (hmagic : nlp.dMagic = diskmagic) (huid : nlp.dUid = zeroUid)
    (h : setdisklabel mem disklist draws fuel olp nlp openmask = some (.ok out)) :
    (out.dUid ≠ zeroUid ∧ ∀ lab, some lab ∈ disklist → lab.dUid ≠ out.dUid) ↔
      ∃ k, (∀ j < k, draws j = zeroUid ∧ uidTaken disklist zeroUid) ∧
        draws k ≠ zeroUid ∧ ¬ uidTaken disklist (draws k) := by
  obtain ⟨m, -, hskip, hout, hstop⟩ := generateUid_spec (setdisklabel_uid hmagic huid h)
  have hfree : (∀ lab, some lab ∈ disklist → lab.dUid ≠ out.dUid) ↔
      ¬ uidTaken disklist (draws m) := by
    rw [hout]
    exact ⟨fun hall ⟨lab, hlab, heq⟩ => hall lab hlab heq,
      fun hnone lab hlab heq => hnone ⟨lab, hlab, heq⟩⟩
  rw [hfree, hout]
  constructor
  · rintro ⟨hne, hnone⟩
    exact ⟨m, fun j hj => hskip j (Nat.zero_le j) hj, hne, hnone⟩
  · rintro ⟨k, hzero, hne, hnone⟩
    -- draw k is the one the loop ends at
    have hkm : k = m := by
      rcases Nat.lt_trichotomy k m with hlt | heq | hgt
      · exact absurd (hskip k (Nat.zero_le k) hlt).1 hne
      · exact heq
      · obtain ⟨hz, htaken⟩ := hzero m hgt
        exact absurd ⟨hz ▸ htaken, hz⟩ hstop
    subst hkm
    exact ⟨hne, hnone⟩

/-! ## A draw that collides -/

/-- An attached disk of identifier 1. -/
def attachedLabel : Disklabel := { namedLabel with dUid := Vector.replicate 8 1 }

theorem exists_ok_of_isOk {o : Option (Except LabelErrno Disklabel)}
    (h : o.any (fun r => r.isOk) = true) : ∃ out, o = some (.ok out) := by
  match o, h with
  | some (.ok out), _ => exact ⟨out, rfl⟩

theorem setdisklabel_attached :
    ∃ out, setdisklabel (fun _ => 0) [some attachedLabel] (fun _ => Vector.replicate 8 1) 1
      namedLabel namedLabel 0 = some (.ok out) :=
  exists_ok_of_isOk (by decide)

theorem setdisklabel_uid_usable_attached :
    ∃ out, setdisklabel (fun _ => 0) [some attachedLabel] (fun _ => Vector.replicate 8 1) 1
        namedLabel namedLabel 0 = some (.ok out) ∧
      ((out.dUid ≠ zeroUid ∧ ∀ lab, some lab ∈ [some attachedLabel] → lab.dUid ≠ out.dUid) ↔
        ∃ k : Nat, (∀ j < k, Vector.replicate 8 1 = zeroUid ∧
            uidTaken [some attachedLabel] zeroUid) ∧
          Vector.replicate 8 1 ≠ zeroUid ∧
          ¬ uidTaken [some attachedLabel] (Vector.replicate 8 1)) := by
  obtain ⟨out, hout⟩ := setdisklabel_attached
  exact ⟨out, hout, setdisklabel_uid_usable_iff rfl rfl hout⟩

/-- The label that is set has the identifier of the attached disk. -/
theorem setdisklabel_uid_collides :
    ¬ ∀ (mem : Nat → UInt16) (disklist : List (Option Disklabel)) (draws : Nat → DiskUid)
        (fuel : Nat) (olp nlp out : Disklabel) (openmask : UInt32),
        nlp.dMagic = diskmagic → nlp.dUid = zeroUid →
        setdisklabel mem disklist draws fuel olp nlp openmask = some (.ok out) →
          out.dUid ≠ zeroUid ∧ ∀ lab, some lab ∈ disklist → lab.dUid ≠ out.dUid := by
  intro h
  obtain ⟨out, hout⟩ := setdisklabel_attached
  have hfree := (h _ _ _ _ _ _ _ _ rfl rfl hout).2 attachedLabel List.mem_cons_self
  have hdraw := setdisklabel_uid rfl rfl hout
  have hgen : generateUid [some attachedLabel] (fun _ => Vector.replicate 8 1) 1 0
      = some (Vector.replicate 8 1) := by
    rw [generateUid, if_neg (by decide)]
  rw [hgen] at hdraw
  exact hfree (Option.some.inj hdraw)

end OpenBsd.Kern
