/-
  OpenBsd.Kern.SubrDiskSpoof

  Where `readdoslabel` of `sys/kern/subr_disk.c` places the partitions that it
  spoofs into slots i-p of the label.

  `spoofEntries` lists the entries of the boot records of a disk that get a
  slot, in the order in which they get it, each with its record and with the
  extended entries in front of it.  These are what moves `sector`, the base of
  the offsets, while the record is scanned.
-/

import OpenBsd.Kern.SubrDisk

namespace OpenBsd.Kern

open OpenBsd.Lib List
open OpenBsd.Disklabel

/-! ## The entries that get a slot -/

/-- An entry that the loop does not pass over. -/
def dpUsable (d : Disk) (dp : DosPartition) : Bool :=
  dp.dpTyp ≠ dosptypOpenbsd && dp.dpTyp ≠ dosptypEfi && dp.dpSize.toNat ≤ d.size &&
    dp.dpStart.toNat ≤ d.size && dp.dpSize ≠ 0

/-- An entry that gets a slot. -/
structure SpoofEntry where
  /-- the sector of its boot record -/
  record : Nat
  /-- `extoff` in front of the record -/
  extoff : UInt32
  /-- `dp_start` of the extended entries in front of it in the record -/
  links : List UInt32
  dp : DosPartition
deriving DecidableEq

/-- What an extended entry does to `extoff` and `sector`. -/
def followLink (v : UInt32 × Nat) (start : UInt32) : UInt32 × Nat :=
  if v.1 = 0 then (start, 0) else (v.1, (start + v.1).toNat)

section

variable (d : Disk)

/-- `dp_start` of the extended entries of a record. -/
def recordLinks (dps : List DosPartition) : List UInt32 :=
  (dps.filter fun dp => dpUsable d dp && dpExtended dp).map fun dp => dp.dpStart

/-- The entries of a record that get a slot, behind the links `ls`. -/
def recordEntries (r : Nat) (e : UInt32) : (ls : List UInt32) → List DosPartition → List SpoofEntry
  | _, [] => []
  | ls, dp :: dps =>
    if dpUsable d dp then
      if dpExtended dp then recordEntries r e (ls ++ [dp.dpStart]) dps
      else ⟨r, e, ls, dp⟩ :: recordEntries r e ls dps
    else recordEntries r e ls dps

/-- The boot records from sector `r` on, at most `n` of them, each with the
    `extoff` in front of it. -/
def bootRecords : (n r : Nat) → (e : UInt32) → List (Nat × UInt32)
  | 0, _, _ => []
  | n + 1, r, e =>
    if r < d.size then
      (r, e) ::
        if recordLinks d (dmbrParts (d.sector r)) = [] then []
        else
          let v := (recordLinks d (dmbrParts (d.sector r))).foldl followLink (e, r)
          bootRecords n (max v.2 v.1.toNat) v.1
    else []

/-- The entries of these records that get a slot. -/
def entriesOf (rs : List (Nat × UInt32)) : List SpoofEntry :=
  rs.flatMap fun v => recordEntries d v.1 v.2 [] (dmbrParts (d.sector v.1))

/-- The MBR ends in the marker of a boot record. -/
def mbrMarked : Prop := (d.sector 0).getD 510 0 = 0x55 ∧ (d.sector 0).getD 511 0 = 0xaa

instance : Decidable (mbrMarked d) := inferInstanceAs (Decidable (_ ∧ _))

/-- The entries of the boot records of a disk that get a slot. -/
def spoofEntries : List SpoofEntry :=
  if mbrMarked d then entriesOf d (bootRecords d dosMaxebr dosbbsector 0) else []

end

/-! ## The slots -/

section

variable (poffset : Nat → Nat)

/-- What `readdoslabel` leaves in slot `k` for an entry. -/
def codeSlot (k : Nat) (x : SpoofEntry) : Partition where
  pFstype := dosFstype x.dp
  pOffset :=
    if x.dp.dpStart ≠ 0 then
      dl48 (x.dp.dpStart.toNat + (x.links.foldl followLink (x.extoff, x.record)).2)
    else poffset k
  pSize := dl48 x.dp.dpSize.toNat

/-- What belongs there: the size of the entry, and its start counted from its
    boot record. -/
def rightSlot (x : SpoofEntry) : Partition where
  pFstype := dosFstype x.dp
  pOffset := x.dp.dpStart.toNat + x.record
  pSize := x.dp.dpSize.toNat

/-- The slots from slot `k` on; there are eight. -/
@[simp] def codeSlots : (k : Nat) → List SpoofEntry → List Partition
  | _, [] => []
  | k, x :: xs => if 8 ≤ k then [] else codeSlot poffset k x :: codeSlots (k + 1) xs

theorem codeSlots_full {k : Nat} (hk : 8 ≤ k) (xs : List SpoofEntry) : codeSlots poffset k xs = [] := by
  cases xs with
  | nil => rfl
  | cons x xs => rw [codeSlots, if_pos hk]

theorem codeSlots_append (k : Nat) (xs ys : List SpoofEntry) :
    codeSlots poffset k (xs ++ ys) = codeSlots poffset k xs ++
      codeSlots poffset (k + (codeSlots poffset k xs).length) ys := by
  induction xs generalizing k with
  | nil => rfl
  | cons x xs ih =>
    by_cases hk : 8 ≤ k
    · rw [codeSlots_full poffset hk, codeSlots_full poffset hk, nil_append, length_nil,
        Nat.add_zero, codeSlots_full poffset hk]
    · rw [cons_append, codeSlots, codeSlots, if_neg hk, if_neg hk, ih, cons_append,
        length_cons, Nat.add_assoc k 1, Nat.add_comm 1]

theorem codeSlots_getElem? (k : Nat) (xs : List SpoofEntry) (i : Nat) :
    (codeSlots poffset k xs)[i]?
      = if k + i < 8 then xs[i]?.map (codeSlot poffset (k + i)) else none := by
  induction xs generalizing k i with
  | nil =>
    rw [codeSlots, getElem?_nil, getElem?_nil, Option.map_none, ite_self]
  | cons x xs ih =>
    by_cases hk : 8 ≤ k
    · have hnot : ¬ k + i < 8 := by omega
      rw [codeSlots_full poffset hk, getElem?_nil, if_neg hnot]
    · rw [codeSlots, if_neg hk]
      cases i with
      | zero =>
        have hlt : k + 0 < 8 := by omega
        rw [getElem?_cons_zero, getElem?_cons_zero, if_pos hlt]
        rfl
      | succ i =>
        rw [getElem?_cons_succ, getElem?_cons_succ, ih, Nat.add_assoc k 1, Nat.add_comm 1]

end

/-! ## One record -/

section

variable {d : Disk} {poffset : Nat → Nat}

/-- An entry that is passed over, an extended one, or one that is to be spoofed. -/
theorem dosSpoof_false_cons (dp : DosPartition) (dps : List DosPartition) (s : DosState) :
    dosSpoof d false poffset (dp :: dps) s = dosSpoof d false poffset dps
      (if dpUsable d dp then
        if dpExtended dp then
          { s with
            extoff := (followLink (s.extoff, s.sector) dp.dpStart).1
            sector := (followLink (s.extoff, s.sector) dp.dpStart).2
            wander := true }
        else if 8 ≤ s.slots.length then s
        else
          { s with
            slots := s.slots ++ [⟨dosFstype dp,
              if dp.dpStart ≠ 0 then dl48 (dp.dpStart.toNat + s.sector) else poffset s.slots.length,
              dl48 dp.dpSize.toNat⟩] }
      else s) := by
  rw [dosSpoof]
  by_cases hty : dp.dpTyp = dosptypOpenbsd ∨ dp.dpTyp = dosptypEfi
  · have hun : dpUsable d dp = false := by
      rcases hty with h | h
      · simp only [dpUsable, h, ne_eq, not_true_eq_false, decide_false, Bool.false_and]
      · simp only [dpUsable, h, ne_eq, not_true_eq_false, decide_false, Bool.false_and, Bool.and_false]
    rw [if_pos hty, hun, if_neg Bool.false_ne_true]
  rw [if_neg hty]
  rw [not_or] at hty
  by_cases hbad : d.size < dp.dpSize.toNat ∨ d.size < dp.dpStart.toNat ∨ dp.dpSize = 0
  · have hun : dpUsable d dp = false := by
      rw [Bool.eq_false_iff]
      intro h
      simp only [dpUsable, Bool.and_eq_true, decide_eq_true_eq] at h
      obtain ⟨⟨⟨-, hsize⟩, hstart⟩, hz⟩ := h
      rcases hbad with hbad | hbad | hbad
      · omega
      · omega
      · exact hz hbad
    rw [if_pos hbad, hun, if_neg Bool.false_ne_true]
  · have hus : dpUsable d dp = true := by
      rw [not_or, not_or, Nat.not_lt, Nat.not_lt] at hbad
      simp only [dpUsable, Bool.and_eq_true, decide_eq_true_eq]
      exact ⟨⟨⟨hty, hbad.1⟩, hbad.2.1⟩, hbad.2.2⟩
    rw [if_neg hbad, if_pos hus]
    by_cases hext : dpExtended dp = true
    · rw [if_pos hext, if_pos hext]
      by_cases he : s.extoff = 0
      · simp only [followLink, if_pos he]
      · simp only [followLink, if_neg he]
    · rw [if_neg hext, if_neg hext]
      by_cases hfull : 8 ≤ s.slots.length
      · rw [if_pos (Or.inr hfull), if_pos hfull]
      · have hnot : ¬ (false = true ∨ 8 ≤ s.slots.length) := by
          rintro (h | h)
          · cases h
          · exact hfull h
        rw [if_neg hnot, if_neg hfull]

theorem recordLinks_cons (dp : DosPartition) (dps : List DosPartition) :
    recordLinks d (dp :: dps) =
      if dpUsable d dp then
        if dpExtended dp then dp.dpStart :: recordLinks d dps else recordLinks d dps
      else recordLinks d dps := by
  unfold recordLinks
  rw [filter_cons]
  cases dpUsable d dp with
  | false => rfl
  | true =>
    cases dpExtended dp with
    | false => rfl
    | true => rfl

/-- What the loop over a record leaves: the slots of its entries, and the two
    variables as its links leave them. -/
structure RecordDone (d : Disk) (poffset : Nat → Nat) (r : Nat) (e : UInt32) (ls : List UInt32)
    (dps : List DosPartition) (s t : DosState) : Prop where
  slots : t.slots = s.slots ++ codeSlots poffset s.slots.length (recordEntries d r e ls dps)
  base : (t.extoff, t.sector) = (ls ++ recordLinks d dps).foldl followLink (e, r)
  wander : t.wander = (s.wander || !(recordLinks d dps).isEmpty)

/-- The induction is on the entries left; the links before them say where the
    two variables stand. -/
theorem dosSpoof_record (r : Nat) (e : UInt32) (dps : List DosPartition) (ls : List UInt32)
    (s : DosState) (hs : (s.extoff, s.sector) = ls.foldl followLink (e, r)) :
    RecordDone d poffset r e ls dps s (dosSpoof d false poffset dps s) := by
  induction dps generalizing ls s with
  | nil =>
    refine ⟨?_, ?_, ?_⟩
    · exact (append_nil _).symm
    · show (s.extoff, s.sector) = (ls ++ []).foldl followLink (e, r)
      rw [append_nil]
      exact hs
    · exact (Bool.or_false _).symm
  | cons dp dps ih =>
    rw [dosSpoof_false_cons]
    cases hus : dpUsable d dp with
    | false =>
      -- passed over
      obtain ⟨hslots, hbase, hwander⟩ := ih ls s hs
      have hent : recordEntries d r e ls (dp :: dps) = recordEntries d r e ls dps := by
        rw [recordEntries, hus, if_neg Bool.false_ne_true]
      have hlinks : recordLinks d (dp :: dps) = recordLinks d dps := by
        rw [recordLinks_cons, hus, if_neg Bool.false_ne_true]
      rw [if_neg Bool.false_ne_true]
      refine ⟨?_, ?_, ?_⟩
      · rw [hent]
        exact hslots
      · rw [hlinks]
        exact hbase
      · rw [hlinks]
        exact hwander
    | true =>
      rw [if_pos rfl]
      cases hext : dpExtended dp with
      | true =>
        -- an extended entry joins the links
        rw [if_pos rfl]
        have hent : recordEntries d r e ls (dp :: dps)
            = recordEntries d r e (ls ++ [dp.dpStart]) dps := by
          rw [recordEntries, hus, if_pos rfl, hext, if_pos rfl]
        have hlinks : recordLinks d (dp :: dps) = dp.dpStart :: recordLinks d dps := by
          rw [recordLinks_cons, hus, if_pos rfl, hext, if_pos rfl]
        obtain ⟨hslots, hbase, hwander⟩ := ih (ls ++ [dp.dpStart]) { s with
            extoff := (followLink (s.extoff, s.sector) dp.dpStart).1
            sector := (followLink (s.extoff, s.sector) dp.dpStart).2
            wander := true } (by rw [foldl_append, ← hs]; rfl)
        refine ⟨?_, ?_, ?_⟩
        · rw [hent]
          exact hslots
        · rw [hlinks, hbase, append_assoc, singleton_append]
        · rw [hlinks, hwander, isEmpty_cons, Bool.not_false, Bool.or_true]
          rfl
      | false =>
        rw [if_neg Bool.false_ne_true]
        have hent : recordEntries d r e ls (dp :: dps)
            = ⟨r, e, ls, dp⟩ :: recordEntries d r e ls dps := by
          rw [recordEntries, hus, if_pos rfl, hext, if_neg Bool.false_ne_true]
        have hlinks : recordLinks d (dp :: dps) = recordLinks d dps := by
          rw [recordLinks_cons, hus, if_pos rfl, hext, if_neg Bool.false_ne_true]
        by_cases hfull : 8 ≤ s.slots.length
        · obtain ⟨hslots, hbase, hwander⟩ := ih ls s hs
          rw [if_pos hfull]
          refine ⟨?_, ?_, ?_⟩
          · rw [codeSlots_full poffset hfull] at hslots
            rw [codeSlots_full poffset hfull]
            exact hslots
          · rw [hlinks]
            exact hbase
          · rw [hlinks]
            exact hwander
        · -- the entry gets the next slot
          rw [if_neg hfull]
          obtain ⟨hslots, hbase, hwander⟩ := ih ls { s with
              slots := s.slots ++ [⟨dosFstype dp,
                if dp.dpStart ≠ 0 then dl48 (dp.dpStart.toNat + s.sector)
                else poffset s.slots.length, dl48 dp.dpSize.toNat⟩] } hs
          refine ⟨?_, ?_, ?_⟩
          · have hslot : codeSlot poffset s.slots.length ⟨r, e, ls, dp⟩
                = ⟨dosFstype dp, if dp.dpStart ≠ 0 then dl48 (dp.dpStart.toNat + s.sector)
                    else poffset s.slots.length, dl48 dp.dpSize.toNat⟩ := by
              unfold codeSlot
              dsimp only
              rw [← hs]
            rw [hslots, hent, codeSlots, if_neg hfull, hslot, length_append,
              length_singleton, append_assoc, singleton_append]
          · rw [hlinks]
            exact hbase
          · rw [hlinks]
            exact hwander

/-! ## The chain of records -/

/-- The variables of `readdoslabel` when its loop is left, be it by an error: what
    was spoofed until then is in the label. -/
def dosLeft (d : Disk) (poffset : Nat → Nat) : Nat → DosState → DosState
  | 0, s => s
  | fuel + 1, s =>
    if s.wander = false then s
    else
      match dosRecord d false poffset s with
      | .error _ => s
      | .ok (s, .next) => dosLeft d poffset fuel s
      | .ok (s, _) => s

theorem dosRecord_off {s : DosState} (h : d.size ≤ max s.sector s.extoff.toNat) :
    dosRecord d false poffset s = .error (.errno .eio) := by
  have hread : strategy d (dlSectoblk d (max s.sector s.extoff.toNat)) = .error (.errno .eio) := by
    rw [strategy, dlBlktosec_sectoblk, if_neg (Nat.not_lt.mpr h)]
  simp only [dosRecord, hread, bind, Except.bind]

theorem dosRecord_unmarked {s : DosState} (hd : 0 < d.size) (hs : s.slots = [])
    (hx : max s.sector s.extoff.toNat = 0) (hm : ¬ mbrMarked d) :
    ∃ t, dosRecord d false poffset s = .ok (t, .notmbr) ∧ t.slots = [] := by
  have hread : strategy d (dlSectoblk d 0) = .ok (d.sector 0) := strategy_sectoblk hd
  have hbad : s.slots.length = 0 ∧ 0 = dosbbsector ∧
      ((d.sector 0).getD 510 0 ≠ 0x55 ∨ (d.sector 0).getD 511 0 ≠ 0xaa) := by
    refine ⟨by rw [hs]; rfl, rfl, ?_⟩
    rw [mbrMarked, not_and_or] at hm
    exact hm
  simp only [dosRecord, hx, hread, bind, Except.bind, pure, Except.pure, if_pos hbad]
  exact ⟨_, rfl, hs⟩

theorem dosRecord_scanned {s : DosState} {x : Nat} (hx : max s.sector s.extoff.toNat = x)
    (hd : x < d.size) (hm : mbrMarked d) :
    ∃ t, dosRecord d false poffset s
        = .ok (dosSpoof d false poffset (dmbrParts (d.sector x)) t, .next) ∧
      t.slots = s.slots ∧ t.extoff = s.extoff ∧ t.sector = x ∧ t.wander = false := by
  have hread : strategy d (dlSectoblk d x) = .ok (d.sector x) := strategy_sectoblk hd
  have hgood : ¬ (s.slots.length = 0 ∧ x = dosbbsector ∧
      ((d.sector x).getD 510 0 ≠ 0x55 ∨ (d.sector x).getD 511 0 ≠ 0xaa)) := by
    rintro ⟨-, rfl, h | h⟩
    · exact h hm.1
    · exact h hm.2
  simp only [dosRecord, hx, hread, bind, Except.bind, pure, Except.pure, if_neg hgood]
  -- the search for the OpenBSD partition leaves these variables alone
  cases s.ourpart with
  | some j => exact ⟨_, rfl, rfl, rfl, rfl, rfl⟩
  | none =>
    cases dosOurpart (dmbrParts (d.sector x)) with
    | none => exact ⟨_, rfl, rfl, rfl, rfl, rfl⟩
    | some i => exact ⟨_, rfl, rfl, rfl, rfl, rfl⟩

theorem dosLeft_stop {fuel : Nat} {s : DosState} (hs : s.wander = false) :
    dosLeft d poffset fuel s = s := by
  cases fuel with
  | zero => rfl
  | succ fuel => rw [dosLeft, if_pos hs]

/-- The loop spoofs the entries of the records in their order. -/
theorem dosLeft_slots (hm : mbrMarked d) (fuel : Nat) (s : DosState) (hs : s.wander = true) :
    (dosLeft d poffset fuel s).slots = s.slots ++ codeSlots poffset s.slots.length
      (entriesOf d (bootRecords d fuel (max s.sector s.extoff.toNat) s.extoff)) := by
  induction fuel generalizing s with
  | zero => exact (append_nil _).symm
  | succ fuel ih =>
    have hgo : ¬ s.wander = false := by
      rw [hs]
      decide
    rw [dosLeft, if_neg hgo, bootRecords]
    by_cases hd : max s.sector s.extoff.toNat < d.size
    · obtain ⟨t, hrec, hslots, hext, hsec, hwander⟩ := @dosRecord_scanned d poffset s _ rfl hd hm
      have hdone := @dosSpoof_record d poffset (max s.sector s.extoff.toNat) s.extoff
        (dmbrParts (d.sector (max s.sector s.extoff.toNat))) [] t
        (by rw [hext, hsec]; rfl)
      rw [hrec, if_pos hd]
      dsimp only
      have hrest := hdone.wander
      have hbase := hdone.base
      have hgot := hdone.slots
      rw [hslots] at hgot
      rw [hwander, Bool.false_or] at hrest
      rw [nil_append] at hbase
      by_cases hlinks : recordLinks d (dmbrParts (d.sector (max s.sector s.extoff.toNat))) = []
      · -- no link: this record is the last one
        rw [hlinks, isEmpty_nil, Bool.not_true] at hrest
        rw [dosLeft_stop hrest, if_pos hlinks, hgot]
        unfold entriesOf
        rw [flatMap_singleton]
      · have hmore : (dosSpoof d false poffset
            (dmbrParts (d.sector (max s.sector s.extoff.toNat))) t).wander = true := by
          rw [hrest, Bool.not_eq_true', isEmpty_eq_false_iff]
          exact hlinks
        have hfst := congrArg Prod.fst hbase
        have hsnd := congrArg Prod.snd hbase
        dsimp only at hfst hsnd
        rw [ih _ hmore, hgot, if_neg hlinks, hfst, hsnd]
        unfold entriesOf
        rw [flatMap_cons, codeSlots_append, append_assoc, length_append]
    · rw [dosRecord_off (Nat.not_lt.mp hd), if_neg hd]
      exact (append_nil _).symm

/-- The partitions that `readdoslabel` with a `partoffp` of NULL has spoofed from
    boot records when it returns, by an error or not. -/
def dosSlots (d : Disk) (secpercyl bend : Nat) (poffset : Nat → Nat) : List Partition :=
  if secpercyl = 0 then []
  else (dosLeft d poffset dosMaxebr ⟨dosbbsector, 0, true, none, 0, bend, [], []⟩).slots

theorem dosSlots_eq {secpercyl : Nat} (hcyl : secpercyl ≠ 0) (bend : Nat) :
    dosSlots d secpercyl bend poffset = codeSlots poffset 0 (spoofEntries d) := by
  rw [dosSlots, if_neg hcyl, spoofEntries]
  by_cases hm : mbrMarked d
  · rw [if_pos hm, dosLeft_slots hm _ _ rfl]
    rfl
  · rw [if_neg hm]
    show (dosLeft d poffset (255 + 1) _).slots = []
    rw [dosLeft, if_neg Bool.noConfusion]
    by_cases hd : 0 < d.size
    · obtain ⟨t, hrec, hslots⟩ := @dosRecord_unmarked d poffset
        ⟨dosbbsector, 0, true, none, 0, bend, [], []⟩ hd rfl rfl hm
      rw [hrec]
      exact hslots
    · rw [dosRecord_off (by omega)]

/-! ## Right offsets -/

variable {e : UInt32}

theorem foldl_followLink_of_ne (he : e ≠ 0) (ls : List UInt32) (r : Nat) :
    ls.foldl followLink (e, r)
      = (e, match ls.getLast? with
        | none => r
        | some l => (l + e).toNat) := by
  induction ls generalizing r with
  | nil => rfl
  | cons l ls ih =>
    have hstep : followLink (e, r) l = (e, (l + e).toNat) := if_neg he
    rw [foldl_cons, hstep, ih]
    cases ls with
    | nil => rfl
    | cons l' ls => rw [getLast?_cons_cons]; rfl

theorem foldl_followLink_zero (ls : List UInt32) :
    ls.foldl followLink (0, 0) = match ls.dropWhile (· = 0) with
      | [] => (0, 0)
      | l₀ :: rest => rest.foldl followLink (l₀, 0) := by
  induction ls with
  | nil => rfl
  | cons l ls ih =>
    have hstep : followLink (0, 0) l = (l, 0) := if_pos rfl
    rw [foldl_cons, hstep]
    by_cases hl : l = 0
    · have hdrop : (0 :: ls).dropWhile (fun l : UInt32 => decide (l = 0))
          = ls.dropWhile fun l => decide (l = 0) := dropWhile_cons_of_pos (decide_eq_true rfl)
      rw [hl, ih, hdrop]
    · rw [dropWhile_cons_of_neg (by rw [decide_eq_true_eq]; exact hl)]

/-- The base is still the sector of the record when the scan comes to this entry:
    no extended entry is in front of it, or the last one leads to this very
    sector; in the MBR those that start at 0 and the first other one are harmless,
    as `sector` is 0 behind them. -/
def BaseKept (x : SpoofEntry) : Prop :=
  if x.extoff = 0 then
    ∀ l₀ rest, x.links.dropWhile (· = 0) = l₀ :: rest → ∀ l ∈ rest.getLast?, (l + l₀).toNat = x.record
  else ∀ l ∈ x.links.getLast?, (l + x.extoff).toNat = x.record

/-- An entry of a chain that starts at the MBR. -/
structure Chained (r : Nat) (e : UInt32) : Prop where
  record : r < 2 ^ 32
  extoff : e = 0 → r = 0

variable {x : SpoofEntry}

theorem baseKept_iff (hx : Chained x.record x.extoff) :
    BaseKept x ↔ (x.links.foldl followLink (x.extoff, x.record)).2 = x.record := by
  unfold BaseKept
  by_cases he : x.extoff = 0
  · rw [if_pos he, he, hx.extoff he, foldl_followLink_zero]
    cases hls : x.links.dropWhile (· = 0) with
    | nil =>
      refine ⟨fun _ => rfl, fun _ l₀ rest h => ?_⟩
      cases h
    | cons l₀ rest =>
      -- the first link that is dropped no more is not 0
      have hl₀ : l₀ ≠ 0 := by
        intro h
        have hhead := head_dropWhile_not (fun l : UInt32 => decide (l = 0))
          (by rw [hls]; exact cons_ne_nil _ _ : x.links.dropWhile _ ≠ [])
        simp only [hls, head_cons, h, decide_true] at hhead
        cases hhead
      dsimp only
      rw [foldl_followLink_of_ne hl₀]
      cases hlast : rest.getLast? with
      | none =>
        refine ⟨fun _ => rfl, fun _ l₁ rest' h l hl => ?_⟩
        injection h with h h'
        rw [← h', hlast] at hl
        cases hl
      | some l =>
        constructor
        · intro h
          exact h l₀ rest rfl l hlast
        · intro h l₁ rest' h' l' hl'
          injection h' with h' h''
          rw [← h'', hlast] at hl'
          injection hl' with hl'
          rw [← h', ← hl']
          exact h
  · rw [if_neg he, foldl_followLink_of_ne he]
    cases hlast : x.links.getLast? with
    | none =>
      refine ⟨fun _ => rfl, fun _ l hl => ?_⟩
      cases hl
    | some l =>
      constructor
      · intro h
        exact h l rfl
      · intro h l' hl'
        injection hl' with hl'
        rw [← hl']
        exact h

theorem Chained.next {r : Nat} (h : Chained r e) (ls : List UInt32) :
    Chained (max (ls.foldl followLink (e, r)).2 (ls.foldl followLink (e, r)).1.toNat)
      (ls.foldl followLink (e, r)).1 := by
  have hstep : ∀ (ls : List UInt32) (v : UInt32 × Nat), v.2 < 2 ^ 32 → (v.1 = 0 → v.2 = 0) →
      (ls.foldl followLink v).2 < 2 ^ 32 ∧
        ((ls.foldl followLink v).1 = 0 → (ls.foldl followLink v).2 = 0) := by
    intro ls
    induction ls with
    | nil => exact fun v h₁ h₂ => ⟨h₁, h₂⟩
    | cons l ls ih =>
      intro v h₁ h₂
      rw [foldl_cons]
      apply ih
      · rw [followLink]
        split
        · show 0 < 2 ^ 32
          decide
        · exact UInt32.toNat_lt _
      · rw [followLink]
        split
        · intro _
          rfl
        · rename_i hne
          intro hz
          exact absurd hz hne
  obtain ⟨hlt, hzero⟩ := hstep ls (e, r) h.record h.extoff
  constructor
  · exact Nat.max_lt.mpr ⟨hlt, UInt32.toNat_lt _⟩
  · intro he
    rw [hzero he, he]
    rfl

theorem bootRecords_chained {n r : Nat} (h : Chained r e) :
    ∀ v ∈ bootRecords d n r e, Chained v.1 v.2 := by
  induction n generalizing r e with
  | zero =>
    intro v hv
    cases hv
  | succ n ih =>
    intro v hv
    rw [bootRecords] at hv
    split at hv
    · rw [mem_cons] at hv
      rcases hv with rfl | hv
      · exact h
      · split at hv
        · cases hv
        · exact ih (h.next _) v hv
    · cases hv

theorem recordEntries_record {r : Nat} {ls : List UInt32} {dps : List DosPartition} :
    ∀ x ∈ recordEntries d r e ls dps, x.record = r ∧ x.extoff = e := by
  induction dps generalizing ls with
  | nil =>
    intro x hx
    cases hx
  | cons dp dps ih =>
    intro x hx
    rw [recordEntries] at hx
    split at hx
    · split at hx
      · exact ih x hx
      · rw [mem_cons] at hx
        rcases hx with rfl | hx
        · exact ⟨rfl, rfl⟩
        · exact ih x hx
    · exact ih x hx

theorem spoofEntries_chained (hx : x ∈ spoofEntries d) :
    Chained x.record x.extoff := by
  rw [spoofEntries] at hx
  split at hx
  · obtain ⟨v, hv, hx⟩ := mem_flatMap.mp hx
    obtain ⟨hr, he⟩ := recordEntries_record x hx
    rw [hr, he]
    have hstart : Chained dosbbsector 0 := by
      constructor
      · decide
      · intro _
        rfl
    exact bootRecords_chained hstart v hv
  · cases hx

/-- Slot `k` is right for an entry when its base was kept, or, if it starts at 0
    and so leaves the offset alone, when the slot had that offset before. -/
theorem codeSlot_right_iff (hx : Chained x.record x.extoff) (k : Nat) :
    codeSlot poffset k x = rightSlot x ↔
      if x.dp.dpStart = 0 then poffset k = x.record else BaseKept x := by
  have hstart := x.dp.dpStart.toNat_lt
  have hsize : dl48 x.dp.dpSize.toNat = x.dp.dpSize.toNat := by
    have := x.dp.dpSize.toNat_lt
    rw [dl48]
    omega
  unfold codeSlot rightSlot
  rw [Disklabel.Partition.mk.injEq, hsize]
  by_cases hz : x.dp.dpStart = 0
  · have hzero : x.dp.dpStart.toNat = 0 := by
      rw [hz]
      rfl
    rw [if_neg (not_not.mpr hz), if_pos hz, hzero, Nat.zero_add]
    exact ⟨fun h => h.2.1, fun h => ⟨rfl, h, rfl⟩⟩
  · rw [if_pos hz, if_neg hz, baseKept_iff hx]
    -- neither sum has more than 48 bits
    have hbase : (x.links.foldl followLink (x.extoff, x.record)).2 < 2 ^ 32 :=
      lt_of_le_of_lt (le_max_left _ _) (hx.next x.links).record
    have hdl : dl48 (x.dp.dpStart.toNat + (x.links.foldl followLink (x.extoff, x.record)).2)
        = x.dp.dpStart.toNat + (x.links.foldl followLink (x.extoff, x.record)).2 := by
      rw [dl48]
      omega
    rw [hdl]
    constructor
    · rintro ⟨-, h, -⟩
      omega
    · intro h
      exact ⟨rfl, by rw [h], rfl⟩

/-- Each partition that is spoofed has the size and the place of its entry. -/
def SpoofedRight (d : Disk) (secpercyl bend : Nat) (poffset : Nat → Nat) : Prop :=
  ∀ (k : Nat) (p : Partition), (dosSlots d secpercyl bend poffset)[k]? = some p →
    ∃ x, (spoofEntries d)[k]? = some x ∧ p = rightSlot x

/-- The spoofed partitions are right exactly when each of the first eight entries
    has its base kept or, if it starts at 0, the right offset in its slot
    before. -/
theorem spoofedRight_iff (d : Disk) (secpercyl bend : Nat) (poffset : Nat → Nat) :
    SpoofedRight d secpercyl bend poffset ↔
      secpercyl = 0 ∨ ∀ k < 8, ∀ x, (spoofEntries d)[k]? = some x →
        if x.dp.dpStart = 0 then poffset k = x.record else BaseKept x := by
  unfold SpoofedRight
  by_cases hcyl : secpercyl = 0
  · refine ⟨fun _ => Or.inl hcyl, fun _ k p hp => ?_⟩
    rw [dosSlots, if_pos hcyl, getElem?_nil] at hp
    cases hp
  rw [dosSlots_eq hcyl]
  constructor
  · intro h
    refine Or.inr ?_
    intro k hk x hx
    rw [← codeSlot_right_iff (spoofEntries_chained (mem_of_getElem? hx)) k]
    have hslot : (codeSlots poffset 0 (spoofEntries d))[k]? = some (codeSlot poffset k x) := by
      rw [codeSlots_getElem?, Nat.zero_add, if_pos hk, hx, Option.map_some]
    obtain ⟨y, hy, hright⟩ := h k _ hslot
    rw [hx] at hy
    injection hy with hy
    rw [hright, hy]
  · rintro (h | h)
    · exact absurd h hcyl
    intro k p hp
    rw [codeSlots_getElem?, Nat.zero_add] at hp
    split at hp
    · rename_i hk
      obtain ⟨x, hx, hslot⟩ := Option.map_eq_some_iff.mp hp
      refine ⟨x, hx, ?_⟩
      rw [← hslot, codeSlot_right_iff (spoofEntries_chained (mem_of_getElem? hx)) k]
      exact h k hk x hx
    · cases hp

/-- An unused entry. -/
def unusedDp : DosPartition := ⟨0, 0, 0, 0, 0, 0, 0, 0, 0, 0⟩

/-- A FAT entry on 10 sectors behind its record. -/
def fatDp : DosPartition := ⟨0, 0, 0, 0, dosptypFat32, 0, 0, 0, 1, 10⟩

/-- An MBR with an extended entry on sectors 64 to 1063, and in sector 64 a record
    whose link stands in front of its FAT entry. -/
def linkFirstDisk : Disk where
  secsize := devBsize
  size := 2000
  sector n := bootRecord
    (if n = 0 then #v[⟨0, 0, 0, 0, dosptypExtend, 0, 0, 0, 64, 1000⟩, unusedDp, unusedDp, unusedDp]
    else if n = 64 then
      #v[⟨0, 0, 0, 0, dosptypExtend, 0, 0, 0, 100, 100⟩, fatDp, unusedDp, unusedDp]
    else #v[unusedDp, unusedDp, unusedDp, unusedDp])
  secsize_pos := devBsize_pos
  secsize_dvd := Nat.dvd_refl devBsize
  size_lt := by decide
  length_sector _ := length_bootRecord _

/-- The FAT partition at sector 65 is placed at sector 165. -/
theorem link_first_displaces :
    dosSlots linkFirstDisk 1 0 (fun _ => 0) = [⟨.msdos, 165, 10⟩] ∧
      spoofEntries linkFirstDisk = [⟨64, 64, [100], fatDp⟩] ∧
      ¬ SpoofedRight linkFirstDisk 1 0 fun _ => 0 := by
  have hent : spoofEntries linkFirstDisk = [⟨64, 64, [100], fatDp⟩] := by
    decide +kernel
  have hslots : dosSlots linkFirstDisk 1 0 (fun _ => 0) = [⟨.msdos, 165, 10⟩] := by
    rw [dosSlots_eq Nat.one_ne_zero, hent]
    decide
  refine ⟨hslots, hent, ?_⟩
  intro h
  obtain ⟨x, hx, hright⟩ := h 0 ⟨.msdos, 165, 10⟩ (by rw [hslots]; rfl)
  rw [hent] at hx
  injection hx with hx
  rw [← hx] at hright
  exact absurd hright (by decide)

end

end OpenBsd.Kern
