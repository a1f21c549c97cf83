/-
  OpenBsd.Boot.MbrAgree

  The MBR as efiboot's `findopenbsd` and the kernel's `readdoslabel` walk it.

  They keep different books: efiboot takes the first extended entry, the kernel the last;
  efiboot does not follow a link whose sum wraps, the kernel goes back to the first extended
  record; and efiboot never scales a sector number to 512-byte blocks.  `walk_agree` is the
  lock-step argument for the chains on which none of this shows.
-/

import OpenBsd.Kern.SubrDisk
import OpenBsd.Efiboot.Efidev

namespace OpenBsd.Boot

open OpenBsd.Lib
open List hiding Vector
open OpenBsd.Disklabel
open OpenBsd.Kern
open OpenBsd.Efiboot

variable {q : DosPartition} {e l : UInt32} {s : DosState} {V : Nat → Prop} {x : Nat}

/-! ## Records -/

/-- An OpenBSD entry in use. -/
def isOurs (dp : DosPartition) : Bool := dp.dpSize ≠ 0 && dp.dpTyp = dosptypOpenbsd

/-- The start fields of the extended entries in use.  In the MBR, where the
    base `e` is 0, a start of 0 leads nowhere. -/
def links (e : UInt32) (dps : List DosPartition) : List UInt32 :=
  (dps.filter fun dp => dp.dpSize ≠ 0 && dpExtended dp && (e ≠ 0 || dp.dpStart ≠ 0)).map (·.dpStart)

/-- A record with a valid signature, without protective entries, whose fields
    stay on the disk. -/
structure ValidRecord (d : Disk) (sec : List UInt8) : Prop where
  sign : dmbrSign sec = dosmbrSignature
  noEfi : ∀ dp ∈ dmbrParts sec, dp.dpTyp ≠ dosptypEfi
  within : ∀ dp ∈ dmbrParts sec, dp.dpStart.toNat ≤ d.size ∧ dp.dpSize.toNat ≤ d.size

/-- A record in sector `s` under the extended base `e` in which both walkers
    find the same: its OpenBSD entry starts below the last 32-bit block, or it
    has at most one link and the link does not lead to the last 32-bit block. -/
structure RegularRecord (e s : UInt32) (sec : List UInt8) : Prop where
  ours : ∀ dp, (dmbrParts sec).find? isOurs = some dp → dp.dpStart.toNat + s.toNat < 2 ^ 32 - 1
  links : (dmbrParts sec).find? isOurs = none →
    (links e (dmbrParts sec)).length ≤ 1 ∧
      ∀ l ∈ Boot.links e (dmbrParts sec), l.toNat + e.toNat ≠ 2 ^ 32 - 1

/-- `P` holds of the records of a chain: from sector `s` under the base `e`
    along single links, for at most `n` records, as long as no link wraps. -/
def AlongChain (d : Disk) (P : UInt32 → UInt32 → List UInt8 → Prop) :
    Nat → UInt32 → UInt32 → Prop
  | 0, _, _ => True
  | n + 1, e, s => s.toNat < d.size →
      P e s (d.sector s.toNat) ∧
        ∀ l, (dmbrParts (d.sector s.toNat)).find? isOurs = none →
          links e (dmbrParts (d.sector s.toNat)) = [l] → l.toNat + e.toNat < 2 ^ 32 →
          AlongChain d P n (if e = 0 then l else e) (l + e)

/-! ## 32-bit sums -/

theorem add_lt_left_iff (a b : UInt32) : a + b < a ↔ 2 ^ 32 ≤ a.toNat + b.toNat := by
  have ha := a.toNat_lt
  have hb := b.toNat_lt
  rw [UInt32.lt_iff_toNat_lt, UInt32.toNat_add]
  omega

theorem toNat_add_of_lt {a b : UInt32} (h : a.toNat + b.toNat < 2 ^ 32) :
    (a + b).toNat = a.toNat + b.toNat := by
  rw [UInt32.toNat_add]
  exact Nat.mod_eq_of_lt h

theorem ne_zero_iff_pos (e : UInt32) : e ≠ 0 ↔ 0 < e.toNat := by
  constructor
  · intro h
    apply Nat.pos_of_ne_zero
    intro hz
    exact h (UInt32.toNat_inj.mp hz)
  · rintro h rfl
    exact absurd h (by decide)

/-! ## efiboot on one record -/

section

variable {d : Disk} {mbroff : UInt32} {dps : List DosPartition}

theorem isOurs_iff (dp : DosPartition) :
    isOurs dp = true ↔ dp.dpSize ≠ 0 ∧ dp.dpTyp = dosptypOpenbsd := by
  rw [isOurs, Bool.and_eq_true, decide_eq_true_eq, decide_eq_true_eq]

theorem mbrScan_ours {dp : DosPartition} (hefi : ∀ dp ∈ dps, dp.dpTyp ≠ dosptypEfi)
    (hfind : dps.find? isOurs = some dp) (hsum : dp.dpStart.toNat + mbroff.toNat < 2 ^ 32)
    (n e : UInt32) :
    mbrScan d mbroff dps n e = .ret (.val (dp.dpStart + mbroff) none) := by
  induction dps generalizing n e with
  | nil => cases hfind
  | cons q dps ih =>
    have hrest : ∀ dp ∈ dps, dp.dpTyp ≠ dosptypEfi := fun dp h => hefi dp (mem_cons_of_mem _ h)
    rw [mbrScan]
    by_cases hz : q.dpSize = 0
    · -- an unused entry is passed over
      have hno : isOurs q = false := by simp [isOurs, hz]
      rw [find?_cons, hno] at hfind
      rw [if_pos hz]
      exact ih hrest hfind n e
    rw [if_neg hz]
    by_cases ho : q.dpTyp = dosptypOpenbsd
    · have hyes : isOurs q = true := (isOurs_iff q).mpr ⟨hz, ho⟩
      rw [find?_cons, hyes] at hfind
      obtain rfl : q = dp := Option.some.inj hfind
      -- the sum does not wrap, so the start test passes
      have hle : ¬ q.dpStart > q.dpStart + mbroff := by
        rw [gt_iff_lt, add_lt_left_iff]
        omega
      rw [if_pos ho, if_neg hle]
    · have hno : isOurs q = false := by simp [isOurs, ho]
      rw [find?_cons, hno] at hfind
      rw [if_neg ho, if_neg (hefi q mem_cons_self)]
      -- an extended entry only sets the two variables
      split
      · exact ih hrest hfind _ _
      · exact ih hrest hfind _ _

theorem mbrScan_cons (hefi : q.dpTyp ≠ dosptypEfi) (hno : isOurs q = false) (n e : UInt32) :
    mbrScan d mbroff (q :: dps) n e =
      if q.dpSize ≠ 0 ∧ n = 0 ∧ dpExtended q then
        mbrScan d mbroff dps (if q.dpStart + e < q.dpStart then -1 else q.dpStart + e)
          (if e = 0 then q.dpStart else e)
      else mbrScan d mbroff dps n e := by
  rw [mbrScan]
  by_cases hz : q.dpSize = 0
  · rw [if_pos hz, if_neg fun h => h.1 hz]
  · have ho : ¬ q.dpTyp = dosptypOpenbsd := by
      intro h
      rw [(isOurs_iff q).mpr ⟨hz, h⟩] at hno
      cases hno
    -- among what is left only the test for an extended entry has an effect
    have hext : (n = 0 ∧ (q.dpTyp = dosptypExtend ∨ q.dpTyp = dosptypExtendl)) ↔
        (q.dpSize ≠ 0 ∧ n = 0 ∧ dpExtended q) := by
      rw [dpExtended, Bool.or_eq_true, decide_eq_true_eq, decide_eq_true_eq]
      exact ⟨fun h => ⟨hz, h⟩, fun h => h.2⟩
    rw [if_neg hz, if_neg ho, if_neg hefi]
    by_cases hc : q.dpSize ≠ 0 ∧ n = 0 ∧ dpExtended q
    · rw [if_pos hc, if_pos (hext.mpr hc)]
    · rw [if_neg hc, if_neg fun h => hc (hext.mp h)]

theorem find?_cons_none (h : (q :: dps).find? isOurs = none) :
    isOurs q = false ∧ dps.find? isOurs = none := by
  rw [find?_cons] at h
  cases hq : isOurs q with
  | true =>
    rw [hq] at h
    cases h
  | false =>
    rw [hq] at h
    exact ⟨rfl, h⟩

theorem mbrScan_settled (hefi : ∀ dp ∈ dps, dp.dpTyp ≠ dosptypEfi)
    (hnone : dps.find? isOurs = none) {n : UInt32} (hn : n ≠ 0) (e : UInt32) :
    mbrScan d mbroff dps n e = .done n e := by
  induction dps with
  | nil => rfl
  | cons q dps ih =>
    obtain ⟨hq, hrest⟩ := find?_cons_none hnone
    rw [mbrScan_cons (hefi q mem_cons_self) hq, if_neg fun h => hn h.2.1]
    exact ih (fun dp h => hefi dp (mem_cons_of_mem _ h)) hrest

theorem links_cons (e : UInt32) (q : DosPartition) :
    links e (q :: dps) =
      if q.dpSize ≠ 0 ∧ dpExtended q ∧ (e ≠ 0 ∨ q.dpStart ≠ 0) then q.dpStart :: links e dps
      else links e dps := by
  have hiff : (q.dpSize ≠ 0 && dpExtended q && (e ≠ 0 || q.dpStart ≠ 0)) = true ↔
      (q.dpSize ≠ 0 ∧ dpExtended q ∧ (e ≠ 0 ∨ q.dpStart ≠ 0)) := by
    simp only [Bool.and_eq_true, Bool.or_eq_true, decide_eq_true_eq, ne_eq, and_assoc]
  rw [links, filter_cons]
  by_cases hc : q.dpSize ≠ 0 ∧ dpExtended q ∧ (e ≠ 0 ∨ q.dpStart ≠ 0)
  · rw [if_pos (hiff.mpr hc), if_pos hc, map_cons, links]
  · rw [if_neg fun h => hc (hiff.mp h), if_neg hc, links]

theorem mbrScan_links_nil (hefi : ∀ dp ∈ dps, dp.dpTyp ≠ dosptypEfi)
    (hnone : dps.find? isOurs = none) (hl : links e dps = []) :
    mbrScan d mbroff dps 0 e = .done 0 e := by
  induction dps with
  | nil => rfl
  | cons q dps ih =>
    obtain ⟨hq, hrest⟩ := find?_cons_none hnone
    have ih' := fun h => ih (fun dp h => hefi dp (mem_cons_of_mem _ h)) hrest h
    rw [links_cons] at hl
    rw [mbrScan_cons (hefi q mem_cons_self) hq]
    by_cases hlink : q.dpSize ≠ 0 ∧ dpExtended q ∧ (e ≠ 0 ∨ q.dpStart ≠ 0)
    · rw [if_pos hlink] at hl
      cases hl
    rw [if_neg hlink] at hl
    by_cases hext : q.dpSize ≠ 0 ∧ (0 : UInt32) = 0 ∧ dpExtended q
    · -- an extended entry of the MBR that starts at 0 leaves both variables 0
      have hzero : e = 0 ∧ q.dpStart = 0 := by
        by_contra hc
        rw [not_and_or] at hc
        exact hlink ⟨hext.1, hext.2.2, hc⟩
      obtain ⟨rfl, hs⟩ := hzero
      rw [if_pos hext, hs]
      exact ih' hl
    · rw [if_neg hext]
      exact ih' hl

/-- One link: the scan records it, or -1 when the sum wraps. -/
theorem mbrScan_links_one (hefi : ∀ dp ∈ dps, dp.dpTyp ≠ dosptypEfi)
    (hnone : dps.find? isOurs = none) (hl : links e dps = [l]) :
    mbrScan d mbroff dps 0 e
      = .done (if l + e < l then -1 else l + e) (if e = 0 then l else e) := by
  induction dps with
  | nil => cases hl
  | cons q dps ih =>
    obtain ⟨hq, hrest⟩ := find?_cons_none hnone
    have hefi' : ∀ dp ∈ dps, dp.dpTyp ≠ dosptypEfi := fun dp h => hefi dp (mem_cons_of_mem _ h)
    rw [links_cons] at hl
    rw [mbrScan_cons (hefi q mem_cons_self) hq]
    by_cases hlink : q.dpSize ≠ 0 ∧ dpExtended q ∧ (e ≠ 0 ∨ q.dpStart ≠ 0)
    · rw [if_pos hlink] at hl
      obtain ⟨rfl, -⟩ := List.cons.inj hl
      rw [if_pos ⟨hlink.1, rfl, hlink.2.1⟩]
      apply mbrScan_settled hefi' hrest
      -- neither the sum nor its replacement is 0
      by_cases hw : q.dpStart + e < q.dpStart
      · rw [if_pos hw]
        decide
      · rw [if_neg hw]
        rw [add_lt_left_iff, Nat.not_le] at hw
        rw [ne_zero_iff_pos, toNat_add_of_lt hw]
        rcases hlink.2.2 with h | h
        · have := (ne_zero_iff_pos e).mp h
          omega
        · have := (ne_zero_iff_pos q.dpStart).mp h
          omega
    rw [if_neg hlink] at hl
    by_cases hext : q.dpSize ≠ 0 ∧ (0 : UInt32) = 0 ∧ dpExtended q
    · have hzero : e = 0 ∧ q.dpStart = 0 := by
        by_contra hc
        rw [not_and_or] at hc
        exact hlink ⟨hext.1, hext.2.2, hc⟩
      obtain ⟨rfl, hs⟩ := hzero
      rw [if_pos hext, hs]
      exact ih hefi' hrest hl
    · rw [if_neg hext]
      exact ih hefi' hrest hl

end

/-! ## The kernel on one record -/

section

variable {d : Disk} {poffset : Nat → Nat} {dps : List DosPartition}

theorem dosSpoof_cons (hefi : q.dpTyp ≠ dosptypEfi)
    (hin : q.dpStart.toNat ≤ d.size ∧ q.dpSize.toNat ≤ d.size) (s : DosState) :
    dosSpoof d true poffset (q :: dps) s = dosSpoof d true poffset dps
      (if q.dpSize ≠ 0 ∧ dpExtended q then
        if s.extoff = 0 then { s with extoff := q.dpStart, sector := 0, wander := true }
        else { s with sector := (q.dpStart + s.extoff).toNat, wander := true }
      else s) := by
  rw [dosSpoof]
  by_cases ho : q.dpTyp = dosptypOpenbsd
  · -- OpenBSD and EFI entries are left to others
    have hne : ¬ (q.dpSize ≠ 0 ∧ dpExtended q) := by
      rintro ⟨-, h⟩
      rw [dpExtended, ho] at h
      exact absurd h (by decide)
    rw [if_pos (Or.inl ho), if_neg hne]
  rw [if_neg (not_or.mpr ⟨ho, hefi⟩)]
  by_cases hz : q.dpSize = 0
  · rw [if_pos (Or.inr (Or.inr hz)), if_neg fun h => h.1 hz]
  -- the entry lies on the disk, so it is not skipped for its size
  have hon : ¬ (d.size < q.dpSize.toNat ∨ d.size < q.dpStart.toNat ∨ q.dpSize = 0) := by
    rintro (h | h | h)
    · omega
    · omega
    · exact hz h
  rw [if_neg hon]
  by_cases hext : dpExtended q = true
  · have hused : q.dpSize ≠ 0 ∧ dpExtended q := ⟨hz, hext⟩
    simp only [if_pos hext, if_pos hused]
  · have hunused : ¬ (q.dpSize ≠ 0 ∧ dpExtended q) := fun h => hext h.2
    -- only the placement is asked for: no slot is filled
    have hskip : true = true ∨ 8 ≤ s.slots.length := Or.inl rfl
    rw [if_neg hext, if_neg hunused, if_pos hskip]

section

variable (hefi : ∀ dp ∈ dps, dp.dpTyp ≠ dosptypEfi)
  (hin : ∀ dp ∈ dps, dp.dpStart.toNat ≤ d.size ∧ dp.dpSize.toNat ≤ d.size) {s : DosState}
include hefi hin

/-- Under a base of its own, entries that start at 0 can only lead back to the
    base. -/
theorem dosSpoof_base (he : s.extoff ≠ 0)
    (hzero : ∀ dp ∈ dps, dp.dpSize ≠ 0 → dpExtended dp → dp.dpStart = 0) :
    dosSpoof d true poffset dps s = s ∨
      dosSpoof d true poffset dps s = { s with sector := s.extoff.toNat, wander := true } := by
  induction dps generalizing s with
  | nil => exact Or.inl rfl
  | cons q dps ih =>
    have ih' := fun (t : DosState) ht => ih (s := t)
      (fun dp h => hefi dp (mem_cons_of_mem _ h))
      (fun dp h => hin dp (mem_cons_of_mem _ h)) ht
      (fun dp h => hzero dp (mem_cons_of_mem _ h))
    rw [dosSpoof_cons (hefi q mem_cons_self) (hin q mem_cons_self)]
    by_cases hext : q.dpSize ≠ 0 ∧ dpExtended q
    · -- a link of 0 leads back to the base
      have hs := hzero q mem_cons_self hext.1 hext.2
      rw [if_pos hext, if_neg he, hs, UInt32.zero_add]
      right
      rcases ih' { s with sector := s.extoff.toNat, wander := true } he with h | h
      · exact h
      · exact h
    · rw [if_neg hext]
      exact ih' s he

/-- No link: the kernel stays where it is, or starts over at the MBR. -/
theorem dosSpoof_links_nil (hl : links s.extoff dps = []) :
    dosSpoof d true poffset dps s = s ∨
      (s.extoff = 0 ∧ dosSpoof d true poffset dps s = { s with sector := 0, wander := true }) := by
  induction dps generalizing s with
  | nil => exact Or.inl rfl
  | cons q dps ih =>
    have ih' := fun (t : DosState) ht => ih (s := t)
      (fun dp h => hefi dp (mem_cons_of_mem _ h))
      (fun dp h => hin dp (mem_cons_of_mem _ h)) ht
    rw [links_cons] at hl
    rw [dosSpoof_cons (hefi q mem_cons_self) (hin q mem_cons_self)]
    -- no entry counts as a link
    by_cases hlink : q.dpSize ≠ 0 ∧ dpExtended q ∧ (s.extoff ≠ 0 ∨ q.dpStart ≠ 0)
    · rw [if_pos hlink] at hl
      cases hl
    rw [if_neg hlink] at hl
    by_cases hext : q.dpSize ≠ 0 ∧ dpExtended q
    · -- an extended entry at 0 of the MBR sends the kernel back to sector 0
      have hzero : s.extoff = 0 ∧ q.dpStart = 0 := by
        by_contra hc
        rw [not_and_or] at hc
        exact hlink ⟨hext.1, hext.2, hc⟩
      obtain ⟨he, hs⟩ := hzero
      have hsame : { s with extoff := q.dpStart, sector := 0, wander := true }
          = { s with sector := 0, wander := true } := by rw [hs, ← he]
      rw [if_pos hext, if_pos he, hsame]
      right
      refine ⟨he, ?_⟩
      rcases ih' { s with sector := 0, wander := true } hl with h | ⟨-, h⟩
      · exact h
      · exact h
    · rw [if_neg hext]
      exact ih' s hl

/-- One link: the next record the kernel looks at is the one efiboot goes to,
    or the first extended one when the sum wraps. -/
theorem dosSpoof_links_one {l : UInt32} (hl : links s.extoff dps = [l]) :
    ∃ sec, dosSpoof d true poffset dps s
        = { s with sector := sec, extoff := if s.extoff = 0 then l else s.extoff, wander := true } ∧
      max sec (if s.extoff = 0 then l else s.extoff).toNat
        = if l.toNat + s.extoff.toNat < 2 ^ 32 then l.toNat + s.extoff.toNat
          else s.extoff.toNat := by
  induction dps generalizing s with
  | nil => cases hl
  | cons q dps ih =>
    have hefi' : ∀ dp ∈ dps, dp.dpTyp ≠ dosptypEfi := fun dp h => hefi dp (mem_cons_of_mem _ h)
    have hin' : ∀ dp ∈ dps, dp.dpStart.toNat ≤ d.size ∧ dp.dpSize.toNat ≤ d.size :=
      fun dp h => hin dp (mem_cons_of_mem _ h)
    rw [links_cons] at hl
    rw [dosSpoof_cons (hefi q mem_cons_self) (hin q mem_cons_self)]
    by_cases hlink : q.dpSize ≠ 0 ∧ dpExtended q ∧ (s.extoff ≠ 0 ∨ q.dpStart ≠ 0)
    · rw [if_pos hlink] at hl
      obtain ⟨rfl, hrest⟩ := List.cons.inj hl
      rw [if_pos ⟨hlink.1, hlink.2.1⟩]
      -- what is left of the record has no link under the old base
      have hleft : ∀ dp ∈ dps, dp.dpSize ≠ 0 → dpExtended dp → s.extoff = 0 ∧ dp.dpStart = 0 := by
        intro dp hdp h1 h2
        by_contra hc
        rw [not_and_or] at hc
        have hmem : dp ∈ dps.filter fun dp =>
            dp.dpSize ≠ 0 && dpExtended dp && (s.extoff ≠ 0 || dp.dpStart ≠ 0) := by
          rw [mem_filter]
          refine ⟨hdp, ?_⟩
          simp only [Bool.and_eq_true, Bool.or_eq_true, decide_eq_true_eq, ne_eq]
          exact ⟨⟨h1, h2⟩, hc⟩
        have hne : dp.dpStart ∈ links s.extoff dps := mem_map_of_mem hmem
        rw [hrest] at hne
        cases hne
      have hlt := q.dpStart.toNat_lt
      by_cases he : s.extoff = 0
      · -- the first extended entry of the MBR becomes the base
        have hq : q.dpStart ≠ 0 := hlink.2.2.resolve_left (not_not.mpr he)
        have hpos := (ne_zero_iff_pos q.dpStart).mp hq
        have hz : s.extoff.toNat = 0 := by rw [he]; rfl
        rw [if_pos he, if_pos he, hz, Nat.add_zero, if_pos hlt]
        have hbase := @dosSpoof_base d poffset dps hefi' hin'
          { s with extoff := q.dpStart, sector := 0, wander := true } hq
          fun dp h h1 h2 => (hleft dp h h1 h2).2
        rcases hbase with h | h
        · exact ⟨0, h, by omega⟩
        · exact ⟨q.dpStart.toNat, h, Nat.max_self _⟩
      · have hl0 : links s.extoff dps = [] := hrest
        have hsum := UInt32.toNat_add q.dpStart s.extoff
        have hpos := s.extoff.toNat_lt
        rw [if_neg he, if_neg he]
        have hend := @dosSpoof_links_nil d poffset dps hefi' hin'
          { s with sector := (q.dpStart + s.extoff).toNat, wander := true } hl0
        rcases hend with h | ⟨h, -⟩
        · refine ⟨(q.dpStart + s.extoff).toNat, h, ?_⟩
          by_cases hw : q.dpStart.toNat + s.extoff.toNat < 2 ^ 32
          · rw [if_pos hw, hsum]
            omega
          · rw [if_neg hw, hsum]
            omega
        · exact absurd h he
    rw [if_neg hlink] at hl
    by_cases hext : q.dpSize ≠ 0 ∧ dpExtended q
    · have hzero : s.extoff = 0 ∧ q.dpStart = 0 := by
        by_contra hc
        rw [not_and_or] at hc
        exact hlink ⟨hext.1, hext.2, hc⟩
      obtain ⟨he, hs⟩ := hzero
      have hsame : { s with extoff := q.dpStart, sector := 0, wander := true }
          = { s with sector := 0, wander := true } := by rw [hs, ← he]
      rw [if_pos hext, if_pos he, hsame]
      exact ih (s := { s with sector := 0, wander := true }) hefi' hin' hl
    · rw [if_neg hext]
      exact ih hefi' hin' hl

end

end

/-! ## The kernel from record to record -/

section

variable {d : Disk} {poffset : Nat → Nat}

/-- The kernel before it reads a record: nothing found, nothing spoofed, and the
    record it goes to next is `x`, under the base `e`. -/
structure Looking (e : UInt32) (x : Nat) (s : DosState) : Prop where
  extoff : s.extoff = e
  sector : max s.sector e.toNat = x
  ourpart : s.ourpart = none
  slots : s.slots = []

theorem dosOurpart_spec (dps : List DosPartition) :
    (∀ i, dosOurpart dps = some i →
      dps.find? isOurs = some (dps.getD i (DosPartition.codec.dec []))) ∧
    (dosOurpart dps = none → dps.find? isOurs = none) := by
  constructor
  · intro i hi
    obtain ⟨hlt, hp, hfirst⟩ := findIdx?_eq_some_iff_getElem.mp hi
    rw [getD_eq_getElem?_getD, getElem?_eq_getElem hlt, Option.getD_some, find?_eq_some_iff_getElem]
    refine ⟨hp, i, hlt, rfl, fun j hj => ?_⟩
    rw [Bool.not_eq_true']
    exact Bool.eq_false_iff.mpr (hfirst j hj)
  · intro hi
    rw [dosOurpart, findIdx?_eq_none_iff] at hi
    rw [find?_eq_none]
    intro dp hdp
    rw [Bool.not_eq_true]
    exact hi dp hdp

theorem dosRecord_eof {e : UInt32} {x : Nat} {s : DosState} (hs : Looking e x s)
    (hx : d.size ≤ x) : dosRecord d true poffset s = .error (.errno .eio) := by
  have hread : strategy d (dlSectoblk d (max s.sector s.extoff.toNat)) = .error (.errno .eio) := by
    rw [hs.extoff, hs.sector, strategy, dlBlktosec_sectoblk, if_neg (Nat.not_lt.mpr hx)]
  simp only [dosRecord, hread, bind, Except.bind]

/-- The state in which the kernel looks at the entries of a record. -/
def atRecord (d : Disk) (x : Nat) (s : DosState) : DosState :=
  { s with wander := false, sector := x, bData := d.sector x }

/-- A valid record: the first OpenBSD entry is taken, else its links are. -/
theorem dosRecord_valid {e : UInt32} {x : Nat} {s : DosState} (hs : Looking e x s)
    (hx : x < d.size) (hv : ValidRecord d (d.sector x)) :
    (∀ dp, (dmbrParts (d.sector x)).find? isOurs = some dp →
      ∃ s', dosRecord d true poffset s = .ok (s', .placed) ∧ s'.ourpart ≠ none ∧
        s'.partoff = dp.dpStart.toNat + x) ∧
    ((dmbrParts (d.sector x)).find? isOurs = none →
      dosRecord d true poffset s
        = .ok (dosSpoof d true poffset (dmbrParts (d.sector x)) (atRecord d x s), .next)) := by
  have hread : strategy d (dlSectoblk d x) = .ok (d.sector x) := strategy_sectoblk hx
  have hmax : max s.sector s.extoff.toNat = x := by rw [hs.extoff, hs.sector]
  obtain ⟨h55, haa⟩ := bytes_of_dmbrSign hv.sign
  -- the signature is only tested on the MBR, and holds there
  have hsign : ¬ (s.slots.length = 0 ∧ x = dosbbsector ∧
      ((d.sector x).getD 510 0 ≠ 0x55 ∨ (d.sector x).getD 511 0 ≠ 0xaa)) := by
    rintro ⟨-, -, h | h⟩
    · exact h h55
    · exact h haa
  obtain ⟨hsome, hnone⟩ := dosOurpart_spec (dmbrParts (d.sector x))
  simp only [dosRecord, hmax, hread, bind, Except.bind, pure, Except.pure, if_neg hsign,
    hs.ourpart, if_true]
  -- either the search of the kernel ends here or the record is spoofed
  cases hour : dosOurpart (dmbrParts (d.sector x)) with
  | some i =>
    have hfind := hsome i hour
    refine ⟨fun dp hdp => ?_, fun h => ?_⟩
    · rw [hfind] at hdp
      rw [← Option.some.inj hdp]
      exact ⟨_, rfl, Option.some_ne_none i, rfl⟩
    · rw [hfind] at h
      cases h
  | none =>
    refine ⟨fun dp hdp => ?_, fun _ => ?_⟩
    · rw [hnone hour] at hdp
      cases hdp
    · simp only [atRecord, hs.ourpart]

theorem Looking.follow {e l : UInt32} {x : Nat} {s : DosState} (hs : Looking e x s)
    (hv : ValidRecord d (d.sector x)) (hl : links e (dmbrParts (d.sector x)) = [l]) :
    (dosSpoof d true poffset (dmbrParts (d.sector x)) (atRecord d x s)).wander = true ∧
      Looking (if e = 0 then l else e)
        (if l.toNat + e.toNat < 2 ^ 32 then l.toNat + e.toNat else e.toNat)
        (dosSpoof d true poffset (dmbrParts (d.sector x)) (atRecord d x s)) := by
  have hext : (atRecord d x s).extoff = e := hs.extoff
  obtain ⟨sec, h, hmax⟩ := @dosSpoof_links_one d poffset _ hv.noEfi hv.within (atRecord d x s) l
    (by rw [hext]; exact hl)
  rw [hext] at h hmax
  rw [h]
  exact ⟨rfl, rfl, hmax, hs.ourpart, hs.slots⟩

theorem Looking.stay {e : UInt32} {x : Nat} {s : DosState} (hs : Looking e x s)
    (hv : ValidRecord d (d.sector x)) (hl : links e (dmbrParts (d.sector x)) = []) :
    dosSpoof d true poffset (dmbrParts (d.sector x)) (atRecord d x s) = atRecord d x s ∨
      (e = 0 ∧ Looking e 0 (dosSpoof d true poffset (dmbrParts (d.sector x)) (atRecord d x s))) := by
  have hext : (atRecord d x s).extoff = e := hs.extoff
  rcases @dosSpoof_links_nil d poffset _ hv.noEfi hv.within (atRecord d x s)
    (by rw [hext]; exact hl) with h | ⟨h0, h⟩
  · exact Or.inl h
  · rw [hext] at h0
    rw [h]
    exact Or.inr ⟨h0, hs.extoff, by rw [h0]; rfl, hs.ourpart, hs.slots⟩

/-- The kernel went round without finding anything. -/
def FoundNone (r : Except Stop (DosState × Bool)) : Prop :=
  (∃ e, r = .error e) ∨ ∃ s, r = .ok (s, false) ∧ s.ourpart = none

/-- A set of sectors the kernel cannot leave under the base `e`: no OpenBSD
    entry in any record, and every link stays inside or wraps to the base. -/
def Closed (d : Disk) (e : UInt32) (V : Nat → Prop) : Prop :=
  ∀ x, V x → x < d.size → ValidRecord d (d.sector x) ∧
    (dmbrParts (d.sector x)).find? isOurs = none ∧
    ((links e (dmbrParts (d.sector x)) = [] ∧ (e = 0 → V 0)) ∨
      (e ≠ 0 ∧ ∃ l, links e (dmbrParts (d.sector x)) = [l] ∧
        V (if l.toNat + e.toNat < 2 ^ 32 then l.toNat + e.toNat else e.toNat)))

theorem dosLoop_of_not_wander (hw : s.wander = false) (hs : s.ourpart = none) (n : Nat) :
    FoundNone (dosLoop d true poffset n s) := by
  cases n with
  | zero => exact Or.inr ⟨s, rfl, hs⟩
  | succ n =>
    rw [dosLoop, if_pos hw]
    exact Or.inr ⟨s, rfl, hs⟩

theorem dosLoop_closed (hV : Closed d e V) (n : Nat) (hs : Looking e x s) (hx : V x) :
    FoundNone (dosLoop d true poffset n s) := by
  induction n generalizing x s with
  | zero => exact Or.inr ⟨s, rfl, hs.ourpart⟩
  | succ n ih =>
    -- the flag that stops the loop, the end of the disk, then the links
    by_cases hw : s.wander = false
    · exact dosLoop_of_not_wander hw hs.ourpart _
    rw [dosLoop, if_neg hw]
    by_cases hlt : x < d.size
    · obtain ⟨hv, hnone, hlinks⟩ := hV x hx hlt
      have hrec := (@dosRecord_valid d poffset e x s hs hlt hv).2 hnone
      simp only [hrec, bind, Except.bind]
      rcases hlinks with ⟨hnil, hzero⟩ | ⟨he, l, hone, hVl⟩
      · rcases @Looking.stay d poffset e x s hs hv hnil with h | ⟨h0, h⟩
        · rw [h]
          exact dosLoop_of_not_wander (s := atRecord d x s) rfl hs.ourpart n
        · exact ih h (hzero h0)
      · have hnext := (@Looking.follow d poffset e l x s hs hv hone).2
        rw [if_neg he] at hnext
        exact ih hnext hVl
    · have hrec := @dosRecord_eof d poffset e x s hs (Nat.not_lt.mp hlt)
      simp only [hrec, bind, Except.bind]
      exact Or.inl ⟨_, rfl⟩

end

/-! ## In lock step -/

section

variable {d : Disk} {poffset : Nat → Nat}

/-- efiboot and kernel found the same, or both nothing. -/
def WalkAgree (efi : Ret UInt32) (ker : Except Stop (DosState × Bool)) : Prop :=
  (∃ off s, efi = .val off none ∧ off ≠ -1 ∧ ker = .ok (s, true) ∧ s.ourpart ≠ none ∧
    s.partoff = off.toNat) ∨
  ((∃ err, efi = .val (-1) err) ∧ FoundNone ker)

/-- The extended records behind the walkers, when the next one is `x`: none has
    an OpenBSD entry, and each leads to another one of them or to `x`. -/
structure Trail (d : Disk) (e : UInt32) (x : Nat) (V : Nat → Prop) : Prop where
  root : e = 0 → x = 0
  base : e ≠ 0 → V e.toNat ∨ e.toNat = x
  visited : ∀ y, V y → e ≠ 0 ∧ ValidRecord d (d.sector y) ∧
    (dmbrParts (d.sector y)).find? isOurs = none ∧
    ∃ l, links e (dmbrParts (d.sector y)) = [l] ∧ l.toNat + e.toNat < 2 ^ 32 ∧
      (V (l.toNat + e.toNat) ∨ l.toNat + e.toNat = x)

theorem ne_zero_of_links_one {dps : List DosPartition} (h : links e dps = [l]) : e ≠ 0 ∨ l ≠ 0 := by
  have hmem : l ∈ links e dps := by
    rw [h]
    exact mem_singleton_self l
  obtain ⟨dp, hdp, rfl⟩ := mem_map.mp hmem
  have hc := (mem_filter.mp hdp).2
  simp only [Bool.and_eq_true, Bool.or_eq_true, decide_eq_true_eq] at hc
  exact hc.2

theorem foundNone_of_links_nil (hs : Looking e x s) (htrail : Trail d e x V)
    (hv : ValidRecord d (d.sector x)) (hnone : (dmbrParts (d.sector x)).find? isOurs = none)
    (hl : links e (dmbrParts (d.sector x)) = []) (n : Nat) :
    FoundNone (dosLoop d true poffset n
      (dosSpoof d true poffset (dmbrParts (d.sector x)) (atRecord d x s))) := by
  rcases @Looking.stay d poffset e x s hs hv hl with h | ⟨h0, h⟩
  · rw [h]
    exact dosLoop_of_not_wander (s := atRecord d x s) rfl hs.ourpart n
  · -- the kernel reads the MBR again and again
    subst h0
    obtain rfl := htrail.root rfl
    have hclosed : Closed d 0 fun y => y = 0 := by
      rintro y rfl -
      exact ⟨hv, hnone, Or.inl ⟨hl, fun _ => rfl⟩⟩
    exact dosLoop_closed hclosed n h rfl

theorem foundNone_of_wrap (hs : Looking e x s) (htrail : Trail d e x V)
    (hv : ValidRecord d (d.sector x)) (hnone : (dmbrParts (d.sector x)).find? isOurs = none)
    (hl : links e (dmbrParts (d.sector x)) = [l]) (hwrap : ¬ l.toNat + e.toNat < 2 ^ 32) (n : Nat) :
    FoundNone (dosLoop d true poffset n
      (dosSpoof d true poffset (dmbrParts (d.sector x)) (atRecord d x s))) := by
  have hlt := l.toNat_lt
  -- the MBR itself has base 0, and nothing wraps there
  have he : e ≠ 0 := by
    rw [ne_zero_iff_pos]
    omega
  have hnext := (@Looking.follow d poffset e l x s hs hv hl).2
  rw [if_neg he, if_neg hwrap] at hnext
  -- the records seen so far, this one included, cannot be left any more
  have hclosed : Closed d e fun y => V y ∨ y = x := by
    rintro y (hy | rfl) -
    · obtain ⟨-, hvy, hny, k, hk, hsum, hon⟩ := htrail.visited y hy
      refine ⟨hvy, hny, Or.inr ⟨he, k, hk, ?_⟩⟩
      rw [if_pos hsum]
      exact hon
    · refine ⟨hv, hnone, Or.inr ⟨he, l, hl, ?_⟩⟩
      rw [if_neg hwrap]
      exact htrail.base he
  exact dosLoop_closed hclosed n hnext (htrail.base he)

theorem Trail.step (h : Trail d e x V) (hv : ValidRecord d (d.sector x))
    (hnone : (dmbrParts (d.sector x)).find? isOurs = none)
    (hl : links e (dmbrParts (d.sector x)) = [l]) (hsum : l.toNat + e.toNat < 2 ^ 32) :
    ∃ V', Trail d (if e = 0 then l else e) (l.toNat + e.toNat) V' := by
  by_cases he : e = 0
  · subst he
    have hl0 : l ≠ 0 := (ne_zero_of_links_one hl).resolve_left fun h => h rfl
    rw [if_pos rfl]
    exact ⟨fun _ => False, fun h => absurd h hl0, fun _ => Or.inr rfl, fun _ hy => hy.elim⟩
  · rw [if_neg he]
    refine ⟨fun y => V y ∨ y = x, fun h => absurd h he, fun h0 => Or.inl (h.base h0), ?_⟩
    rintro y (hy | rfl)
    · obtain ⟨-, hvy, hny, k, hk, hk', hon⟩ := h.visited y hy
      exact ⟨he, hvy, hny, k, hk, hk', Or.inl hon⟩
    · exact ⟨he, hv, hnone, l, hl, hsum, Or.inr rfl⟩

/-- On 512-byte sectors and along a regular chain the two walkers agree. -/
theorem walk_agree (hsec : d.secsize = devBsize) (n : Nat) {mbroff : UInt32}
    (hs : Looking e mbroff.toNat s) (hw : s.wander = true) (htrail : Trail d e mbroff.toNat V)
    (hvalid : AlongChain d (fun _ _ sec => ValidRecord d sec) n e mbroff)
    (hreg : AlongChain d RegularRecord n e mbroff) :
    WalkAgree (findopenbsdFrom d n mbroff e) (dosLoop d true poffset n s) := by
  induction n generalizing e mbroff V s with
  | zero => exact Or.inr ⟨⟨_, rfl⟩, Or.inr ⟨s, rfl, hs.ourpart⟩⟩
  | succ n ih =>
    have hgo : ¬ s.wander = false := by
      rw [hw]
      decide
    rw [dosLoop, if_neg hgo]
    by_cases hx : mbroff.toNat < d.size
    -- off the disk both get an error
    case neg =>
      have hrec := @dosRecord_eof d poffset e _ s hs (Nat.not_lt.mp hx)
      simp only [findopenbsdFrom_succ, efidIo_one_eof hsec (Nat.not_lt.mp hx), hrec, bind, Except.bind]
      exact Or.inr ⟨⟨_, rfl⟩, Or.inl ⟨_, rfl⟩⟩
    obtain ⟨hv, hvnext⟩ := hvalid hx
    obtain ⟨hr, hrnext⟩ := hreg hx
    obtain ⟨hplaced, hnext⟩ := @dosRecord_valid d poffset e _ s hs hx hv
    simp only [findopenbsdFrom_succ, efidIo_one hsec hx, hv.sign, ne_eq, not_true_eq_false, if_false]
    cases hfind : (dmbrParts (d.sector mbroff.toNat)).find? isOurs with
    | some dp =>
      obtain ⟨s', hrec, hour, hoff⟩ := hplaced dp hfind
      -- both stop at the first OpenBSD entry
      have hlt := hr.ours dp hfind
      have hsum : (dp.dpStart + mbroff).toNat = dp.dpStart.toNat + mbroff.toNat :=
        toNat_add_of_lt (by omega)
      have hne : dp.dpStart + mbroff ≠ -1 := by
        intro h
        have h' := congrArg UInt32.toNat h
        rw [hsum] at h'
        have hm1 : (-1 : UInt32).toNat = 2 ^ 32 - 1 := rfl
        omega
      rw [mbrScan_ours hv.noEfi hfind (by omega)]
      simp only [hrec, bind, Except.bind, pure, Except.pure]
      exact Or.inl ⟨_, s', rfl, hne, rfl, hour, by rw [hoff, hsum]⟩
    | none =>
      simp only [hnext hfind, bind, Except.bind]
      -- a regular record has one link at most, and it is not taken for an error
      obtain ⟨hlen, hlast⟩ := hr.links hfind
      match hl : links e (dmbrParts (d.sector mbroff.toNat)) with
      | [] =>
        rw [mbrScan_links_nil hv.noEfi hfind hl]
        exact Or.inr ⟨⟨_, rfl⟩, foundNone_of_links_nil hs htrail hv hfind hl n⟩
      | [l] =>
        rw [mbrScan_links_one hv.noEfi hfind hl]
        -- the sum of link and base may still wrap
        have hlast' := hlast l (by rw [hl]; exact mem_singleton_self l)
        by_cases hwrap : l.toNat + e.toNat < 2 ^ 32
        · -- both go on to the linked record
          have hlt : ¬ l + e < l := by
            rw [add_lt_left_iff]
            omega
          have hsum := toNat_add_of_lt hwrap
          have hon : l + e ≠ 0 ∧ l + e ≠ -1 := by
            constructor
            · rw [ne_zero_iff_pos, hsum]
              rcases ne_zero_of_links_one hl with h | h
              · have := (ne_zero_iff_pos e).mp h
                omega
              · have := (ne_zero_iff_pos l).mp h
                omega
            · intro h
              have h' := congrArg UInt32.toNat h
              rw [hsum] at h'
              exact hlast' h'
          simp only [if_neg hlt, if_pos hon]
          obtain ⟨hwander, hlooking⟩ :=
            @Looking.follow d poffset e l mbroff.toNat s hs hv hl
          rw [if_pos hwrap, ← hsum] at hlooking
          obtain ⟨V', htrail'⟩ := htrail.step hv hfind hl hwrap
          exact ih hlooking hwander (by rw [hsum]; exact htrail')
            (hvnext l hfind hl hwrap) (hrnext l hfind hl hwrap)
        · -- efiboot stops, the kernel runs in a circle
          have hlt : l + e < l := by
            rw [add_lt_left_iff]
            omega
          simp only [if_pos hlt, not_true_eq_false, and_false, if_false]
          exact Or.inr ⟨⟨_, rfl⟩, foundNone_of_wrap hs htrail hv hfind hl hwrap n⟩
      | _ :: _ :: _ =>
        rw [hl] at hlen
        simp only [length_cons] at hlen
        omega

end

/-! ## The whole search -/

section

variable {d : Disk} {poffset : Nat → Nat} {bend : Nat}

/-- The variables of `readdoslabel` before its loop. -/
def dosInit (bend : Nat) : DosState := ⟨dosbbsector, 0, true, none, 0, bend, [], []⟩

theorem looking_dosInit (bend : Nat) : Looking 0 0 (dosInit bend) := ⟨rfl, rfl, rfl, rfl⟩

/-- Boot loader and kernel find the same OpenBSD partition on `d`. -/
structure MbrAgree (d : Disk) (secpercyl bend rawsize : Nat) (poffset : Nat → Nat) : Prop where
  defined : findopenbsd d ≠ .undef
  found : ∀ off err, findopenbsd d = .val off err → off ≠ -1 →
    ∃ place, readdoslabel d secpercyl bend rawsize poffset true = .ok place ∧
      place.ourpart ≠ none ∧ dlSectoblk d place.partoff = off.toNat
  none : ∀ err, findopenbsd d = .val (-1) err →
    ∀ place, readdoslabel d secpercyl bend rawsize poffset true = .ok place → place.ourpart = none

theorem readdoslabel_placed {s : DosState} {secpercyl rawsize : Nat} (hcyl : secpercyl ≠ 0)
    (h : dosLoop d true poffset dosMaxebr (dosInit bend) = .ok (s, true)) :
    readdoslabel d secpercyl bend rawsize poffset true
      = .ok ⟨s.ourpart, s.partoff, s.partend, s.slots⟩ := by
  have hpos : ¬ d.secsize = 0 := Nat.ne_of_gt d.secsize_pos
  rw [dosInit] at h
  simp only [readdoslabel, if_neg hcyl, if_neg hpos, h, bind, Except.bind, pure, Except.pure,
    if_true]

variable {rawsize secpercyl : Nat}

theorem readdoslabel_none {place : Placement}
    (h : FoundNone (dosLoop d true poffset dosMaxebr (dosInit bend)))
    (hok : readdoslabel d secpercyl bend rawsize poffset true = .ok place) :
    place.ourpart = none := by
  have hpos : ¬ d.secsize = 0 := Nat.ne_of_gt d.secsize_pos
  rw [dosInit] at h
  by_cases hcyl : secpercyl = 0
  · simp only [readdoslabel, if_pos hcyl, bind, Except.bind] at hok
    cases hok
  rcases h with ⟨e, h⟩ | ⟨s, h, hour⟩
  · simp only [readdoslabel, if_neg hcyl, if_neg hpos, h, bind, Except.bind] at hok
    cases hok
  · simp only [readdoslabel, if_neg hcyl, if_neg hpos, h, bind, Except.bind, pure, Except.pure,
      Bool.false_eq_true, if_false, if_true] at hok
    -- the raw size may be wrong, else the loop decides
    split at hok
    · cases hok
    · cases hok
      exact hour

theorem mbrAgree_of_walk (hcyl : secpercyl ≠ 0)
    (hwalk : WalkAgree (findopenbsd d) (dosLoop d true poffset dosMaxebr (dosInit bend)))
    (hscale : ∀ s, dosLoop d true poffset dosMaxebr (dosInit bend) = .ok (s, true) →
      dlSectoblk d s.partoff = s.partoff) : MbrAgree d secpercyl bend rawsize poffset := by
  rcases hwalk with ⟨off, s, hefi, hne, hker, hour, hoff⟩ | ⟨⟨err, hefi⟩, hnone⟩
  · have hplace := @readdoslabel_placed d poffset bend s secpercyl rawsize hcyl hker
    have hdef : findopenbsd d ≠ .undef := by
      rw [hefi]
      exact fun h => Ret.noConfusion rfl (heq_of_eq h)
    -- the kernel counts sectors, efiboot blocks: the same number here
    refine ⟨hdef, fun off' err' h _ => ?_, fun err' h => ?_⟩
    · rw [hefi] at h
      obtain ⟨rfl, rfl⟩ := Ret.val.inj h
      exact ⟨_, hplace, hour, by rw [← hoff]; exact hscale s hker⟩
    · rw [hefi] at h
      exact absurd (Ret.val.inj h).1 hne
  · have hdef : findopenbsd d ≠ .undef := by
      rw [hefi]
      exact fun h => Ret.noConfusion rfl (heq_of_eq h)
    refine ⟨hdef, fun off' err' h hne => ?_, fun err' _ => ?_⟩
    · rw [hefi] at h
      exact absurd (Ret.val.inj h).1.symm hne
    · exact fun place hok => readdoslabel_none hnone hok

def ValidChain (d : Disk) : Prop :=
  AlongChain d (fun _ _ sec => ValidRecord d sec) dosMaxebr 0 0

/-- The MBR alone decides, and with an offset no unit can change: its OpenBSD
    entry starts at sector 0, or it has neither an OpenBSD entry nor a link. -/
def MbrDecides (d : Disk) : Prop :=
  0 < d.size ∧
    ((∃ dp, (dmbrParts (d.sector 0)).find? isOurs = some dp ∧ dp.dpStart = 0) ∨
      ((dmbrParts (d.sector 0)).find? isOurs = none ∧ links 0 (dmbrParts (d.sector 0)) = []))

theorem findopenbsd_mbr (hsize : 0 < d.size) (hv : ValidRecord d (d.sector 0)) :
    findopenbsd d = match mbrScan d 0 (dmbrParts (d.sector 0)) 0 0 with
      | .ret r => r
      | .done nextebr mbrEoff =>
        if nextebr ≠ 0 ∧ nextebr ≠ -1 then findopenbsdFrom d 255 nextebr mbrEoff
        else .val (-1) none := by
  have hread : efidIo d (0 : UInt32).toNat 1 = .ok ((d.sector 0).take devBsize) := efidIo_zero hsize
  have hfirst := findopenbsdFrom_succ d 255 0 0
  simp only [hread, dmbrSign_take, dmbrParts_take, hv.sign, ne_eq, not_true_eq_false,
    if_false] at hfirst
  exact hfirst

theorem mbr_ours (hsize : 0 < d.size) (hv : ValidRecord d (d.sector 0)) {dp : DosPartition}
    (hfind : (dmbrParts (d.sector 0)).find? isOurs = some dp) :
    findopenbsd d = .val dp.dpStart none ∧
      ∃ s, dosLoop d true poffset dosMaxebr (dosInit bend) = .ok (s, true) ∧ s.ourpart ≠ none ∧
        s.partoff = dp.dpStart.toNat := by
  have hlt := dp.dpStart.toNat_lt
  constructor
  · have hscan := @mbrScan_ours d 0 _ dp hv.noEfi hfind (by
      show dp.dpStart.toNat + 0 < 2 ^ 32
      omega) 0 0
    rw [findopenbsd_mbr hsize hv, hscan]
    simp only [UInt32.add_zero]
  · obtain ⟨s, hrec, hour, hoff⟩ :=
      (@dosRecord_valid d poffset 0 0 _ (looking_dosInit bend) hsize hv).1 dp hfind
    refine ⟨s, ?_, hour, hoff⟩
    show dosLoop d true poffset (255 + 1) (dosInit bend) = _
    rw [dosLoop, if_neg (show ¬ (dosInit bend).wander = false from Bool.noConfusion)]
    simp only [hrec, bind, Except.bind, pure, Except.pure]

theorem walkAgree_of_mbrDecides (hvalid : ValidChain d) (h : MbrDecides d) :
    WalkAgree (findopenbsd d) (dosLoop d true poffset dosMaxebr (dosInit bend)) ∧
      ∀ s, dosLoop d true poffset dosMaxebr (dosInit bend) = .ok (s, true) →
        dlSectoblk d s.partoff = s.partoff := by
  obtain ⟨hsize, h⟩ := h
  have hv : ValidRecord d (d.sector 0) := (hvalid hsize).1
  -- an entry at offset 0, or neither entry nor link
  rcases h with ⟨dp, hfind, hzero⟩ | ⟨hnone, hl⟩
  · obtain ⟨hefi, s, hker, hour, hoff⟩ := @mbr_ours d poffset bend hsize hv dp hfind
    refine ⟨Or.inl ⟨_, s, hefi, ?_, hker, hour, hoff⟩, fun s' hs' => ?_⟩
    · rw [hzero]
      decide
    · rw [hker, Except.ok.injEq, Prod.mk.injEq] at hs'
      rw [← hs'.1, hoff, hzero]
      exact Nat.zero_mul _
  · have htrail : Trail d 0 0 fun _ => False :=
      ⟨fun _ => rfl, fun h => absurd rfl h, fun _ hy => hy.elim⟩
    have hrec := (@dosRecord_valid d poffset 0 0 _ (looking_dosInit bend) hsize hv).2 hnone
    -- one record is enough for the kernel to find nothing
    have hker : FoundNone (dosLoop d true poffset (255 + 1) (dosInit bend)) := by
      rw [dosLoop, if_neg (show ¬ (dosInit bend).wander = false from Bool.noConfusion)]
      simp only [hrec, bind, Except.bind]
      exact foundNone_of_links_nil (looking_dosInit bend) htrail hv hnone hl 255
    refine ⟨Or.inr ⟨⟨none, ?_⟩, hker⟩, fun s hs => ?_⟩
    · rw [findopenbsd_mbr hsize hv, mbrScan_links_nil hv.noEfi hnone hl]
      rfl
    · rcases hker with ⟨e, h⟩ | ⟨s', h, -⟩
      · rw [show dosLoop d true poffset dosMaxebr (dosInit bend) = .error e from h] at hs
        cases hs
      · rw [show dosLoop d true poffset dosMaxebr (dosInit bend) = .ok (s', false) from h] at hs
        cases hs

/-- Boot loader and kernel find the same OpenBSD partition when sectors have 512
    bytes and the chain is regular, and on every disk whose MBR alone decides
    with an offset of 0 or none. -/
theorem mbrAgree_of_regular {secpercyl rawsize : Nat} (hcyl : secpercyl ≠ 0)
    (hvalid : ValidChain d)
    (hwhen : (d.secsize = devBsize ∧ AlongChain d RegularRecord dosMaxebr 0 0) ∨ MbrDecides d) :
    MbrAgree d secpercyl bend rawsize poffset := by
  rcases hwhen with ⟨hsec, hreg⟩ | hdecides
  · have htrail : Trail d 0 (0 : UInt32).toNat fun _ => False :=
      ⟨fun _ => rfl, fun h => absurd rfl h, fun _ hy => hy.elim⟩
    apply mbrAgree_of_walk hcyl
    · exact walk_agree hsec dosMaxebr (looking_dosInit bend) rfl htrail hvalid hreg
    · intro s _
      rw [dlSectoblk, dlBlkspersec, hsec]
      exact Nat.mul_one _
  · obtain ⟨hwalk, hscale⟩ := walkAgree_of_mbrDecides hvalid hdecides
    exact mbrAgree_of_walk hcyl hwalk hscale

end

/-- A disk of 200 sectors of `512 * (m + 1)` bytes, each with the boot record
    `parts`. -/
def mbrDisk (m : Nat) (parts : Vector DosPartition 4) : Disk where
  secsize := devBsize * (m + 1)
  size := 200
  sector _ := bootRecord parts ++ List.replicate (devBsize * m) 0
  secsize_pos := Nat.mul_pos (by decide) (Nat.succ_pos m)
  secsize_dvd := Nat.dvd_mul_right ..
  size_lt := by decide
  length_sector _ := by
    rw [List.length_append, length_bootRecord, List.length_replicate, Nat.mul_succ, Nat.add_comm]

/-- An OpenBSD entry on 100 sectors from sector 64 on, and three unused ones. -/
def openbsdParts : Vector DosPartition 4 :=
  #v[⟨0x80, 0, 0, 0, 0xa6, 0, 0, 0, 64, 100⟩, ⟨0, 0, 0, 0, 0, 0, 0, 0, 0, 0⟩,
    ⟨0, 0, 0, 0, 0, 0, 0, 0, 0, 0⟩, ⟨0, 0, 0, 0, 0, 0, 0, 0, 0, 0⟩]

theorem mbrDisk_parts (m x : Nat) :
    dmbrParts ((mbrDisk m openbsdParts).sector x) = openbsdParts.toList :=
  dmbrParts_bootRecord ..

theorem mbrDisk_valid (m x : Nat) :
    ValidRecord (mbrDisk m openbsdParts) ((mbrDisk m openbsdParts).sector x) := by
  refine ⟨dmbrSign_bootRecord .., ?_, ?_⟩
  · rw [mbrDisk_parts]
    decide
  · rw [mbrDisk_parts]
    show ∀ dp ∈ openbsdParts.toList, dp.dpStart.toNat ≤ 200 ∧ dp.dpSize.toNat ≤ 200
    decide

theorem mbrDisk_find (m x : Nat) :
    (dmbrParts ((mbrDisk m openbsdParts).sector x)).find? isOurs
      = some ⟨0x80, 0, 0, 0, 0xa6, 0, 0, 0, 64, 100⟩ := by
  rw [mbrDisk_parts]
  decide

theorem mbrDisk_validChain (m : Nat) : ValidChain (mbrDisk m openbsdParts) := by
  refine fun _ => ⟨mbrDisk_valid m _, fun l hnone => ?_⟩
  rw [mbrDisk_find] at hnone
  cases hnone

/-- On 512-byte sectors both find sector 64. -/
theorem mbrAgree_of_regular_openbsd :
    ValidChain (mbrDisk 0 openbsdParts) ∧
      MbrAgree (mbrDisk 0 openbsdParts) 1 0 0 fun _ => 0 := by
  refine ⟨mbrDisk_validChain 0, mbrAgree_of_regular (by decide) (mbrDisk_validChain 0)
    (Or.inl ⟨rfl, fun _ => ⟨⟨fun dp hdp => ?_, fun hnone => ?_⟩, fun l hnone => ?_⟩⟩)⟩
  · rw [mbrDisk_find] at hdp
    rw [← Option.some.inj hdp]
    decide
  · rw [mbrDisk_find] at hnone
    cases hnone
  · rw [mbrDisk_find] at hnone
    cases hnone

/-- On 4096-byte sectors efiboot returns block 64 and the kernel block 512. -/
theorem mbr_units_differ_4k :
    ValidChain (mbrDisk 7 openbsdParts) ∧
      ¬ MbrAgree (mbrDisk 7 openbsdParts) 1 0 0 fun _ => 0 := by
  refine ⟨mbrDisk_validChain 7, fun hagree => ?_⟩
  obtain ⟨hefi, s, hker, -, hoff⟩ := @mbr_ours (mbrDisk 7 openbsdParts) (fun _ => 0) 0 (by decide)
    (mbrDisk_valid 7 0) _ (mbrDisk_find 7 0)
  obtain ⟨place, hplace, -, hsame⟩ := hagree.found _ _ hefi (by decide)
  rw [readdoslabel_placed (by decide) hker, Except.ok.injEq] at hplace
  rw [← hplace] at hsame
  simp only [hoff] at hsame
  exact absurd hsame (by decide)

end OpenBsd.Boot
