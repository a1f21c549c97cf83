/-
  OpenBsd.Kern.LockfScan

  What `lf_findoverlap` finds, and the bytes a list of locks stands for.

  A list of locks is in order when the locks of each single owner come one after
  the other without overlap; locks of different owners stand anywhere between
  them.  Then at most one lock of an owner covers a byte, and the list is a map
  from owners and bytes to lock types.
-/

import OpenBsd.Kern.Lockf

namespace OpenBsd.Kern

open List

variable {b o : Nat} {locks : List Lockf} {t : LockType} {lf lock : Lockf}

/-! ## Locks and bytes -/

abbrev Lockf.lo (l : Lockf) : Int := l.lfStart.toInt

abbrev Lockf.last (l : Lockf) : Int := l.lfEnd.toInt

/-- The byte `b` lies in the lock; `lf_end = -1` is the end of the file. -/
def Lockf.Covers (l : Lockf) (b : Nat) : Prop := l.lo ≤ b ∧ (l.last = -1 ∨ b ≤ l.last)

instance (l : Lockf) (b : Nat) : Decidable (l.Covers b) :=
  inferInstanceAs (Decidable (_ ∧ _))

/-- A range that `lf_advlock` admits. -/
structure Lockf.Wf (l : Lockf) : Prop where
  nonneg : 0 ≤ l.lo
  range : l.last = -1 ∨ l.lo ≤ l.last

/-- `a` ends below the start of `b`. -/
def Before (a b : Lockf) : Prop := a.last ≠ -1 ∧ a.last < b.lo

/-- Neither ends before the other. -/
def Overlaps (a b : Lockf) : Prop := ¬ Before a b ∧ ¬ Before b a

/-- The locks of each owner are in strictly increasing order and disjoint. -/
def Ordered (locks : List Lockf) : Prop :=
  locks.Pairwise fun a b => a.lfId = b.lfId → Before a b

/-- Some lock gives the owner `o` type `t` on byte `b`. -/
def Holds (locks : List Lockf) (o b : Nat) (t : LockType) : Prop :=
  ∃ l ∈ locks, l.lfId = o ∧ l.Covers b ∧ l.lfType = t

/-- The lock type each owner has on each byte. -/
def lockMap (locks : List Lockf) (o b : Nat) : Option LockType :=
  (locks.find? fun l => l.lfId == o && decide (l.Covers b)).map (·.lfType)

theorem Before.not_covers {a c : Lockf} (h : Before a c) (ha : a.Covers b) : ¬ c.Covers b := by
  obtain ⟨hne, hlt⟩ := h
  obtain ⟨-, ha⟩ := ha
  rintro ⟨hc, -⟩
  omega

theorem Ordered.unique (h : Ordered locks) {a c : Lockf} (ha : a ∈ locks) (hc : c ∈ locks)
    (hid : a.lfId = c.lfId) (hab : a.Covers b) (hcb : c.Covers b) : a = c := by
  induction locks with
  | nil => cases ha
  | cons l locks ih =>
    obtain ⟨hhead, htail⟩ := pairwise_cons.mp h
    rcases mem_cons.mp ha with rfl | ha'
    · rcases mem_cons.mp hc with rfl | hc'
      · rfl
      · exact absurd hcb ((hhead c hc' hid).not_covers hab)
    · rcases mem_cons.mp hc with rfl | hc'
      · exact absurd hab ((hhead a ha' hid.symm).not_covers hcb)
      · exact ih htail ha' hc'

theorem lockMap_eq_some (h : Ordered locks) : lockMap locks o b = some t ↔ Holds locks o b t := by
  simp only [lockMap, Option.map_eq_some_iff]
  constructor
  · rintro ⟨l, hfind, rfl⟩
    have hl := find?_some hfind
    rw [Bool.and_eq_true, beq_iff_eq, decide_eq_true_eq] at hl
    exact ⟨l, mem_of_find?_eq_some hfind, hl.1, hl.2, rfl⟩
  · rintro ⟨l, hmem, hid, hcov, rfl⟩
    -- the first lock found is `l`, since only one covers the byte
    have hsome : (locks.find? fun l => l.lfId == o && decide (l.Covers b)).isSome := by
      rw [find?_isSome]
      exact ⟨l, hmem, by rw [hid, beq_self_eq_true, Bool.true_and, decide_eq_true_eq]; exact hcov⟩
    obtain ⟨l', hfind⟩ := Option.isSome_iff_exists.mp hsome
    have hl' := find?_some hfind
    rw [Bool.and_eq_true, beq_iff_eq, decide_eq_true_eq] at hl'
    have heq := h.unique (mem_of_find?_eq_some hfind) hmem (hl'.1.trans hid.symm) hl'.2 hcov
    exact ⟨l', hfind, by rw [heq]⟩

theorem holds_append {l l' : List Lockf} :
    Holds (l ++ l') o b t ↔ Holds l o b t ∨ Holds l' o b t := by
  constructor
  · rintro ⟨x, hx, h⟩
    rcases mem_append.mp hx with hx | hx
    · exact Or.inl ⟨x, hx, h⟩
    · exact Or.inr ⟨x, hx, h⟩
  · rintro (⟨x, hx, h⟩ | ⟨x, hx, h⟩)
    · exact ⟨x, mem_append_left _ hx, h⟩
    · exact ⟨x, mem_append_right _ hx, h⟩

theorem holds_cons {x : Lockf} {l : List Lockf} :
    Holds (x :: l) o b t ↔ (x.lfId = o ∧ x.Covers b ∧ x.lfType = t) ∨ Holds l o b t := by
  rw [← singleton_append, holds_append]
  exact or_congr_left ⟨fun ⟨y, hy, h⟩ => mem_singleton.mp hy ▸ h,
    fun h => ⟨x, mem_singleton_self x, h⟩⟩

/-! ## The cases of an overlap -/

theorem toInt_neg_one : (-1 : Int64).toInt = -1 := rfl

theorem noOverlap_iff : noOverlap lf lock = true ↔ Before lf lock ∨ Before lock lf := by
  simp only [noOverlap, Before, Bool.or_eq_true, Bool.and_eq_true, bne_iff_ne, ne_eq,
    decide_eq_true_eq, gt_iff_lt, Int64.lt_iff_toInt_lt, ← Int64.toInt_inj, toInt_neg_one]

/-- The relation of an overlapping lock to the request in each case of
    `lf_findoverlap`, once the earlier cases are excluded. -/
def OvCase.Is (c : OvCase) (lf lock : Lockf) : Prop :=
  match c with
  | .equal => lf.lo = lock.lo ∧ lf.last = lock.last
  | .overlapContains =>
    lf.lo ≤ lock.lo ∧ (lf.last = -1 ∨ (lock.last ≠ -1 ∧ lock.last ≤ lf.last)) ∧
      ¬ (lf.lo = lock.lo ∧ lf.last = lock.last)
  | .lockContains =>
    lock.lo ≤ lf.lo ∧ (lock.last = -1 ∨ (lf.last ≠ -1 ∧ lf.last ≤ lock.last))
  | .startsBefore =>
    lf.lo < lock.lo ∧ lf.last ≠ -1 ∧ lock.lo ≤ lf.last ∧
      (lock.last = -1 ∨ lf.last < lock.last)
  | .endsAfter => lock.lo < lf.lo ∧ lock.last ≠ -1 ∧ (lf.last = -1 ∨ lock.last < lf.last)

theorem ovCase_is {c : OvCase} (hlock : lock.Wf) (h : ovCase lf lock = some c) : c.Is lf lock := by
  have hn := hlock.nonneg
  have hr := hlock.range
  -- the five tests in their order, with -1 as the end of the file
  unfold ovCase at h
  simp only [Bool.and_eq_true, Bool.or_eq_true, beq_iff_eq, bne_iff_ne, ne_eq, decide_eq_true_eq,
    ge_iff_le, gt_iff_lt, Int64.lt_iff_toInt_lt, Int64.le_iff_toInt_le, ← Int64.toInt_inj,
    toInt_neg_one] at h
  split at h
  · cases h
    assumption
  split at h
  · cases h
    rename_i hne hc
    exact ⟨hc.1, hc.2, hne⟩
  split at h
  · cases h
    assumption
  split at h
  · cases h
    simp only [OvCase.Is, Lockf.lo, Lockf.last] at *
    omega
  split at h
  · cases h
    simp only [OvCase.Is, Lockf.lo, Lockf.last] at *
    omega
  · cases h

theorem ovCase_isSome (hlf : lf.Wf) (hlock : lock.Wf) (hov : ¬ noOverlap lf lock = true) :
    ∃ c, ovCase lf lock = some c := by
  have h1 := hlf.nonneg
  have h2 := hlf.range
  have h3 := hlock.nonneg
  have h4 := hlock.range
  rw [noOverlap_iff, Before, Before] at hov
  simp only [Lockf.lo, Lockf.last] at *
  unfold ovCase
  simp only [Bool.and_eq_true, Bool.or_eq_true, beq_iff_eq, bne_iff_ne, ne_eq, decide_eq_true_eq,
    ge_iff_le, gt_iff_lt, Int64.lt_iff_toInt_lt, Int64.le_iff_toInt_le, ← Int64.toInt_inj,
    toInt_neg_one]
  split
  · exact ⟨_, rfl⟩
  split
  · exact ⟨_, rfl⟩
  split
  · exact ⟨_, rfl⟩
  split
  · exact ⟨_, rfl⟩
  split
  · exact ⟨_, rfl⟩
  · -- two ranges that meet fall under one of the five
    omega

/-! ## What `lf_findoverlap` finds -/

/-- The locks of the owner that the walk passes end before the request. -/
def Passed (lock : Lockf) (skipped : List Lockf) : Prop :=
  ∀ l ∈ skipped, l.lfId = lock.lfId → Before l lock

theorem passed_nil (lock : Lockf) : Passed lock [] := fun _ hl => absurd hl not_mem_nil

theorem Passed.cons {lock lf : Lockf} {skipped : List Lockf} (h : Passed lock skipped)
    (hlf : lf.lfId = lock.lfId → Before lf lock) : Passed lock (lf :: skipped) := by
  intro l hl
  rcases mem_cons.mp hl with rfl | hl
  · exact hlf
  · exact h l hl

/-- What the walk over the owner's own locks returns, from the zipper `pre`, `rest`
    on: it stops at the end, at a lock behind the request, or at an overlap. -/
def FindOverlap.Self (lock : Lockf) (pre rest : List Lockf) : FindOverlap → Prop
  | .none pre' rest' =>
    ∃ skipped, rest = skipped ++ rest' ∧ pre' = skipped.reverse ++ pre ∧ Passed lock skipped ∧
      ∀ lf tail, rest' = lf :: tail → lf.lfId = lock.lfId ∧ Before lock lf
  | .hit c pre' overlap rest' =>
    ∃ skipped, rest = skipped ++ overlap :: rest' ∧ pre' = skipped.reverse ++ pre ∧
      Passed lock skipped ∧ overlap.lfId = lock.lfId ∧ Overlaps overlap lock ∧
      c.Is overlap lock
  | .panic => True

variable {r : FindOverlap} {pre rest : List Lockf}

theorem FindOverlap.Self.pass
    (h : r.Self lock (lf :: pre) rest) (hlf : lf.lfId = lock.lfId → Before lf lock) :
    r.Self lock pre (lf :: rest) := by
  cases r with
  | none pre' rest' =>
    obtain ⟨skipped, hrest, hpre, hpassed, hstop⟩ := h
    refine ⟨lf :: skipped, by rw [hrest, cons_append], ?_, hpassed.cons hlf, hstop⟩
    rw [hpre, reverse_cons, append_assoc, singleton_append]
  | hit c pre' overlap rest' =>
    obtain ⟨skipped, hrest, hpre, hpassed, hcase⟩ := h
    refine ⟨lf :: skipped, by rw [hrest, cons_append], ?_, hpassed.cons hlf, hcase⟩
    rw [hpre, reverse_cons, append_assoc, singleton_append]
  | panic => trivial

/-- The walk over the owner's own locks. -/
theorem findoverlap_self (hlock : lock.Wf) (pre rest : List Lockf) :
    (lfFindoverlap .self lock pre rest).Self lock pre rest := by
  induction rest generalizing pre with
  | nil => exact ⟨[], rfl, rfl, passed_nil lock, fun _ _ h => List.noConfusion rfl (heq_of_eq h)⟩
  | cons lf rest ih =>
    rw [lfFindoverlap]
    split
    · -- another owner's lock
      rename_i hskip
      refine (ih (lf :: pre)).pass fun hid => ?_
      simp [hid] at hskip
    rename_i hown
    have hid : lf.lfId = lock.lfId := by simpa using hown
    split
    · rename_i hno
      rw [noOverlap_iff] at hno
      split
      · -- the early exit
        rename_i hexit
        simp only [beq_self_eq_true, Bool.true_and, Bool.and_eq_true, bne_iff_ne, ne_eq,
          decide_eq_true_eq, gt_iff_lt, Int64.lt_iff_toInt_lt, ← Int64.toInt_inj,
          toInt_neg_one] at hexit
        refine ⟨[], rfl, rfl, passed_nil lock, fun lf' tail h => ?_⟩
        obtain ⟨rfl, rfl⟩ := List.cons.inj h
        exact ⟨hid, hexit⟩
      · rename_i hexit
        simp only [beq_self_eq_true, Bool.true_and, Bool.and_eq_true, bne_iff_ne, ne_eq,
          decide_eq_true_eq, gt_iff_lt, Int64.lt_iff_toInt_lt, ← Int64.toInt_inj,
          toInt_neg_one] at hexit
        exact (ih (lf :: pre)).pass fun _ => hno.resolve_right hexit
    · rename_i hno
      rw [noOverlap_iff, not_or] at hno
      split
      · rename_i c hcase
        exact ⟨[], rfl, rfl, passed_nil lock, hid, hno, ovCase_is hlock hcase⟩
      · trivial

theorem findoverlap_ne_panic {type : OverlapType} (hlock : lock.Wf)
    (hrest : ∀ l ∈ rest, l.Wf) : lfFindoverlap type lock pre rest ≠ .panic := by
  induction rest generalizing pre with
  | nil => exact FindOverlap.noConfusion
  | cons lf rest ih =>
    have hlf := hrest lf (mem_cons_self ..)
    have htail := fun l hl => hrest l (mem_cons_of_mem _ hl)
    rw [lfFindoverlap]
    split
    · exact ih htail
    · split
      · split
        · exact FindOverlap.noConfusion
        · exact ih htail
      · rename_i hov
        obtain ⟨c, hc⟩ := ovCase_isSome hlf hlock hov
        rw [hc]
        exact FindOverlap.noConfusion

/-- What stands in the way of a request: a lock of another owner that overlaps it,
    with one of the two exclusive. -/
def Blocks (lock l : Lockf) : Prop :=
  l.lfId ≠ lock.lfId ∧ (∃ b, l.Covers b ∧ lock.Covers b) ∧
    (lock.lfType = .wrlck ∨ l.lfType = .wrlck)

/-- What the walk over the other owners' locks returns. -/
def FindOverlap.Others (lock : Lockf) (rest : List Lockf) : FindOverlap → Prop
  | .none _ _ => ∀ l ∈ rest, ¬ Blocks lock l
  | .hit _ _ overlap rest' =>
    ∃ skipped, rest = skipped ++ overlap :: rest' ∧ ∀ l ∈ skipped, ¬ Blocks lock l
  | .panic => True

theorem FindOverlap.Others.pass (h : r.Others lock rest)
    (hlf : ¬ Blocks lock lf) : r.Others lock (lf :: rest) := by
  cases r with
  | none pre' rest' =>
    intro l hl
    rcases mem_cons.mp hl with rfl | hl
    · exact hlf
    · exact h l hl
  | hit c pre' overlap rest' =>
    obtain ⟨skipped, hrest, hskipped⟩ := h
    refine ⟨lf :: skipped, by rw [hrest, cons_append], fun l hl => ?_⟩
    rcases mem_cons.mp hl with rfl | hl
    · exact hlf
    · exact hskipped l hl
  | panic => trivial

theorem findoverlap_others (lock : Lockf) (pre rest : List Lockf) :
    (lfFindoverlap .others lock pre rest).Others lock rest := by
  induction rest generalizing pre with
  | nil => exact fun l hl => absurd hl not_mem_nil
  | cons lf rest ih =>
    rw [lfFindoverlap]
    split
    · -- a lock of the caller is skipped
      rename_i hskip
      refine (ih (lf :: pre)).pass fun hblock => hblock.1 ?_
      simpa using hskip
    · split
      · rename_i hno
        rw [if_neg (by simp)]
        refine (ih (lf :: pre)).pass ?_
        rintro ⟨-, ⟨b, hlf, hlock⟩, -⟩
        rcases noOverlap_iff.mp hno with hb | hb
        · exact hb.not_covers hlf hlock
        · exact hb.not_covers hlock hlf
      · split
        · exact ⟨[], rfl, fun l hl => absurd hl not_mem_nil⟩
        · trivial

theorem getblock_none (h : lfGetblock lock locks = some none) : ∀ l ∈ locks, ¬ Blocks lock l := by
  induction hlen : locks.length using Nat.strongRecOn generalizing locks with
  | ind n ih =>
    have hothers := findoverlap_others lock [] locks
    rw [lfGetblock] at h
    split at h
    · rename_i pre' rest' hscan
      rw [hscan] at hothers
      exact hothers
    · rename_i c pre' overlap rest' hscan
      split at h
      · cases h
      · rename_i htype
        rw [hscan] at hothers
        obtain ⟨skipped, hrest, hskipped⟩ := hothers
        have htail := ih _ (hlen ▸ lfFindoverlap_length hscan) h rfl
        -- the overlap found is shared, like the request
        have hshared : ¬ Blocks lock overlap := by
          rintro ⟨-, -, hwr⟩
          simp only [Bool.or_eq_true, beq_iff_eq] at htype
          exact htype hwr
        intro l hl
        rw [hrest] at hl
        rcases mem_append.mp hl with hl | hl
        · exact hskipped l hl
        · rcases mem_cons.mp hl with rfl | hl
          · exact hshared
          · exact htail l hl
    · cases h

theorem getblock_isSome (hlock : lock.Wf) (hwf : ∀ l ∈ locks, l.Wf) :
    ∃ r, lfGetblock lock locks = some r := by
  induction hlen : locks.length using Nat.strongRecOn generalizing locks with
  | ind n ih =>
    rw [lfGetblock]
    split
    · exact ⟨_, rfl⟩
    · rename_i c pre' overlap rest' hscan
      have hothers := findoverlap_others lock [] locks
      rw [hscan] at hothers
      -- a shared lock does not block a shared request; the search goes on behind it
      obtain ⟨skipped, hrest, -⟩ := hothers
      split
      · exact ⟨_, rfl⟩
      · refine ih _ (hlen ▸ lfFindoverlap_length hscan) (fun l hl => ?_) rfl
        rw [hrest] at hwf
        exact hwf l (mem_append_right _ (mem_cons_of_mem _ hl))
    · rename_i hpanic
      exact absurd hpanic (findoverlap_ne_panic hlock hwf)

end OpenBsd.Kern
