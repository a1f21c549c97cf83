/-
  OpenBsd.Kern.LockfMap

  Setting and clearing a lock on the list is setting and clearing it on the map
  from owners and bytes to lock types.

  Both loops replace one overlapping lock of the owner at a time and leave everything else
  alone (`Edit`).  While a new lock covers several old ones the list is out of order behind
  it (`Linked`).  The parts start at `lf_end + 1`, which may overflow; `SetSafe` and
  `ClearSafe` exclude just that.
-/

import OpenBsd.Lib.Intervals
import OpenBsd.Kern.LockfScan

namespace OpenBsd.Kern

open OpenBsd.Lib List

/-! ## Edits of the list -/

/-- Well-formed locks in order. -/
structure ListOk (locks : List Lockf) : Prop where
  wf : ∀ l ∈ locks, l.Wf
  ordered : Ordered locks

/-- The other owners' locks are the same, and so are the owner's bytes outside the
    request. -/
structure Edit (lock : Lockf) (l l' : List Lockf) : Prop where
  others : l'.filter (·.lfId != lock.lfId) = l.filter (·.lfId != lock.lfId)
  off : ∀ b t, ¬ lock.Covers b → (Holds l' lock.lfId b t ↔ Holds l lock.lfId b t)

theorem Edit.refl (lock : Lockf) (l : List Lockf) : Edit lock l l := ⟨rfl, fun _ _ _ => Iff.rfl⟩

theorem Edit.trans {lock : Lockf} {l l' l'' : List Lockf} (h : Edit lock l l')
    (h' : Edit lock l' l'') : Edit lock l l'' :=
  ⟨h'.others.trans h.others, fun b t hb => (h'.off b t hb).trans (h.off b t hb)⟩

/-- Replacing locks of the owner by others that cover the same outside the
    request. -/
theorem Edit.replace {lock : Lockf} {pre mid mid' rest : List Lockf}
    (hmid : ∀ l ∈ mid, l.lfId = lock.lfId) (hmid' : ∀ l ∈ mid', l.lfId = lock.lfId)
    (hoff : ∀ b t, ¬ lock.Covers b → (Holds mid' lock.lfId b t ↔ Holds mid lock.lfId b t)) :
    Edit lock (pre ++ (mid ++ rest)) (pre ++ (mid' ++ rest)) := by
  have hnil : ∀ l : List Lockf, (∀ x ∈ l, x.lfId = lock.lfId) →
      l.filter (·.lfId != lock.lfId) = [] := by
    intro l hl
    rw [filter_eq_nil_iff]
    intro x hx
    simp [hl x hx]
  refine ⟨?_, fun b t hb => ?_⟩
  · rw [filter_append, filter_append, filter_append, filter_append, hnil mid hmid, hnil mid' hmid']
  · rw [holds_append, holds_append, holds_append, holds_append, hoff b t hb]

theorem Edit.mem_other {lock x : Lockf} {l l' : List Lockf} (h : Edit lock l l')
    (hx : x.lfId ≠ lock.lfId) : x ∈ l' ↔ x ∈ l := by
  have hmem : ∀ l : List Lockf, x ∈ l.filter (·.lfId != lock.lfId) ↔ x ∈ l := by
    intro l
    rw [mem_filter]
    simp [hx]
  rw [← hmem l', h.others, hmem l]

theorem Before.trans {a b c : Lockf} (h : Before a b) (hb : b.Wf) (h' : Before b c) :
    Before a c := by
  obtain ⟨hne, hlt⟩ := h
  obtain ⟨hne', hlt'⟩ := h'
  have := hb.range
  exact ⟨hne, by omega⟩

/-! ## Parts of a lock -/

theorem toInt_succ {x : Int64} (hlt : x.toInt < 2 ^ 63 - 1) : (x + 1).toInt = x.toInt + 1 := by
  have hle := x.le_toInt
  rw [Int64.toInt_add]
  show (x.toInt + 1).bmod (2 ^ 64) = x.toInt + 1
  rw [Int.bmod_eq_of_le] <;> omega

theorem toInt_pred {x : Int64} (hpos : 0 < x.toInt) : (x - 1).toInt = x.toInt - 1 := by
  have hlt := x.toInt_lt
  rw [Int64.toInt_sub]
  show (x.toInt - 1).bmod (2 ^ 64) = x.toInt - 1
  rw [Int.bmod_eq_of_le] <;> omega

/-- The part of `overlap` before the request. -/
def headPart (lock overlap : Lockf) : List Lockf :=
  if overlap.lo < lock.lo then [{ overlap with lfEnd := lock.lfStart - 1 }] else []

/-- `overlap` reaches beyond the end of the request. -/
def Exceeds (lock overlap : Lockf) : Prop :=
  lock.last ≠ -1 ∧ (overlap.last = -1 ∨ lock.last < overlap.last)

instance (lock overlap : Lockf) : Decidable (Exceeds lock overlap) :=
  inferInstanceAs (Decidable (_ ∧ _))

/-- The part of `overlap` behind the request. -/
def tailPart (lock overlap : Lockf) : List Lockf :=
  if Exceeds lock overlap then [{ overlap with lfStart := lock.lfEnd + 1 }] else []

/-- The part behind the request does not start past the largest offset. -/
def CutOk (lock overlap : Lockf) : Prop := Exceeds lock overlap → lock.last < 2 ^ 63 - 1

section

variable {lock overlap m : Lockf}

theorem headPart_lo (hov : overlap.Wf) (hm : m ∈ headPart lock overlap) :
    m.lfId = overlap.lfId ∧ m.lfType = overlap.lfType ∧ m.lo = overlap.lo ∧
      m.last = lock.lo - 1 ∧ overlap.lo < lock.lo := by
  unfold headPart at hm
  split at hm
  · rename_i hlt
    rw [mem_singleton] at hm
    have h0 := hov.nonneg
    subst hm
    exact ⟨rfl, rfl, rfl, toInt_pred (show 0 < lock.lo by omega), hlt⟩
  · cases hm

theorem tailPart_lo (hcut : CutOk lock overlap) (hm : m ∈ tailPart lock overlap) :
    m.lfId = overlap.lfId ∧ m.lfType = overlap.lfType ∧ m.lo = lock.last + 1 ∧
      m.last = overlap.last ∧ Exceeds lock overlap := by
  unfold tailPart at hm
  split at hm
  · rename_i hexc
    rw [mem_singleton] at hm
    subst hm
    exact ⟨rfl, rfl, toInt_succ (hcut hexc), rfl, hexc⟩
  · cases hm

theorem headPart_pairwise (R : Lockf → Lockf → Prop) : (headPart lock overlap).Pairwise R := by
  unfold headPart
  split
  · exact pairwise_singleton ..
  · exact .nil

theorem tailPart_pairwise (R : Lockf → Lockf → Prop) : (tailPart lock overlap).Pairwise R := by
  unfold tailPart
  split
  · exact pairwise_singleton ..
  · exact .nil

theorem holds_parts (hov : overlap.Wf) (hover : Overlaps overlap lock)
    (hcut : CutOk lock overlap) {b : Nat} {t : LockType} (hb : ¬ lock.Covers b) :
    Holds (headPart lock overlap ++ tailPart lock overlap) lock.lfId b t ↔
      Holds [overlap] lock.lfId b t := by
  have h0 := hov.nonneg
  obtain ⟨hnot, hnot'⟩ := hover
  simp only [Before, Lockf.Covers] at hnot hnot' hb
  constructor
  · rintro ⟨m, hm, hid, ⟨hlo, hhi⟩, rfl⟩
    refine ⟨overlap, mem_singleton_self _, ?_⟩
    rcases mem_append.mp hm with hm | hm
    · obtain ⟨hid', htype, hlo', hlast, hlt⟩ := headPart_lo hov hm
      exact ⟨hid'.symm.trans hid, ⟨by omega, by omega⟩, htype.symm⟩
    · obtain ⟨hid', htype, hlo', hlast, hne, hexc⟩ := tailPart_lo hcut hm
      exact ⟨hid'.symm.trans hid, ⟨by omega, by omega⟩, htype.symm⟩
  · rintro ⟨x, hx, hid, ⟨hlo, hhi⟩, rfl⟩
    rw [mem_singleton] at hx
    subst hx
    -- the byte lies before the request or behind it
    by_cases hside : (b : Int) < lock.lo
    · have hlt : x.lo < lock.lo := by omega
      rw [headPart, if_pos hlt]
      refine ⟨_, mem_append_left _ (mem_singleton_self _), hid, ⟨hlo, Or.inr ?_⟩, rfl⟩
      have hpred := toInt_pred (show 0 < lock.lo by omega)
      simp only [Lockf.last] at hpred ⊢
      simp only [Lockf.lo] at *
      omega
    · have hexc : Exceeds lock x := ⟨by omega, by omega⟩
      rw [tailPart, if_pos hexc]
      refine ⟨_, mem_append_right _ (mem_singleton_self _), hid, ⟨?_, hhi⟩, rfl⟩
      have hsucc := toInt_succ (hcut hexc)
      simp only [Lockf.lo, Lockf.last] at *
      omega

end

/-- A piece that may stand in the place of `overlap`: it starts no lower than the
    request or the overlap and ends no higher than the overlap. -/
structure Piece (lock overlap m : Lockf) : Prop where
  id : m.lfId = lock.lfId
  wf : m.Wf
  low : lock.lo ≤ m.lo ∨ overlap.lo ≤ m.lo
  high : overlap.last ≠ -1 → m.last ≠ -1 ∧ m.last ≤ overlap.last

section

variable {lock overlap : Lockf} {pre rest : List Lockf}

/-- The locks around an overlap that the search passed or has not reached. -/
structure Around (lock overlap : Lockf) (pre rest : List Lockf) : Prop where
  ok : ListOk (pre ++ ([overlap] ++ rest))
  id : overlap.lfId = lock.lfId
  passed : Passed lock pre

theorem Around.before {a : Lockf} (h : Around lock overlap pre rest) (ha : a ∈ pre)
    (hid : a.lfId = lock.lfId) : Before a lock ∧ Before a overlap := by
  refine ⟨h.passed a ha hid, ?_⟩
  have hcross := (pairwise_append.mp h.ok.ordered).2.2
  exact hcross a ha overlap (mem_append_left _ (mem_singleton_self _)) (hid.trans h.id.symm)

theorem Around.after {c : Lockf} (h : Around lock overlap pre rest) (hc : c ∈ rest)
    (hid : c.lfId = lock.lfId) : Before overlap c := by
  have hright := (pairwise_append.mp h.ok.ordered).2.1
  exact (pairwise_cons.mp hright).1 c hc (h.id.trans hid.symm)

theorem Around.overlap_wf (h : Around lock overlap pre rest) : overlap.Wf :=
  h.ok.wf overlap (mem_append_right _ (mem_append_left _ (mem_singleton_self _)))

theorem Around.replace {mid : List Lockf} (h : Around lock overlap pre rest)
    (hmid : ∀ m ∈ mid, Piece lock overlap m) (hord : mid.Pairwise Before) :
    ListOk (pre ++ (mid ++ rest)) := by
  constructor
  · intro l hl
    rcases mem_append.mp hl with hl | hl
    · exact h.ok.wf l (mem_append_left _ hl)
    · rcases mem_append.mp hl with hl | hl
      · exact (hmid l hl).wf
      · exact h.ok.wf l (mem_append_right _ (mem_append_right _ hl))
  · have hord' := hord.imp (S := fun a b => a.lfId = b.lfId → Before a b) fun hb _ => hb
    -- the pieces stay inside overlap and request, so both sides keep their order
    refine pairwise_replace h.ok.ordered hord' ?_ ?_
    · intro m hm a ha hid
      obtain ⟨⟨hne, hlt⟩, -, hlt'⟩ := h.before ha (hid.trans (hmid m hm).id)
      have := (hmid m hm).low
      exact ⟨hne, by omega⟩
    · intro m hm c hc hid
      obtain ⟨hne, hlt⟩ := h.after hc (hid.symm.trans (hmid m hm).id)
      obtain ⟨hne', hle⟩ := (hmid m hm).high hne
      exact ⟨hne', by omega⟩

theorem Around.head_piece (h : Around lock overlap pre rest) (hover : Overlaps overlap lock)
    {m : Lockf} (hm : m ∈ headPart lock overlap) : Piece lock overlap m ∧ Before m lock := by
  obtain ⟨hid, -, hlo, hlast, hlt⟩ := headPart_lo h.overlap_wf hm
  have h0 := h.overlap_wf.nonneg
  have hnot := hover.1
  simp only [Before] at hnot
  refine ⟨⟨hid.trans h.id, ⟨by omega, by omega⟩, Or.inr (by omega), fun hne => ?_⟩, ?_⟩
  · exact ⟨by omega, by omega⟩
  · exact ⟨by omega, by omega⟩

theorem Around.tail_piece (h : Around lock overlap pre rest) (hlock : lock.Wf)
    (hover : Overlaps overlap lock) (hcut : CutOk lock overlap) {m : Lockf}
    (hm : m ∈ tailPart lock overlap) : Piece lock overlap m ∧ Before lock m := by
  obtain ⟨hid, -, hlo, hlast, hne, hexc⟩ := tailPart_lo hcut hm
  have h0 := hlock.nonneg
  have hr := hlock.range
  have hnot := hover.2
  simp only [Before] at hnot
  refine ⟨⟨hid.trans h.id, ⟨by omega, by omega⟩, Or.inr (by omega), fun hne => ?_⟩, ?_⟩
  · exact ⟨by omega, by omega⟩
  · exact ⟨hne, by omega⟩

theorem edit_parts (hov : overlap.Wf) (hid : overlap.lfId = lock.lfId)
    (hover : Overlaps overlap lock) (hcut : CutOk lock overlap) (new : List Lockf)
    (hnew : ∀ x ∈ new, x = lock) (pre rest : List Lockf) :
    Edit lock (pre ++ ([overlap] ++ rest))
      (pre ++ ((headPart lock overlap ++ (new ++ tailPart lock overlap)) ++ rest)) := by
  apply Edit.replace
  · intro l hl
    rw [mem_singleton.mp hl]
    exact hid
  · intro l hl
    rcases mem_append.mp hl with hl | hl
    · exact (headPart_lo hov hl).1.trans hid
    · rcases mem_append.mp hl with hl | hl
      · rw [hnew l hl]
      · exact (tailPart_lo hcut hl).1.trans hid
  · intro b t hb
    -- outside the request the new lock holds nothing
    have hnone : ¬ Holds new lock.lfId b t := by
      rintro ⟨x, hx, -, hcov, -⟩
      rw [hnew x hx] at hcov
      exact hb hcov
    rw [← holds_parts hov hover hcut hb, holds_append, holds_append, holds_append]
    tauto

theorem Around.cleared (h : Around lock overlap pre rest) (hlock : lock.Wf)
    (hover : Overlaps overlap lock) (hcut : CutOk lock overlap) :
    ListOk (pre ++ ((headPart lock overlap ++ tailPart lock overlap) ++ rest)) := by
  apply h.replace
  · intro m hm
    rcases mem_append.mp hm with hm | hm
    · exact (h.head_piece hover hm).1
    · exact (h.tail_piece hlock hover hcut hm).1
  · rw [pairwise_append]
    refine ⟨headPart_pairwise _, tailPart_pairwise _, fun a ha c hc => ?_⟩
    exact (h.head_piece hover ha).2.trans hlock (h.tail_piece hlock hover hcut hc).2

theorem Around.set_between (h : Around lock overlap pre rest) (hlock : lock.Wf)
    (hover : Overlaps overlap lock) (hcut : CutOk lock overlap)
    (hhigh : overlap.last ≠ -1 → lock.last ≠ -1 ∧ lock.last ≤ overlap.last) :
    ListOk (pre ++ ((headPart lock overlap ++ ([lock] ++ tailPart lock overlap)) ++ rest)) := by
  apply h.replace
  · intro m hm
    rcases mem_append.mp hm with hm | hm
    · exact (h.head_piece hover hm).1
    · rcases mem_append.mp hm with hm | hm
      · rw [mem_singleton.mp hm]
        exact ⟨rfl, hlock, Or.inl (Int.le_refl _), hhigh⟩
      · exact (h.tail_piece hlock hover hcut hm).1
  · -- head, request and tail, in this order
    rw [pairwise_append]
    refine ⟨headPart_pairwise _, pairwise_cons.mpr ⟨fun c hc => ?_, tailPart_pairwise _⟩,
      fun a ha c hc => ?_⟩
    · exact (h.tail_piece hlock hover hcut hc).2
    · rcases mem_append.mp hc with hc | hc
      · rw [mem_singleton.mp hc]
        exact (h.head_piece hover ha).2
      · exact (h.head_piece hover ha).2.trans hlock (h.tail_piece hlock hover hcut hc).2

end

/-! ## Clearing -/

section

variable {lock : Lockf}

/-- The walk ended without a hit: the rest of the owner's locks lie behind the
    request. -/
theorem behind_of_none {pre rest pre' rest' : List Lockf} (hok : ListOk (pre.reverse ++ rest))
    (hpre : Passed lock pre)
    (h : FindOverlap.Self lock pre rest (.none pre' rest')) :
    pre'.reverse ++ rest' = pre.reverse ++ rest ∧ Passed lock pre' ∧
      ∀ c ∈ rest', c.lfId = lock.lfId → Before lock c := by
  obtain ⟨skipped, hrest, hpre', hpassed, hstop⟩ := h
  have hlist : pre'.reverse ++ rest' = pre.reverse ++ rest := by
    rw [hpre', hrest, reverse_append, reverse_reverse, append_assoc]
  refine ⟨hlist, ?_, ?_⟩
  · intro l hl
    rw [hpre'] at hl
    rcases mem_append.mp hl with hl | hl
    · exact hpassed l (mem_reverse.mp hl)
    · exact hpre l hl
  · rw [← hlist] at hok
    -- the walk stopped at a lock of the owner behind the request, or at the end
    cases rest' with
    | nil => exact fun c hc => absurd hc not_mem_nil
    | cons lf tail =>
      obtain ⟨hid, hb⟩ := hstop lf tail rfl
      have hlf : lf.Wf := hok.wf lf (mem_append_right _ (mem_cons_self ..))
      have hright := (pairwise_append.mp hok.ordered).2.1
      intro c hc hcid
      rcases mem_cons.mp hc with rfl | hc
      · exact hb
      · exact hb.trans hlf ((pairwise_cons.mp hright).1 c hc (hid.trans hcid.symm))

theorem around_of_hit {overlap : Lockf} {pre rest pre' rest' : List Lockf} {c : OvCase}
    (hok : ListOk (pre.reverse ++ rest)) (hpre : Passed lock pre)
    (h : FindOverlap.Self lock pre rest (.hit c pre' overlap rest')) :
    pre.reverse ++ rest = pre'.reverse ++ ([overlap] ++ rest') ∧
      Around lock overlap pre'.reverse rest' ∧ Overlaps overlap lock ∧ c.Is overlap lock ∧
      overlap ∈ rest ∧ ∀ x ∈ rest', x ∈ rest := by
  obtain ⟨skipped, hrest, hpre', hpassed, hid, hover, hcase⟩ := h
  have hlist : pre.reverse ++ rest = pre'.reverse ++ ([overlap] ++ rest') := by
    rw [hpre', hrest, reverse_append, reverse_reverse, append_assoc, singleton_append]
  refine ⟨hlist, ⟨hlist ▸ hok, hid, fun l hl => ?_⟩, hover, hcase, ?_, fun x hx => ?_⟩
  · rw [mem_reverse, hpre'] at hl
    rcases mem_append.mp hl with hl | hl
    · exact hpassed l (mem_reverse.mp hl)
    · exact hpre l hl
  · rw [hrest]
    exact mem_append_right _ (mem_cons_self ..)
  · rw [hrest]
    exact mem_append_right _ (mem_cons_of_mem _ hx)

/-- What clearing a request does. -/
structure ClearSpec (lock : Lockf) (l l' : List Lockf) : Prop where
  ok : ListOk l'
  edit : Edit lock l l'
  gone : ∀ x ∈ l', x.lfId = lock.lfId → Before x lock ∨ Before lock x

/-- A request to the largest offset does not cut a lock to the end of the file. -/
def ClearSafe (lock : Lockf) (l : List Lockf) : Prop :=
  lock.last = 2 ^ 63 - 1 → ∀ x ∈ l, x.lfId = lock.lfId → x.last ≠ -1

theorem ClearSafe.cutOk {overlap : Lockf} {l : List Lockf} (h : ClearSafe lock l)
    (hmem : overlap ∈ l) (hid : overlap.lfId = lock.lfId) : CutOk lock overlap := by
  rintro ⟨hne, hexc⟩
  have hlt : lock.last < 2 ^ 63 := lock.lfEnd.toInt_lt
  have hlt' : overlap.last < 2 ^ 63 := overlap.lfEnd.toInt_lt
  by_contra hge
  have hmax : lock.last = 2 ^ 63 - 1 := by omega
  have hlast := h hmax overlap hmem hid
  omega

/-- The overlap ends where the request ends or beyond it. -/
def EndsNoSooner (lock overlap : Lockf) : Prop :=
  overlap.last ≠ -1 → lock.last ≠ -1 ∧ lock.last ≤ overlap.last

theorem clearSpec_last {overlap : Lockf} {pre rest : List Lockf}
    (h : Around lock overlap pre rest) (hlock : lock.Wf) (hover : Overlaps overlap lock)
    (hcut : CutOk lock overlap) (hend : EndsNoSooner lock overlap) :
    ClearSpec lock (pre ++ ([overlap] ++ rest))
      (pre ++ ((headPart lock overlap ++ tailPart lock overlap) ++ rest)) := by
  refine ⟨h.cleared hlock hover hcut, ?_, fun x hx hid => ?_⟩
  · exact edit_parts h.overlap_wf h.id hover hcut [] (fun x hx => absurd hx not_mem_nil) pre rest
  · rcases mem_append.mp hx with hx | hx
    · exact Or.inl (h.before hx hid).1
    · rcases mem_append.mp hx with hx | hx
      · rcases mem_append.mp hx with hx | hx
        · exact Or.inl (h.head_piece hover hx).2
        · exact Or.inr (h.tail_piece hlock hover hcut hx).2
      · -- the request ends no later than the overlap
        obtain ⟨hne, hlt⟩ := h.after hx hid
        obtain ⟨hne', hle⟩ := hend hne
        exact Or.inr ⟨hne', by omega⟩

theorem headPart_of_le {overlap : Lockf} (h : lock.lo ≤ overlap.lo) :
    headPart lock overlap = [] := by
  rw [headPart, if_neg (by omega)]

theorem tailPart_of_not {overlap : Lockf} (h : ¬ Exceeds lock overlap) :
    tailPart lock overlap = [] := by
  rw [tailPart, if_neg h]

theorem lfSplit_parts {overlap : Lockf} (hcase : OvCase.overlapContains.Is overlap lock)
    (hne : ¬ overlap.lfStart = lock.lfStart) (cnt : Lockcnt) :
    ∃ first last cnt', lfSplit overlap lock cnt = (first, last, cnt') ∧
      headPart lock overlap = [first] ∧ tailPart lock overlap = last := by
  obtain ⟨hle, hhigh, hnot⟩ := hcase
  rw [← Int64.toInt_inj] at hne
  have hlt : overlap.lo < lock.lo := by
    simp only [Lockf.lo] at *
    omega
  have hhead : headPart lock overlap = [{ overlap with lfEnd := lock.lfStart - 1 }] := by
    rw [headPart, if_pos hlt]
  -- with equal ends the third piece is not made
  by_cases heq : overlap.lfEnd = lock.lfEnd
  · refine ⟨_, _, _, if_pos (by rw [heq, beq_self_eq_true]), hhead, tailPart_of_not ?_⟩
    rintro ⟨hne', hexc⟩
    simp only [Lockf.last, heq] at *
    omega
  · refine ⟨_, _, _, if_neg (by simpa using heq), hhead, ?_⟩
    rw [← Int64.toInt_inj] at heq
    rw [tailPart, if_pos]
    simp only [Exceeds, Lockf.last] at *
    omega

theorem clearLoop_spec (hlock : lock.Wf) {pre rest : List Lockf}
    (hok : ListOk (pre.reverse ++ rest)) (hpre : Passed lock pre) (hsafe : ClearSafe lock rest)
    (cnt : Lockcnt) : ∃ locks' cnt', lfClearLoop lock pre rest cnt = some (locks', cnt') ∧
      ClearSpec lock (pre.reverse ++ rest) locks' := by
  induction hlen : rest.length using Nat.strongRecOn generalizing pre rest cnt with
  | ind n ih =>
    -- induction on what the walk has not passed; each overlap is cut in turn
    have hself := findoverlap_self hlock pre rest
    rw [lfClearLoop]
    split
    · rename_i hpanic
      refine absurd hpanic (findoverlap_ne_panic hlock fun l hl => ?_)
      exact hok.wf l (mem_append_right _ hl)
    · rename_i pre' rest' hscan
      rw [hscan] at hself
      obtain ⟨hlist, hpassed, hbehind⟩ := behind_of_none hok hpre hself
      -- no further overlap: all is done
      refine ⟨_, _, rfl, hlist ▸ hok, hlist ▸ Edit.refl lock _, fun x hx hid => ?_⟩
      rcases mem_append.mp hx with hx | hx
      · exact Or.inl (hpassed x (mem_reverse.mp hx) hid)
      · exact Or.inr (hbehind x hx hid)
    · rename_i c pre' overlap rest' hscan
      rw [hscan] at hself
      obtain ⟨hlist, haround, hover, hcase, hmem, hsub⟩ := around_of_hit hok hpre hself
      have hcut := hsafe.cutOk hmem haround.id
      have hlast := clearSpec_last haround hlock hover hcut
      have hcleared := haround.cleared hlock hover hcut
      have hedit := edit_parts haround.overlap_wf haround.id hover hcut []
        (fun x hx => absurd hx not_mem_nil) pre'.reverse rest'
      rw [← hlist] at hlast hedit
      -- the walk goes on behind a part that lies before the request
      have hgoon : ∀ pre'', pre''.reverse = pre'.reverse ++ headPart lock overlap →
          tailPart lock overlap = [] → ∀ cnt, ∃ locks' cnt',
            lfClearLoop lock pre'' rest' cnt = some (locks', cnt') ∧
              ClearSpec lock (pre.reverse ++ rest) locks' := by
        intro pre'' hpre'' htail cnt
        rw [htail, append_nil, ← append_assoc, ← hpre''] at hcleared
        rw [htail, append_nil, append_nil, ← append_assoc, ← hpre''] at hedit
        have hpassed : Passed lock pre'' := by
          intro l hl hid
          rw [← mem_reverse, hpre''] at hl
          rcases mem_append.mp hl with hl | hl
          · exact haround.passed l hl hid
          · exact (haround.head_piece hover hl).2
        obtain ⟨locks', cnt', hrun, hspec⟩ := ih rest'.length
          (hlen ▸ lfFindoverlap_length hscan) hcleared hpassed
          (fun hmax x hx => hsafe hmax x (hsub x hx)) cnt rfl
        exact ⟨locks', cnt', hrun, hspec.ok, hedit.trans hspec.edit, hspec.gone⟩
      -- the switch of lf_clearlock; three cases end it, two go on
      cases c with
      | equal =>
        obtain ⟨hlo, hend⟩ := hcase
        have hspec := hlast fun hne => ⟨by omega, by omega⟩
        rw [headPart_of_le (by omega), tailPart_of_not (by rintro ⟨hne, h⟩; omega)] at hspec
        exact ⟨_, _, rfl, hspec⟩
      | overlapContains =>
        obtain ⟨hle, hhigh, hnot⟩ := id hcase
        have hspec := hlast fun hne => ⟨by omega, by omega⟩
        dsimp only
        split
        · rename_i hstart
          rw [beq_iff_eq, ← Int64.toInt_inj] at hstart
          have hexc : Exceeds lock overlap := by
            simp only [Exceeds, Lockf.lo, Lockf.last] at *
            omega
          rw [headPart_of_le (Int.le_of_eq hstart.symm), tailPart, if_pos hexc] at hspec
          exact ⟨_, _, rfl, hspec⟩
        · rename_i hstart
          obtain ⟨first, last, cnt', hsplit, hhead, htail⟩ :=
            lfSplit_parts hcase (by simpa using hstart) cnt
          rw [hhead, htail] at hspec
          rw [hsplit]
          exact ⟨_, _, rfl, hspec⟩
      | lockContains =>
        obtain ⟨hle, hhigh⟩ := hcase
        refine hgoon pre' ?_ (tailPart_of_not ?_) _
        · rw [headPart_of_le hle, append_nil]
        · rintro ⟨hne, hexc⟩
          omega
      | startsBefore =>
        obtain ⟨hlt, hne, hle, hhigh⟩ := hcase
        refine hgoon _ ?_ (tailPart_of_not ?_) _
        · rw [headPart, if_pos hlt, reverse_cons]
        · rintro ⟨hne, hexc⟩
          omega
      | endsAfter =>
        obtain ⟨hlt, hne, hhigh⟩ := hcase
        have hspec := hlast fun hne' => ⟨hne, by omega⟩
        rw [headPart_of_le (by omega), tailPart, if_pos ⟨hne, hhigh⟩] at hspec
        exact ⟨_, _, rfl, hspec⟩

end

/-! ## Setting -/

section

variable {lock : Lockf}

/-- What setting a request does. -/
structure SetSpec (lock : Lockf) (l l' : List Lockf) : Prop where
  ok : ListOk l'
  edit : Edit lock l l'
  held : ∀ b, lock.Covers b → Holds l' lock.lfId b lock.lfType

/-- A request to the largest offset does not cut a lock to the end of the file: the
    owner's lock to the end of the file, if it has one, contains the request and has
    its type. -/
def SetSafe (lock : Lockf) (l : List Lockf) : Prop :=
  lock.last = 2 ^ 63 - 1 →
    ∀ x ∈ l, x.lfId = lock.lfId → x.last = -1 → x.lo ≤ lock.lo ∧ x.lfType = lock.lfType

theorem SetSafe.cutOk {overlap : Lockf} {l : List Lockf} (h : SetSafe lock l) (hmem : overlap ∈ l)
    (hid : overlap.lfId = lock.lfId)
    (hcuts : ¬ (overlap.lo ≤ lock.lo ∧ overlap.lfType = lock.lfType)) : CutOk lock overlap := by
  rintro ⟨hne, hexc⟩
  have hlt : lock.last < 2 ^ 63 := lock.lfEnd.toInt_lt
  have hlt' : overlap.last < 2 ^ 63 := overlap.lfEnd.toInt_lt
  by_contra hge
  have hmax : lock.last = 2 ^ 63 - 1 := by omega
  have hlast : overlap.last = -1 := by omega
  exact hcuts (h hmax overlap hmem hid hlast)

/-- The new lock is in the list and covers old ones behind it: the list is in order
    but for these. -/
structure Linked (lock : Lockf) (pre rest : List Lockf) : Prop where
  wf : ∀ l ∈ pre.reverse ++ rest, l.Wf
  pairwise : (pre.reverse ++ rest).Pairwise fun a c =>
    a.lfId = c.lfId → Before a c ∨ (a = lock ∧ lock.lo < c.lo)
  mem : lock ∈ pre
  left : ∀ a ∈ pre, a.lfId = lock.lfId → a = lock ∨ Before a lock
  right : ∀ c ∈ rest, c.lfId = lock.lfId → lock.lo < c.lo

/-- Once the rest of the owner's locks lie behind the new one, the list is in
    order. -/
theorem Linked.listOk {pre rest : List Lockf} (h : Linked lock pre rest)
    (hrest : ∀ c ∈ rest, c.lfId = lock.lfId → Before lock c) : ListOk (pre.reverse ++ rest) := by
  refine ⟨h.wf, h.pairwise.imp_of_mem fun {a c} ha hc hor hid => ?_⟩
  rcases hor hid with hb | ⟨rfl, hlt⟩
  · exact hb
  · rcases mem_append.mp hc with hc' | hc'
    · -- a lock before the new one does not start behind it
      have hr := (h.wf c hc).range
      rcases h.left c (mem_reverse.mp hc') hid.symm with rfl | ⟨hne, hlt'⟩
      · omega
      · omega
    · exact hrest c hc' hid.symm

theorem Linked.move {pre skipped rest : List Lockf} (h : Linked lock pre (skipped ++ rest))
    (hpassed : Passed lock skipped) : Linked lock (skipped.reverse ++ pre) rest := by
  have hlist : (skipped.reverse ++ pre).reverse ++ rest = pre.reverse ++ (skipped ++ rest) := by
    rw [reverse_append, reverse_reverse, append_assoc]
  refine ⟨hlist ▸ h.wf, hlist ▸ h.pairwise, mem_append_right _ h.mem, fun a ha hid => ?_,
    fun c hc => h.right c (mem_append_right _ hc)⟩
  rcases mem_append.mp ha with ha | ha
  · exact Or.inr (hpassed a (mem_reverse.mp ha) hid)
  · exact h.left a ha hid

theorem Linked.after {pre rest : List Lockf} {x c : Lockf} (h : Linked lock pre (x :: rest))
    (hid : x.lfId = lock.lfId) (hc : c ∈ rest) (hcid : c.lfId = lock.lfId) : Before x c := by
  have hright := h.right x (mem_cons_self ..) hid
  have hrest := (pairwise_append.mp h.pairwise).2.1
  rcases (pairwise_cons.mp hrest).1 c hc (hid.trans hcid.symm) with hb | ⟨heq, -⟩
  · exact hb
  · rw [heq] at hright
    omega

/-- Leaving of an overlap the part behind the request, if there is one. -/
theorem Linked.cut {pre rest : List Lockf} {overlap : Lockf} (hlock : lock.Wf)
    (h : Linked lock pre (overlap :: rest)) (hid : overlap.lfId = lock.lfId)
    (hover : Overlaps overlap lock) (hcut : CutOk lock overlap) :
    Linked lock pre (tailPart lock overlap ++ rest) := by
  have hmem : overlap ∈ pre.reverse ++ overlap :: rest :=
    mem_append_right _ (mem_cons_self ..)
  have h0 := hlock.nonneg
  have hr := hlock.range
  have hright := h.right overlap (mem_cons_self ..) hid
  have hnot := hover.2
  simp only [Before] at hnot
  -- the part starts above the overlap and ends with it
  have htail : ∀ m ∈ tailPart lock overlap, m.Wf ∧ m.lfId = overlap.lfId ∧
      m.last = overlap.last ∧ overlap.lo ≤ m.lo := by
    intro m hm
    obtain ⟨hid', -, hlo, hlast, hne, hexc⟩ := tailPart_lo hcut hm
    exact ⟨⟨by omega, by omega⟩, hid', hlast, by omega⟩
  have hpairs : (pre.reverse ++ ([overlap] ++ rest)).Pairwise _ := h.pairwise
  have hcross := (pairwise_append.mp h.pairwise).2.2
  refine ⟨fun l hl => ?_, ?_, h.mem, h.left, fun c hc hcid => ?_⟩
  · rcases mem_append.mp hl with hl | hl
    · exact h.wf l (mem_append_left _ hl)
    · rcases mem_append.mp hl with hl | hl
      · exact (htail l hl).1
      · exact h.wf l (mem_append_right _ (mem_cons_of_mem _ hl))
  · refine pairwise_replace hpairs (tailPart_pairwise _) (fun m hm a ha hid' => ?_)
      fun m hm c hc hid' => ?_
    · obtain ⟨-, hmid, -, hle⟩ := htail m hm
      rcases hcross a ha overlap (mem_cons_self ..) (hid'.trans hmid) with ⟨hne, hlt⟩ | ⟨ha, hlt⟩
      · exact Or.inl ⟨hne, by omega⟩
      · exact Or.inr ⟨ha, by omega⟩
    · obtain ⟨-, hmid, hlast, -⟩ := htail m hm
      obtain ⟨hne, hlt⟩ := h.after hid hc (hid'.symm.trans (hmid.trans hid))
      exact Or.inl ⟨by omega, by omega⟩
  · rcases mem_append.mp hc with hc | hc
    · have := (htail c hc).2.2.2
      omega
    · exact h.right c (mem_cons_of_mem _ hc) hcid

/-- The rest of the loop once the new lock is in the list. -/
theorem setLoop_linked (hlock : lock.Wf) {pre rest : List Lockf} (h : Linked lock pre rest)
    (hsafe : SetSafe lock rest) (cnt : Lockcnt) :
    ∃ locks' cnt', lfSetLoop lock pre rest false cnt = some (locks', cnt') ∧ ListOk locks' ∧
      Edit lock (pre.reverse ++ rest) locks' ∧ lock ∈ locks' := by
  induction hlen : rest.length using Nat.strongRecOn generalizing pre rest cnt with
  | ind n ih =>
    have hself := findoverlap_self hlock pre rest
    rw [lfSetLoop]
    split
    · rename_i hpanic
      refine absurd hpanic (findoverlap_ne_panic hlock fun l hl => ?_)
      exact h.wf l (mem_append_right _ hl)
    · rename_i pre' rest' hscan
      rw [hscan] at hself
      obtain ⟨skipped, rfl, rfl, hpassed, hstop⟩ := hself
      have hmoved := h.move hpassed
      have hbehind : ∀ c ∈ rest', c.lfId = lock.lfId → Before lock c := by
        cases rest' with
        | nil => exact fun c hc => absurd hc not_mem_nil
        | cons lf tail =>
          obtain ⟨hid, hb⟩ := hstop lf tail rfl
          have hlf := hmoved.wf lf (mem_append_right _ (mem_cons_self ..))
          intro c hc hcid
          rcases mem_cons.mp hc with rfl | hc
          · exact hb
          · exact hb.trans hlf (hmoved.after hid hc hcid)
      have hok := hmoved.listOk hbehind
      refine ⟨_, _, rfl, hok, ?_, mem_append_left _ (mem_reverse.mpr hmoved.mem)⟩
      rw [reverse_append, reverse_reverse, append_assoc]
      exact Edit.refl lock _
    · rename_i c pre' overlap rest' hscan
      have hshort := lfFindoverlap_length hscan
      rw [hscan] at hself
      obtain ⟨skipped, rfl, rfl, hpassed, hid, hover, hcase⟩ := hself
      have hmoved := h.move hpassed
      have hlo := hmoved.right overlap (mem_cons_self ..) hid
      have hov := hmoved.wf overlap (mem_append_right _ (mem_cons_self ..))
      have hmem : overlap ∈ skipped ++ overlap :: rest' :=
        mem_append_right _ (mem_cons_self ..)
      -- a lock to the end of the file that starts behind the request is not cut
      have hcut : CutOk lock overlap := hsafe.cutOk hmem hid fun hcontains => by
        have := hcontains.1
        omega
      have hlinked := hmoved.cut hlock hid hover hcut
      have hedit := edit_parts hov hid hover hcut [] (fun x hx => absurd hx not_mem_nil)
        (skipped.reverse ++ pre).reverse rest'
      rw [headPart_of_le (Int.le_of_lt hlo)] at hedit
      have hlist : (skipped.reverse ++ pre).reverse ++ ([overlap] ++ rest')
          = pre.reverse ++ (skipped ++ overlap :: rest') := by
        rw [reverse_append, reverse_reverse, append_assoc, singleton_append]
      rw [hlist] at hedit
      cases c with
      | equal =>
        obtain ⟨heq, -⟩ := hcase
        omega
      | overlapContains =>
        obtain ⟨hle, -⟩ := hcase
        omega
      | startsBefore =>
        obtain ⟨hlt, -⟩ := hcase
        omega
      | lockContains =>
        obtain ⟨hle, hhigh⟩ := hcase
        have htail : tailPart lock overlap = [] := tailPart_of_not (by
          rintro ⟨hne, hexc⟩
          omega)
        rw [htail] at hlinked hedit
        obtain ⟨locks', cnt', hrun, hok, hedit', hin⟩ := ih rest'.length (hlen ▸ hshort) hlinked
          (fun hmax x hx => hsafe hmax x (mem_append_right _ (mem_cons_of_mem _ hx)))
          (lfFree cnt overlap) rfl
        exact ⟨locks', cnt', hrun, hok, hedit.trans hedit', hin⟩
      | endsAfter =>
        obtain ⟨hlt, hne, hhigh⟩ := hcase
        have hbehind : ∀ c ∈ tailPart lock overlap ++ rest', c.lfId = lock.lfId →
            Before lock c := by
          intro c hc hcid
          rcases mem_append.mp hc with hc | hc
          · obtain ⟨-, -, hlo', -⟩ := tailPart_lo hcut hc
            exact ⟨hne, by omega⟩
          · obtain ⟨hne', hlt'⟩ := hmoved.after hid hc hcid
            exact ⟨hne, by omega⟩
        have hok := hlinked.listOk hbehind
        have hin := mem_append_left (tailPart lock overlap ++ rest') (mem_reverse.mpr hmoved.mem)
        rw [tailPart, if_pos ⟨hne, hhigh⟩] at hok hedit hin
        exact ⟨_, _, rfl, hok, hedit, hin⟩

theorem Around.behind {overlap c : Lockf} {pre rest : List Lockf}
    (h : Around lock overlap pre rest) (hover : Overlaps overlap lock) (hc : c ∈ rest)
    (hid : c.lfId = lock.lfId) : lock.lo < c.lo := by
  obtain ⟨hne, hlt⟩ := h.after hc hid
  have hnot := hover.1
  simp only [Before] at hnot
  omega

/-- The new lock takes the place of an overlap, next to the part before it. -/
theorem Around.linked {overlap : Lockf} {pre rest : List Lockf}
    (h : Around lock overlap pre.reverse rest) (hlock : lock.Wf) (hover : Overlaps overlap lock) :
    Linked lock (lock :: ((headPart lock overlap).reverse ++ pre)) rest := by
  have hlist : (lock :: ((headPart lock overlap).reverse ++ pre)).reverse ++ rest
      = pre.reverse ++ ((headPart lock overlap ++ [lock]) ++ rest) := by
    simp only [reverse_cons, reverse_append, reverse_reverse, append_assoc]
  have hright : ∀ c ∈ rest, c.lfId = lock.lfId → lock.lo < c.lo :=
    fun c hc hid => h.behind hover hc hid
  have hleft : ∀ a ∈ lock :: ((headPart lock overlap).reverse ++ pre), a.lfId = lock.lfId →
      a = lock ∨ Before a lock := by
    intro a ha hid
    rcases mem_cons.mp ha with ha | ha
    · exact Or.inl ha
    · rcases mem_append.mp ha with ha | ha
      · exact Or.inr (h.head_piece hover (mem_reverse.mp ha)).2
      · exact Or.inr (h.passed a (mem_reverse.mpr ha) hid)
  refine ⟨?_, ?_, mem_cons_self .., hleft, hright⟩
  · rw [hlist]
    intro l hl
    rcases mem_append.mp hl with hl | hl
    · exact h.ok.wf l (mem_append_left _ hl)
    · rcases mem_append.mp hl with hl | hl
      · rcases mem_append.mp hl with hl | hl
        · exact (h.head_piece hover hl).1.wf
        · rw [mem_singleton.mp hl]
          exact hlock
      · exact h.ok.wf l (mem_append_right _ (mem_append_right _ hl))
  · rw [hlist]
    -- order, but for the new lock against what it has not eaten yet
    have hpairs := h.ok.ordered.imp (S := fun a c => a.lfId = c.lfId →
      Before a c ∨ (a = lock ∧ lock.lo < c.lo)) fun hb hid => Or.inl (hb hid)
    refine pairwise_replace hpairs ?_ (fun m hm a ha hid => ?_) fun m hm c hc hid => ?_
    · rw [pairwise_append]
      refine ⟨headPart_pairwise _, pairwise_singleton .., fun a ha c hc _ => Or.inl ?_⟩
      rw [mem_singleton.mp hc]
      exact (h.head_piece hover ha).2
    · rcases mem_append.mp hm with hm | hm
      · have hpiece := (h.head_piece hover hm).1
        obtain ⟨⟨hne, hlt⟩, -, hlt'⟩ := h.before ha (hid.trans hpiece.id)
        have := hpiece.low
        exact Or.inl ⟨hne, by omega⟩
      · rw [mem_singleton.mp hm] at hid ⊢
        exact Or.inl (h.before ha hid).1
    · rcases mem_append.mp hm with hm | hm
      · obtain ⟨hpiece, hne, hlt⟩ := h.head_piece hover hm
        have := hright c hc (hid.symm.trans hpiece.id)
        exact Or.inl ⟨hne, by omega⟩
      · rw [mem_singleton.mp hm] at hid ⊢
        exact Or.inr ⟨rfl, hright c hc hid.symm⟩

theorem held_of_mem {l : List Lockf} (hmem : lock ∈ l) (b : Nat) (hb : lock.Covers b) :
    Holds l lock.lfId b lock.lfType :=
  ⟨lock, hmem, rfl, hb, rfl⟩

theorem setSpec_between {overlap : Lockf} {pre rest : List Lockf}
    (h : Around lock overlap pre rest) (hlock : lock.Wf) (hover : Overlaps overlap lock)
    (hcut : CutOk lock overlap) (hend : EndsNoSooner lock overlap) :
    SetSpec lock (pre ++ ([overlap] ++ rest))
      (pre ++ ((headPart lock overlap ++ ([lock] ++ tailPart lock overlap)) ++ rest)) := by
  refine ⟨h.set_between hlock hover hcut hend, ?_, held_of_mem ?_⟩
  · exact edit_parts h.overlap_wf h.id hover hcut [lock] (fun x hx => mem_singleton.mp hx) pre rest
  · exact mem_append_right _ (mem_append_left _ (mem_append_right _
      (mem_append_left _ (mem_singleton_self lock))))

theorem setSpec_insert {pre rest : List Lockf} (hok : ListOk (pre ++ rest)) (hlock : lock.Wf)
    (hpre : Passed lock pre) (hrest : ∀ c ∈ rest, c.lfId = lock.lfId → Before lock c) :
    SetSpec lock (pre ++ rest) (pre ++ lock :: rest) := by
  have hmem : lock ∈ pre ++ lock :: rest := mem_append_right _ (mem_cons_self ..)
  refine ⟨⟨fun l hl => ?_, ?_⟩, ?_, held_of_mem hmem⟩
  · rcases mem_append.mp hl with hl | hl
    · exact hok.wf l (mem_append_left _ hl)
    · rcases mem_cons.mp hl with rfl | hl
      · exact hlock
      · exact hok.wf l (mem_append_right _ hl)
  · -- nothing is taken out
    have hord : (pre ++ ([] ++ rest)).Pairwise _ := hok.ordered
    refine pairwise_replace hord (pairwise_singleton _ lock) (fun m hm a ha hid => ?_)
      fun m hm c hc hid => ?_
    · rw [mem_singleton.mp hm] at hid ⊢
      exact hpre a ha hid
    · rw [mem_singleton.mp hm] at hid ⊢
      exact hrest c hc hid.symm
  · have hedit : Edit lock (pre ++ ([] ++ rest)) (pre ++ ([lock] ++ rest)) := by
      apply Edit.replace
      · exact fun l hl => absurd hl not_mem_nil
      · exact fun l hl => by rw [mem_singleton.mp hl]
      · intro b t hb
        rw [holds_cons]
        tauto
    exact hedit

theorem setSpec_equal {overlap : Lockf} {pre rest : List Lockf}
    (h : Around lock overlap pre rest) (hcase : OvCase.equal.Is overlap lock) :
    SetSpec lock (pre ++ ([overlap] ++ rest))
      (pre ++ ([{ overlap with lfType := lock.lfType }] ++ rest)) := by
  obtain ⟨hlo, hlast⟩ := hcase
  -- both cover the same bytes, only the type changes
  have hcov : ∀ b, overlap.Covers b ↔ lock.Covers b := by
    intro b
    rw [Lockf.Covers, Lockf.Covers, hlo, hlast]
  refine ⟨h.replace (fun m hm => ?_) (pairwise_singleton ..), ?_, fun b hb => ?_⟩
  · rw [mem_singleton.mp hm]
    exact ⟨h.id, ⟨h.overlap_wf.nonneg, h.overlap_wf.range⟩, Or.inr (Int.le_refl _),
      fun hne => ⟨hne, Int.le_refl _⟩⟩
  · apply Edit.replace
    · exact fun l hl => by rw [mem_singleton.mp hl]; exact h.id
    · exact fun l hl => by rw [mem_singleton.mp hl]; exact h.id
    · intro b t hb
      have hnot : ¬ overlap.Covers b := fun hc => hb ((hcov b).mp hc)
      have hnot' : ¬ Lockf.Covers { overlap with lfType := lock.lfType } b := hnot
      rw [holds_cons, holds_cons]
      tauto
  · exact ⟨_, mem_append_right _ (mem_append_left _ (mem_singleton_self _)), h.id,
      (hcov b).mpr hb, rfl⟩

theorem setSpec_same {overlap : Lockf} {pre rest : List Lockf}
    (h : Around lock overlap pre rest) (hcase : OvCase.overlapContains.Is overlap lock)
    (htype : overlap.lfType = lock.lfType) :
    SetSpec lock (pre ++ ([overlap] ++ rest)) (pre ++ ([overlap] ++ rest)) := by
  obtain ⟨hle, hhigh, -⟩ := hcase
  refine ⟨h.ok, Edit.refl lock _, fun b hb => ?_⟩
  refine ⟨overlap, mem_append_right _ (mem_append_left _ (mem_singleton_self _)), h.id, ?_, htype⟩
  obtain ⟨hlo, hhi⟩ := hb
  exact ⟨by omega, by omega⟩

/-- `lf_setlock` sets the request once nothing blocks it. -/
theorem setLoop_spec (hlock : lock.Wf) {locks : List Lockf} (hok : ListOk locks)
    (hsafe : SetSafe lock locks) (cnt : Lockcnt) :
    ∃ locks' cnt', lfSetLoop lock [] locks true cnt = some (locks', cnt') ∧
      SetSpec lock locks locks' := by
  have hok' : ListOk (([] : List Lockf).reverse ++ locks) := hok
  -- the first overlap decides where the lock goes
  have hself := findoverlap_self hlock [] locks
  rw [lfSetLoop]
  split
  · rename_i hpanic
    exact absurd hpanic (findoverlap_ne_panic hlock hok.wf)
  · rename_i pre rest hscan
    rw [hscan] at hself
    obtain ⟨hlist, hpassed, hbehind⟩ := behind_of_none hok' (passed_nil lock) hself
    have hlist' : locks = pre.reverse ++ rest := hlist.symm
    rw [hlist'] at hok ⊢
    refine ⟨_, _, rfl, setSpec_insert hok hlock (fun l hl => ?_) hbehind⟩
    exact hpassed l (mem_reverse.mp hl)
  · rename_i c pre overlap rest hscan
    rw [hscan] at hself
    obtain ⟨hlist, haround, hover, hcase, hmem, hsub⟩ :=
      around_of_hit hok' (passed_nil lock) hself
    have hlist' : locks = pre.reverse ++ ([overlap] ++ rest) := hlist
    -- the new lock is linked and the walk goes on behind it
    have hgoon : tailPart lock overlap = [] → ∀ cnt, ∃ locks' cnt',
        lfSetLoop lock (lock :: ((headPart lock overlap).reverse ++ pre)) rest false cnt
          = some (locks', cnt') ∧ SetSpec lock locks locks' := by
      intro htail cnt
      have hcut : CutOk lock overlap := by
        intro hexc
        rw [tailPart, if_pos hexc] at htail
        cases htail
      have hedit := edit_parts haround.overlap_wf haround.id hover hcut [lock]
        (fun x hx => mem_singleton.mp hx) pre.reverse rest
      obtain ⟨locks', cnt', hrun, hok'', hedit', hin⟩ := setLoop_linked hlock
        (haround.linked hlock hover) (fun hmax x hx => hsafe hmax x (hsub x hx)) cnt
      refine ⟨locks', cnt', hrun, hok'', ?_, held_of_mem hin⟩
      rw [← hlist', htail, append_nil] at hedit
      refine hedit.trans ?_
      simpa only [reverse_cons, reverse_append, reverse_reverse, append_assoc] using hedit'
    -- the switch of lf_setlock
    cases c with
    | equal =>
      refine ⟨_, _, rfl, ?_⟩
      rw [hlist']
      exact setSpec_equal haround hcase
    | overlapContains =>
      obtain ⟨hle, hhigh, hnot⟩ := id hcase
      have hend : EndsNoSooner lock overlap := fun hne => ⟨by omega, by omega⟩
      dsimp only
      split
      · rename_i htype
        refine ⟨_, _, rfl, ?_⟩
        rw [hlist']
        exact setSpec_same haround hcase (beq_iff_eq.mp htype)
      · rename_i htype
        have hcut := hsafe.cutOk hmem haround.id fun h => htype (beq_iff_eq.mpr h.2)
        have hspec := setSpec_between haround hlock hover hcut hend
        rw [← hlist'] at hspec
        split
        · rename_i hstart
          rw [beq_iff_eq, ← Int64.toInt_inj] at hstart
          have hexc : Exceeds lock overlap := by
            simp only [Exceeds, Lockf.lo, Lockf.last] at *
            omega
          rw [headPart_of_le (Int.le_of_eq hstart.symm), tailPart, if_pos hexc] at hspec
          exact ⟨_, _, rfl, hspec⟩
        · rename_i hstart
          obtain ⟨first, last, cnt', hsplit, hhead, htail⟩ :=
            lfSplit_parts hcase (by simpa using hstart) cnt
          rw [hhead, htail] at hspec
          rw [hsplit]
          exact ⟨_, _, rfl, hspec⟩
    | lockContains =>
      obtain ⟨hle, hhigh⟩ := hcase
      have htail : tailPart lock overlap = [] := tailPart_of_not (by rintro ⟨hne, hexc⟩; omega)
      have hgo := hgoon htail (lfFree cnt overlap)
      rw [headPart_of_le hle] at hgo
      exact hgo
    | startsBefore =>
      obtain ⟨hlt, hne, hle, hhigh⟩ := hcase
      have htail : tailPart lock overlap = [] := tailPart_of_not (by rintro ⟨hne, hexc⟩; omega)
      have hgo := hgoon htail cnt
      rw [headPart, if_pos hlt] at hgo
      exact hgo
    | endsAfter =>
      obtain ⟨hlt, hne, hhigh⟩ := hcase
      have hcut := hsafe.cutOk hmem haround.id fun h => by
        have := h.1
        omega
      have hspec := setSpec_between haround hlock hover hcut fun hne' => ⟨hne, by omega⟩
      rw [← hlist', headPart_of_le (Int.le_of_lt hlt), tailPart, if_pos ⟨hne, hhigh⟩] at hspec
      exact ⟨_, _, rfl, hspec⟩

end

end OpenBsd.Kern
