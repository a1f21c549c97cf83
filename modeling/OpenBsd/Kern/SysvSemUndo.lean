/-
  OpenBsd.Kern.SysvSemUndo

  The adjustments of `semop` and their rollback.

  An operation on a semaphore whose number fits into `un_num` is undone exactly; any other
  one leaves two entries behind that no number finds.  A structure that was given back to
  the pool is never filled again by the same call, so that it does not lead to an error.
-/

import OpenBsd.Kern.SysvSemPass
import Mathlib.Data.List.TakeWhile

namespace OpenBsd.Kern

open List

variable {u : Undo} {semnum : Nat} {adjval : Int} {ent' now ent₀ : List Undo} {back : Bool}
  {suptr : Suptr}

/-! ## Entries -/

/-- No entry for the semaphore. -/
def NoneFor (semid semnum : Nat) (ent : List Undo) : Prop :=
  ∀ u ∈ ent, u.isFor semid semnum = false

/-- The entries of an undo structure: one for each semaphore, none without an
    adjustment. -/
structure EntOk (ent : List Undo) : Prop where
  unique : ent.Pairwise fun u v => ∀ semid semnum, u.isFor semid semnum = true →
    v.isFor semid semnum = false
  nonzero : ∀ u ∈ ent, u.unAdjval ≠ 0
  bound : ent.length ≤ semume

theorem EntOk.nil : EntOk [] :=
  ⟨List.Pairwise.nil, fun _ hu => absurd hu not_mem_nil, Nat.zero_le _⟩

theorem fillFromEnd_perm (post : List Undo) : (fillFromEnd post).Perm post := by
  unfold fillFromEnd
  cases h : post.getLast? with
  | none => rw [getLast?_eq_none_iff.1 h]
  | some last =>
    obtain ⟨init, rfl⟩ := getLast?_eq_some_iff.1 h
    rw [dropLast_concat]
    exact (perm_append_singleton last init).symm

/-- The entry that an adjustment changes. -/
theorem adjustEnt_found {ent rest : List Undo} {semid : Nat} (hperm : ent.Perm (u :: rest))
    (hu : u.isFor semid semnum = true) (hrest : NoneFor semid semnum rest) (hadj : adjval ≠ 0) :
    if u.unAdjval + BitVec.ofInt 16 adjval ≠ 0 then
      ∃ ent', adjustEnt ent semid semnum adjval = .kept ent' ∧
        ent'.Perm ({ u with unAdjval := u.unAdjval + BitVec.ofInt 16 adjval } :: rest)
    else ∃ ent', adjustEnt ent semid semnum adjval = .removed ent' ∧ ent'.Perm rest := by
  have hsplit := takeWhile_append_dropWhile (p := (! ·.isFor semid semnum)) (l := ent)
  cases hdrop : ent.dropWhile (! ·.isFor semid semnum) with
  | nil =>
    have hmem : u ∈ ent := hperm.mem_iff.2 mem_cons_self
    have hno := dropWhile_eq_nil_iff.1 hdrop u hmem
    simp [hu] at hno
  | cons v post =>
    rw [hdrop] at hsplit
    have hv : v.isFor semid semnum = true := by
      have hhead := head_dropWhile_not (p := (! ·.isFor semid semnum)) (l := ent)
        (by rw [hdrop]; exact cons_ne_nil _ _)
      simpa [hdrop] using hhead
    obtain rfl : v = u := by
      have hmem : v ∈ u :: rest := by
        rw [← hperm.mem_iff, ← hsplit]
        simp
      rcases mem_cons.1 hmem with rfl | hin
      · rfl
      · rw [hrest v hin] at hv
        cases hv
    have hothers : (ent.takeWhile (! ·.isFor semid semnum) ++ post).Perm rest := by
      refine (perm_cons v).1 ?_
      refine perm_middle.symm.trans ?_
      rw [hsplit]
      exact hperm
    simp only [adjustEnt, hdrop, if_neg hadj]
    split
    · refine ⟨_, rfl, perm_middle.trans ?_⟩
      exact hothers.cons _
    · refine ⟨_, rfl, ?_⟩
      exact ((fillFromEnd_perm post).append_left _).trans hothers

theorem adjustEnt_absent {ent : List Undo} {semid : Nat} (hnone : NoneFor semid semnum ent)
    (hadj : adjval ≠ 0) :
    adjustEnt ent semid semnum adjval =
      if ent.length = semume then .full
      else .kept (ent ++ [⟨BitVec.ofInt 16 adjval, BitVec.ofNat 16 semnum, semid⟩]) := by
  have hdrop : ent.dropWhile (! ·.isFor semid semnum) = [] := by
    rw [dropWhile_eq_nil_iff]
    intro u hu
    simp [hnone u hu]
  simp only [adjustEnt, hdrop, if_neg hadj]

theorem EntOk.perm {ent : List Undo} (h : EntOk ent) (hperm : ent.Perm ent') : EntOk ent' := by
  refine ⟨?_, ?_, ?_⟩
  · refine h.unique.perm hperm ?_
    intro u v huv semid semnum hv
    by_contra hu
    rw [Bool.not_eq_false] at hu
    rw [huv semid semnum hu] at hv
    cases hv
  · intro u hu
    exact h.nonzero u (hperm.mem_iff.2 hu)
  · rw [← hperm.length_eq]
    exact h.bound

theorem EntOk.cases {ent : List Undo} (h : EntOk ent) (semid semnum : Nat) :
    NoneFor semid semnum ent ∨ ∃ u rest, ent.Perm (u :: rest) ∧ u.isFor semid semnum = true ∧
      NoneFor semid semnum rest := by
  by_cases hnone : NoneFor semid semnum ent
  · exact .inl hnone
  · simp only [NoneFor, not_forall, Bool.not_eq_false] at hnone
    obtain ⟨u, hu, hfor⟩ := hnone
    obtain ⟨rest, hperm⟩ : ∃ rest, ent.Perm (u :: rest) :=
      ⟨_, perm_cons_erase hu⟩
    refine .inr ⟨u, rest, hperm, hfor, ?_⟩
    have hok := h.perm hperm
    intro v hv
    exact (pairwise_cons.1 hok.unique).1 v hv semid semnum hfor

/-! ## Adjustments of operations -/

/-- The number does not fit into `un_num`. -/
def Sembuf.high (op : Sembuf) : Bool := 2 ^ 15 ≤ op.semNum.toNat

theorem isFor_low {op : Sembuf} (hlow : op.high = false) (semid : Nat) (u : Undo) :
    u.isFor semid op.semNum.toNat = true ↔ u.unId = semid ∧ u.unNum = op.semNum := by
  have hlt : op.semNum.toNat < 2 ^ 15 := by simpa [Sembuf.high] using hlow
  have hint : op.semNum.toInt = op.semNum.toNat := BitVec.toInt_eq_toNat_of_lt (by omega)
  rw [Undo.isFor, Bool.and_eq_true, decide_eq_true_iff, decide_eq_true_iff, ← hint,
    BitVec.toInt_inj]

theorem isFor_high {op : Sembuf} (hhigh : op.high = true) (semid : Nat) (u : Undo) :
    u.isFor semid op.semNum.toNat = false := by
  have hle : 2 ^ 15 ≤ op.semNum.toNat := by simpa [Sembuf.high] using hhigh
  have hlt := BitVec.toInt_lt (x := u.unNum)
  rw [Undo.isFor, Bool.and_eq_false_iff, decide_eq_false_iff_not, decide_eq_false_iff_not]
  refine .inr ?_
  intro e
  rw [e] at hlt
  omega

/-- The entry that an operation makes. -/
def Sembuf.entry (op : Sembuf) (semid : Nat) (adj : BitVec 16) : Undo := ⟨adj, op.semNum, semid⟩

theorem isFor_entry {op : Sembuf} (hlow : op.high = false) (semid : Nat) (adj : BitVec 16) :
    (op.entry semid adj).isFor semid op.semNum.toNat = true := (isFor_low hlow _ _).2 ⟨rfl, rfl⟩

/-- An entry that no semaphore number finds. -/
def Undo.lost (u : Undo) : Prop := u.unNum.toInt < 0

theorem Undo.lost.isFor (h : u.lost) (semid semnum : Nat) : u.isFor semid semnum = false := by
  rw [Undo.lost] at h
  rw [Undo.isFor, Bool.and_eq_false_iff, decide_eq_false_iff_not, decide_eq_false_iff_not]
  exact .inr (by omega)

theorem lost_entry {op : Sembuf} (hhigh : op.high = true) (semid : Nat) (adj : BitVec 16) :
    (op.entry semid adj).lost := by
  have hle : 2 ^ 15 ≤ op.semNum.toNat := by simpa [Sembuf.high] using hhigh
  have hlt := op.semNum.isLt
  change op.semNum.toInt < 0
  rw [BitVec.toInt_eq_toNat_cond, if_neg (by omega)]
  omega

/-- The entries after an adjustment that succeeds. -/
def Adjusted.ent : Adjusted → Option (List Undo)
  | .kept ent => some ent
  | .removed ent => some ent
  | .full => none

/-- `semundo_adjust` on the entries, for an operation that is done or taken back. -/
def adjustFor (ent : List Undo) (semid : Nat) (op : Sembuf) (back : Bool) : Adjusted :=
  adjustEnt ent semid op.semNum.toNat (if back then op.semOp.toInt else -op.semOp.toInt)

/-- What an operation adds to its entry. -/
def Sembuf.adj (op : Sembuf) (back : Bool) : BitVec 16 := if back then op.semOp else -op.semOp

theorem adj_ne_zero {op : Sembuf} (hundo : op.undoes = true) (back : Bool) : op.adj back ≠ 0 := by
  have hne : op.semOp ≠ 0 := by
    rw [Sembuf.undoes, Bool.and_eq_true, decide_eq_true_iff, decide_eq_true_iff] at hundo
    exact hundo.2
  cases back with
  | true => exact hne
  | false => exact neg_ne_zero.2 hne

theorem ofInt_adj (op : Sembuf) (back : Bool) :
    BitVec.ofInt 16 (if back then op.semOp.toInt else -op.semOp.toInt) = op.adj back := by
  cases back with
  | true => exact BitVec.ofInt_toInt
  | false => simp [Sembuf.adj, BitVec.ofInt_neg, BitVec.ofInt_toInt]

theorem adjustFor_found {ent rest : List Undo} {semid : Nat} {op : Sembuf}
    (hundo : op.undoes = true) (back : Bool) (hperm : ent.Perm (u :: rest))
    (hu : u.isFor semid op.semNum.toNat = true) (hrest : NoneFor semid op.semNum.toNat rest) :
    if u.unAdjval + op.adj back ≠ 0 then
      ∃ ent', adjustFor ent semid op back = .kept ent' ∧
        ent'.Perm ({ u with unAdjval := u.unAdjval + op.adj back } :: rest)
    else ∃ ent', adjustFor ent semid op back = .removed ent' ∧ ent'.Perm rest := by
  have hadj : (if back then op.semOp.toInt else -op.semOp.toInt) ≠ 0 := by
    intro e
    refine adj_ne_zero hundo back ?_
    rw [← ofInt_adj, e]
    rfl
  rw [← ofInt_adj]
  exact adjustEnt_found hperm hu hrest hadj

theorem adjustFor_absent {ent : List Undo} {semid : Nat} {op : Sembuf} (hundo : op.undoes = true)
    (back : Bool) (hnone : NoneFor semid op.semNum.toNat ent) :
    adjustFor ent semid op back =
      if ent.length = semume then .full else .kept (ent ++ [op.entry semid (op.adj back)]) := by
  have hadj : (if back then op.semOp.toInt else -op.semOp.toInt) ≠ 0 := by
    intro e
    refine adj_ne_zero hundo back ?_
    rw [← ofInt_adj, e]
    rfl
  rw [adjustFor, adjustEnt_absent hnone hadj, ofInt_adj, Sembuf.entry, BitVec.ofNat_toNat,
    BitVec.setWidth_eq]

/-- What an adjustment by `d` does to the entries, in any order: it changes one, deletes
    one or makes one. -/
inductive EntMoved (semid : Nat) (op : Sembuf) (d : BitVec 16) (ent ent' : List Undo) : Prop where
  | change (u : Undo) (rest : List Undo) (hu : u.isFor semid op.semNum.toNat = true)
      (hrest : NoneFor semid op.semNum.toNat rest) (hne : u.unAdjval + d ≠ 0)
      (hent : ent.Perm (u :: rest)) (hent' : ent'.Perm ({ u with unAdjval := u.unAdjval + d } :: rest))
  | delete (u : Undo) (rest : List Undo) (hu : u.isFor semid op.semNum.toNat = true)
      (hrest : NoneFor semid op.semNum.toNat rest) (hzero : u.unAdjval + d = 0)
      (hent : ent.Perm (u :: rest)) (hent' : ent'.Perm rest)
  | make (hnone : NoneFor semid op.semNum.toNat ent) (hroom : ent.length ≠ semume)
      (hent' : ent'.Perm (op.entry semid d :: ent))

section

variable {ent : List Undo} {semid : Nat} {op : Sembuf}

theorem adjustFor_moved (hok : EntOk ent) (hundo : op.undoes = true)
    (h : (adjustFor ent semid op back).ent = some ent') :
    EntMoved semid op (op.adj back) ent ent' := by
  rcases hok.cases semid op.semNum.toNat with hnone | ⟨u, rest, hperm, hu, hrest⟩
  · rw [adjustFor_absent hundo back hnone] at h
    split at h
    · cases h
    · rename_i hroom
      cases h
      exact .make hnone hroom (perm_append_singleton _ _)
  · have hfound := adjustFor_found hundo back hperm hu hrest
    split at hfound
    · rename_i hne
      obtain ⟨ent₁, h₁, hperm₁⟩ := hfound
      rw [h₁] at h
      cases h
      exact .change u rest hu hrest hne hperm hperm₁
    · rename_i hzero
      obtain ⟨ent₁, h₁, hperm₁⟩ := hfound
      rw [h₁] at h
      cases h
      exact .delete u rest hu hrest (not_not.1 hzero) hperm hperm₁

theorem adjustFor_full (hok : EntOk ent) (hundo : op.undoes = true)
    (h : (adjustFor ent semid op back).ent = none) :
    NoneFor semid op.semNum.toNat ent ∧ ent.length = semume := by
  rcases hok.cases semid op.semNum.toNat with hnone | ⟨u, rest, hperm, hu, hrest⟩
  · refine ⟨hnone, ?_⟩
    rw [adjustFor_absent hundo back hnone] at h
    split at h
    · assumption
    · cases h
  · have hfound := adjustFor_found hundo back hperm hu hrest
    split at hfound
    · obtain ⟨ent₁, h₁, -⟩ := hfound
      rw [h₁] at h
      cases h
    · obtain ⟨ent₁, h₁, -⟩ := hfound
      rw [h₁] at h
      cases h

theorem EntMoved.entOk {d : BitVec 16} (h : EntMoved semid op d ent ent') (hok : EntOk ent)
    (hd : d ≠ 0) : EntOk ent' := by
  cases h with
  | change u rest hu hrest hne hent hent' =>
    have hcons := hok.perm hent
    obtain ⟨hhead, htail⟩ := pairwise_cons.1 hcons.unique
    have hnew : EntOk ({ u with unAdjval := u.unAdjval + d } :: rest) := by
      refine ⟨pairwise_cons.2 ⟨?_, htail⟩, ?_, hcons.bound⟩
      · intro v hv i n hfor
        exact hhead v hv i n hfor
      · intro v hv
        rcases mem_cons.1 hv with rfl | hv
        · exact hne
        · exact hcons.nonzero v (mem_cons_of_mem _ hv)
    exact hnew.perm hent'.symm
  | delete u rest hu hrest hzero hent hent' =>
    have hcons := hok.perm hent
    have hlen := hcons.bound
    rw [length_cons] at hlen
    refine EntOk.perm ⟨(pairwise_cons.1 hcons.unique).2, ?_, by omega⟩ hent'.symm
    intro v hv
    exact hcons.nonzero v (mem_cons_of_mem _ hv)
  | make hnone hroom hent' =>
    have hlen := hok.bound
    refine EntOk.perm ⟨pairwise_cons.2 ⟨?_, hok.unique⟩, ?_, ?_⟩ hent'.symm
    · intro v hv i n hfor
      have hv' := hnone v hv
      cases hhigh : op.high with
      | true =>
        rw [(lost_entry hhigh semid d).isFor] at hfor
        cases hfor
      | false =>
        -- the new entry is only for this semaphore
        have hself := isFor_entry hhigh semid d
        simp only [Undo.isFor, Bool.and_eq_true, decide_eq_true_eq] at hfor hself
        obtain rfl : i = semid := hfor.1.symm
        obtain rfl : n = op.semNum.toNat := by omega
        exact hv'
    · intro v hv
      rcases mem_cons.1 hv with rfl | hv
      · exact hd
      · exact hok.nonzero v hv
    · rw [length_cons]
      omega

theorem EntMoved.length {d : BitVec 16} (h : EntMoved semid op d ent ent') :
    ent'.length ≤ ent.length + 1 ∧ ent.length ≤ ent'.length + 1 := by
  cases h with
  | change u rest hu hrest hne hent hent' =>
    rw [hent.length_eq, hent'.length_eq, length_cons, length_cons]
    omega
  | delete u rest hu hrest hzero hent hent' =>
    rw [hent.length_eq, hent'.length_eq, length_cons]
    omega
  | make hnone hroom hent' =>
    rw [hent'.length_eq, length_cons]
    omega

end

variable {xs ys : List Undo}

theorem NoneFor.append {semid : Nat} (hx : NoneFor semid semnum xs)
    (hy : NoneFor semid semnum ys) : NoneFor semid semnum (xs ++ ys) := by
  intro u hu
  rcases mem_append.1 hu with hu | hu
  · exact hx u hu
  · exact hy u hu

theorem NoneFor.perm {semid : Nat} (hx : NoneFor semid semnum xs)
    (hperm : ys.Perm xs) : NoneFor semid semnum ys := by
  intro u hu
  exact hx u (hperm.mem_iff.1 hu)

/-- An operation that needs a free entry to be taken back: its number does not fit, or it
    deleted its entry. -/
def NeedsEntry (op : Sembuf) (ent ent' : List Undo) : Prop :=
  op.high = true ∨ ent'.length < ent.length

/-- An adjustment from `ent` to `ent'` is taken back in the entries `now`, which hold the
    entries `lost` besides: it fails when it needs an entry and none is free, and else
    only lost entries are left over. -/
def TakenBack (semid : Nat) (op : Sembuf) (ent ent' now lost : List Undo) : Prop :=
  ((adjustFor now semid op true).ent = none ↔ NeedsEntry op ent ent' ∧ now.length = semume) ∧
  ∀ now', (adjustFor now semid op true).ent = some now' →
    ∃ lost', now'.Perm (ent ++ lost') ∧ (∀ u ∈ lost', u.lost) ∧
      lost'.length = lost.length + if op.high then 2 else 0

theorem takenBack_absent {semid : Nat} {op : Sembuf} {ent lost : List Undo} (lost' : List Undo)
    (hundo : op.undoes = true) (hneeds : NeedsEntry op ent ent')
    (hnone : NoneFor semid op.semNum.toNat now)
    (hperm : (op.entry semid (op.adj true) :: now).Perm (ent ++ lost'))
    (hlost : ∀ u ∈ lost', u.lost) (hlen : lost'.length = lost.length + if op.high then 2 else 0) :
    TakenBack semid op ent ent' now lost := by
  rw [TakenBack, adjustFor_absent hundo true hnone]
  by_cases hfull : now.length = semume
  · rw [if_pos hfull]
    exact ⟨iff_of_true rfl ⟨hneeds, hfull⟩, fun _ e => nomatch e⟩
  · rw [if_neg hfull]
    refine ⟨iff_of_false (fun e => nomatch e) (fun e => hfull e.2), ?_⟩
    intro now' e
    simp only [Adjusted.ent, Option.some.injEq] at e
    subst e
    exact ⟨lost', (perm_append_singleton _ _).trans hperm, hlost, hlen⟩

theorem takenBack_found {semid : Nat} {op : Sembuf} {ent lost : List Undo}
    (hneeds : ¬ NeedsEntry op ent ent') {now' : List Undo}
    (hnow' : (adjustFor now semid op true).ent = some now') (hperm : now'.Perm (ent ++ lost))
    (hlost : ∀ u ∈ lost, u.lost) : TakenBack semid op ent ent' now lost := by
  rw [NeedsEntry, not_or, Bool.not_eq_true] at hneeds
  rw [TakenBack, hnow', hneeds.1]
  refine ⟨iff_of_false (fun e => nomatch e) ?_, ?_⟩
  · rintro ⟨hneed | hneed, -⟩
    · rw [hneeds.1] at hneed
      cases hneed
    · exact hneeds.2 hneed
  · intro now₁ e
    cases e
    exact ⟨lost, hperm, hlost, rfl⟩

theorem takenBack_high {ent lost : List Undo} {semid : Nat} {op : Sembuf} (hundo : op.undoes = true)
    (hhigh : op.high = true) (h : EntMoved semid op (op.adj false) ent ent')
    (hlost : ∀ u ∈ lost, u.lost) (hnow : now.Perm (ent' ++ lost)) :
    TakenBack semid op ent ent' now lost := by
  cases h with
  | change u rest hu =>
    rw [isFor_high hhigh] at hu
    cases hu
  | delete u rest hu =>
    rw [isFor_high hhigh] at hu
    cases hu
  | make hnone hroom hent' =>
    have hall : now.Perm (op.entry semid (op.adj false) :: (ent ++ lost)) :=
      hnow.trans (hent'.append_right lost)
    refine takenBack_absent (op.entry semid (op.adj true) :: op.entry semid (op.adj false) :: lost)
      hundo (.inl hhigh) (fun u _ => isFor_high hhigh semid u) ?_ ?_ ?_
    · refine (hall.cons _).trans ?_
      exact (perm_middle.symm.cons _).trans perm_middle.symm
    · intro u hu
      simp only [mem_cons] at hu
      rcases hu with rfl | rfl | hu
      · exact lost_entry hhigh _ _
      · exact lost_entry hhigh _ _
      · exact hlost u hu
    · rw [if_pos hhigh]
      rfl

theorem takenBack_low {ent lost : List Undo} {semid : Nat} {op : Sembuf} (hok : EntOk ent)
    (hundo : op.undoes = true) (hlow : op.high = false)
    (h : EntMoved semid op (op.adj false) ent ent') (hlost : ∀ u ∈ lost, u.lost)
    (hnow : now.Perm (ent' ++ lost)) : TakenBack semid op ent ent' now lost := by
  have hnolost : NoneFor semid op.semNum.toNat lost := fun u hu => (hlost u hu).isFor _ _
  have hinv : op.adj false + op.adj true = 0 := by simp [Sembuf.adj]
  cases h with
  | change u rest hu hrest hne hent hent' =>
    have hneeds : ¬ NeedsEntry op ent ent' := by
      rw [NeedsEntry, hlow, hent.length_eq, hent'.length_eq]
      simp
    have hback : u.unAdjval + op.adj false + op.adj true = u.unAdjval := by
      rw [add_assoc, hinv, add_zero]
    have hfound := adjustFor_found hundo true (hnow.trans (hent'.append_right lost)) hu
      (hrest.append hnolost)
    simp only [hback, if_pos (hok.nonzero u (hent.mem_iff.2 mem_cons_self))] at hfound
    obtain ⟨now₁, h₁, hperm⟩ := hfound
    refine takenBack_found hneeds (by rw [h₁]; rfl) ?_ hlost
    exact hperm.trans (hent.append_right lost).symm
  | delete u rest hu hrest hzero hent hent' =>
    have hneeds : NeedsEntry op ent ent' := by
      rw [NeedsEntry, hent.length_eq, hent'.length_eq]
      simp
    have hall : now.Perm (rest ++ lost) := hnow.trans (hent'.append_right lost)
    -- the new entry is the one that was deleted
    have hsame : op.entry semid (op.adj true) = u := by
      obtain ⟨hid, hnum⟩ := (isFor_low hlow semid u).1 hu
      have hadj : u.unAdjval = op.adj true :=
        (eq_neg_of_add_eq_zero_left hzero).trans (eq_neg_of_add_eq_zero_right hinv).symm
      rw [Sembuf.entry, ← hid, ← hnum, ← hadj]
    refine takenBack_absent lost hundo hneeds ((hrest.append hnolost).perm hall) ?_ hlost ?_
    · rw [hsame]
      exact (hall.cons u).trans (hent.append_right lost).symm
    · rw [hlow]
      rfl
  | make hnone hroom hent' =>
    have hneeds : ¬ NeedsEntry op ent ent' := by
      rw [NeedsEntry, hlow, hent'.length_eq]
      simp
    have hfound := adjustFor_found hundo true (hnow.trans (hent'.append_right lost))
      (isFor_entry hlow semid (op.adj false)) (hnone.append hnolost)
    have hgone : ¬ (op.entry semid (op.adj false)).unAdjval + op.adj true ≠ 0 := not_not.2 hinv
    rw [if_neg hgone] at hfound
    obtain ⟨now₁, h₁, hperm⟩ := hfound
    exact takenBack_found hneeds (by rw [h₁]; rfl) hperm hlost

/-! ## The entries of a process -/

section State

variable {π : Type} [DecidableEq π] {info : Seminfo} {s s' : SemState π} {pr : π} {semid : Nat}
  {op : Sembuf}

def HasUndo (s : SemState π) (pr : π) : Prop := s.semuList.any (·.unProc = pr) = true

/-- Only the entries of one process are changed. -/
structure Beside (pr : π) (s s' : SemState π) : Prop where
  sema : s'.sema = s.sema
  others : ∀ q ≠ pr, s'.undoOf q = s.undoOf q

theorem Beside.refl (pr : π) (s : SemState π) : Beside pr s s := ⟨rfl, fun _ _ => rfl⟩

theorem Beside.trans {s₁ s₂ s₃ : SemState π} (h : Beside pr s₁ s₂) (h' : Beside pr s₂ s₃) :
    Beside pr s₁ s₃ :=
  ⟨h'.sema.trans h.sema, fun q hq => (h'.others q hq).trans (h.others q hq)⟩

theorem undoOf_of_not_hasUndo (h : ¬ HasUndo s pr) : s.undoOf pr = [] := by
  have hnone : s.semuList.find? (·.unProc = pr) = none := by
    rw [find?_eq_none]
    intro u hu hpr
    exact h (any_eq_true.2 ⟨u, hu, hpr⟩)
  rw [SemState.undoOf, hnone]

theorem find?_setEnt (pr q : π) (ent : List Undo) (us : List (SemUndo π)) :
    (setEnt pr ent us).find? (·.unProc = q) =
      if q = pr then (us.find? (·.unProc = pr)).map fun u => { u with unEnt := ent }
      else us.find? (·.unProc = q) := by
  induction us with
  | nil => simp [setEnt]
  | cons u us ih =>
    by_cases hu : u.unProc = pr
    · by_cases hq : q = pr
      · simp [setEnt, hu, hq]
      · have hne : ¬ pr = q := fun e => hq e.symm
        simp [setEnt, hu, hq, hne]
    · by_cases huq : u.unProc = q
      · have hq : ¬ q = pr := fun e => hu (huq.trans e)
        simp [setEnt, huq, hq]
      · simp only [setEnt, if_neg hu, find?_cons, huq, decide_false, ih]
        simp [hu]

theorem any_setEnt (pr : π) (ent : List Undo) (us : List (SemUndo π)) :
    (setEnt pr ent us).any (·.unProc = pr) = us.any (·.unProc = pr) := by
  induction us with
  | nil => rfl
  | cons u us ih =>
    by_cases hu : u.unProc = pr
    · simp [setEnt, hu]
    · simp [setEnt, hu] at ih ⊢
      exact ih

theorem setEnt_spec (hhas : HasUndo s pr) (ent : List Undo) :
    let s' := { s with semuList := setEnt pr ent s.semuList }
    HasUndo s' pr ∧ s'.undoOf pr = ent ∧ Beside pr s s' := by
  refine ⟨(any_setEnt pr ent _).trans hhas, ?_, rfl, ?_⟩
  · obtain ⟨u, hu, hpr⟩ := any_eq_true.1 hhas
    have hsome : (s.semuList.find? (·.unProc = pr)).isSome = true :=
      find?_isSome.2 ⟨u, hu, hpr⟩
    obtain ⟨v, hv⟩ := Option.isSome_iff_exists.1 hsome
    rw [SemState.undoOf, find?_setEnt, if_pos rfl, hv]
    rfl
  · intro q hq
    rw [SemState.undoOf, find?_setEnt, if_neg hq]
    rfl

theorem adjustLive_ok {ent : List Undo} (hhas : HasUndo s pr)
    (hent : (adjustFor (s.undoOf pr) semid op back).ent = some ent) (hne : ent ≠ []) :
    ∃ s', adjustLive s pr semid op.semNum.toNat
        (if back then op.semOp.toInt else -op.semOp.toInt) = .ok s' .live ∧
      HasUndo s' pr ∧ s'.undoOf pr = ent ∧ Beside pr s s' := by
  rw [adjustFor] at hent
  refine ⟨{ s with semuList := setEnt pr ent s.semuList }, ?_, setEnt_spec hhas ent⟩
  rw [adjustLive]
  generalize adjustEnt (s.undoOf pr) semid op.semNum.toNat _ = r at hent
  cases r with
  | kept ent' =>
    cases hent
    rfl
  | removed ent' =>
    cases hent
    cases ent with
    | nil => exact absurd rfl hne
    | cons u us => rfl
  | full => cases hent

theorem adjustLive_full (hent : (adjustFor (s.undoOf pr) semid op back).ent = none) :
    adjustLive s pr semid op.semNum.toNat (if back then op.semOp.toInt else -op.semOp.toInt) =
      .error .einval s .live := by
  rw [adjustFor] at hent
  rw [adjustLive]
  generalize adjustEnt (s.undoOf pr) semid op.semNum.toNat _ = r at hent
  cases r with
  | kept ent' => cases hent
  | removed ent' => cases hent
  | full => rfl

/-! ## Rollback of adjustments -/

/-- The entries after the adjustments for the operations, of which the last one comes
    first; `none` when one of them fails. -/
@[simp] def entAfter (semid : Nat) (ent₀ : List Undo) : List Sembuf → Option (List Undo)
  | [] => some ent₀
  | op :: before =>
    (entAfter semid ent₀ before).bind fun ent =>
      if op.undoes then (adjustFor ent semid op false).ent else some ent

/-- The rollback needs an entry and none is free.  Each of the `k` operations with a
    number that does not fit has left two entries behind. -/
def RollbackStuck (semid : Nat) (ent₀ : List Undo) (k : Nat) : List Sembuf → Prop
  | [] => False
  | op :: before =>
    if op.undoes then
      (∃ ent ent', entAfter semid ent₀ before = some ent ∧
        (adjustFor ent semid op false).ent = some ent' ∧ NeedsEntry op ent ent' ∧
        ent'.length + 2 * k = semume) ∨
      RollbackStuck semid ent₀ (k + if op.high then 1 else 0) before
    else RollbackStuck semid ent₀ k before

/-- The adjustments for numbers that do not fit. -/
def highCount (ops : List Sembuf) : Nat := ops.countP fun op => op.undoes && op.high

variable {before : List Sembuf}

omit [DecidableEq π] in
theorem entAfter_ok {ent : List Undo} (hok : EntOk ent₀)
    (h : entAfter semid ent₀ before = some ent) :
    EntOk ent ∧ ent.length ≤ ent₀.length + undoCount before ∧
      ent₀.length ≤ ent.length + undoCount before := by
  induction before generalizing ent with
  | nil =>
    cases h
    exact ⟨hok, by omega, by omega⟩
  | cons op before ih =>
    rw [entAfter, Option.bind_eq_some_iff] at h
    obtain ⟨ent₁, h₁, h⟩ := h
    obtain ⟨hok₁, hle, hge⟩ := ih h₁
    by_cases hundo : op.undoes
    · rw [if_pos hundo] at h
      have hmoved := adjustFor_moved hok₁ hundo h
      have hlen := hmoved.length
      have hcount : undoCount (op :: before) = undoCount before + 1 := by
        simp [undoCount, hundo]
      exact ⟨hmoved.entOk hok₁ (adj_ne_zero hundo false), by omega, by omega⟩
    · rw [if_neg hundo] at h
      cases h
      have hcount : undoCount (op :: before) = undoCount before := by
        simp [undoCount, hundo]
      exact ⟨hok₁, by omega, by omega⟩

/-- The rollback of the adjustments either gets stuck, or leaves the entries of before and
    two lost ones for every number that does not fit. -/
theorem unrollUndos_spec (info : Seminfo) {ent lost : List Undo} {before : List Sembuf} {k : Nat}
    (hok : EntOk ent₀) (hent : entAfter semid ent₀ before = some ent)
    (hmany : undoCount before < ent.length) (hhas : HasUndo s pr) (hlost : ∀ u ∈ lost, u.lost)
    (hlen : lost.length = 2 * k) (hnow : (s.undoOf pr).Perm (ent ++ lost)) :
    (RollbackStuck semid ent₀ k before → unrollUndos info s pr .live semid before = .panic) ∧
    (¬ RollbackStuck semid ent₀ k before →
      ∃ s' lost', unrollUndos info s pr .live semid before = .ok s' ∧ Beside pr s s' ∧
        (s'.undoOf pr).Perm (ent₀ ++ lost') ∧ lost'.length = 2 * (k + highCount before)) := by
  induction before generalizing s ent lost k with
  | nil =>
    cases hent
    exact ⟨False.elim, fun _ => ⟨s, lost, rfl, .refl pr s, hnow, hlen⟩⟩
  | cons op before ih =>
    rw [entAfter, Option.bind_eq_some_iff] at hent
    obtain ⟨ent₁, hent₁, hent⟩ := hent
    by_cases hundo : op.undoes
    · rw [if_pos hundo] at hent
      have hcount : undoCount (op :: before) = undoCount before + 1 := by
        simp [undoCount, hundo]
      have hmoved := adjustFor_moved (entAfter_ok hok hent₁).1 hundo hent
      have hmany₁ : undoCount before < ent₁.length := by
        have := hmoved.length
        omega
      have hback : TakenBack semid op ent₁ ent (s.undoOf pr) lost := by
        cases hhigh : op.high with
        | true => exact takenBack_high hundo hhigh hmoved hlost hnow
        | false => exact takenBack_low (entAfter_ok hok hent₁).1 hundo hhigh hmoved hlost hnow
      have hnowlen : (s.undoOf pr).length = ent.length + 2 * k := by
        rw [hnow.length_eq, length_append, hlen]
      have hstuck : RollbackStuck semid ent₀ k (op :: before) ↔
          (NeedsEntry op ent₁ ent ∧ (s.undoOf pr).length = semume) ∨
            RollbackStuck semid ent₀ (k + if op.high then 1 else 0) before := by
        rw [RollbackStuck, if_pos hundo, hnowlen]
        refine or_congr_left ⟨?_, fun h => ⟨ent₁, ent, hent₁, hent, h⟩⟩
        rintro ⟨x, x', hx, hx', h⟩
        rw [hent₁] at hx
        cases hx
        rw [hent] at hx'
        cases hx'
        exact h
      rw [hstuck, ← hback.1]
      cases hnow' : (adjustFor (s.undoOf pr) semid op true).ent with
      | none =>
        refine ⟨fun _ => ?_, fun h => absurd (.inl rfl) h⟩
        rw [unrollUndos, if_pos hundo, semundoAdjust]
        rw [show adjustLive s pr semid op.semNum.toNat op.semOp.toInt = .error .einval s .live from
          adjustLive_full hnow']
      | some now' =>
        obtain ⟨lost', hperm, hlost', hlen'⟩ := hback.2 now' hnow'
        have hne : now' ≠ [] := by
          rintro rfl
          have := hperm.length_eq
          rw [length_append, length_nil] at this
          omega
        obtain ⟨s₁, hs₁, hhas₁, hundo₁, hbeside⟩ := adjustLive_ok hhas hnow' hne
        have hstep : unrollUndos info s pr .live semid (op :: before) =
            unrollUndos info s₁ pr .live semid before := by
          rw [unrollUndos, if_pos hundo, semundoAdjust]
          rw [show adjustLive s pr semid op.semNum.toNat op.semOp.toInt = .ok s₁ .live from hs₁]
        have hk : lost'.length = 2 * (k + if op.high then 1 else 0) := by
          rw [hlen', hlen]
          split <;> omega
        rw [← hundo₁] at hperm
        obtain ⟨hyes, hno⟩ := ih hent₁ hmany₁ hhas₁ hlost' hk hperm
        rw [hstep]
        refine ⟨fun h => hyes (h.resolve_left (Option.some_ne_none now')), ?_⟩
        intro h
        obtain ⟨s', lost₂, h', hbeside', hperm', hlen₂⟩ := hno (fun e => h (.inr e))
        refine ⟨s', lost₂, h', hbeside.trans hbeside', hperm', ?_⟩
        have hhc : highCount (op :: before) = highCount before + if op.high then 1 else 0 := by
          simp [highCount, countP_cons, hundo]
        rw [hlen₂, hhc]
        omega
    · rw [if_neg hundo] at hent
      cases hent
      have hcount : undoCount (op :: before) = undoCount before := by
        simp [undoCount, hundo]
      have hhc : highCount (op :: before) = highCount before := by
        simp [highCount, hundo]
      rw [hcount] at hmany
      rw [RollbackStuck, if_neg hundo, unrollUndos, if_neg hundo, hhc]
      exact ih hent₁ hmany hhas hlost hlen hnow

/-! ## The loop over the adjustments -/

theorem undoCount_cons_of_undoes (hundo : op.undoes = true) (ops : List Sembuf) :
    undoCount (op :: ops) = undoCount ops + 1 := by
  simp [undoCount, hundo]

theorem undoCount_cons_of_not (hundo : ¬ op.undoes = true) (ops : List Sembuf) :
    undoCount (op :: ops) = undoCount ops := by
  simp [undoCount, hundo]

theorem semundoAdjust_hasUndo (hhas : HasUndo s pr) (hsup : suptr = .live ∨ suptr = .null)
    (semnum : Nat) (adjval : Int) :
    semundoAdjust info s pr suptr semid semnum adjval = adjustLive s pr semid semnum adjval := by
  rcases hsup with rfl | rfl
  · rfl
  · rw [semundoAdjust]
    exact if_pos hhas

/-- A vector whose adjustments succeed, up to some operation. -/
theorem applyUndos_reach (info : Seminfo) {ent : List Undo} {pre : List Sembuf} (hok : EntOk (s.undoOf pr))
    (hhas : HasUndo s pr) (hent : entAfter semid (s.undoOf pr) pre.reverse = some ent)
    (hmany : undoCount pre < ent.length) (rest : List Sembuf) :
    ∃ s₁ suptr, applyUndos info s pr .null semid [] (pre ++ rest) =
        applyUndos info s₁ pr suptr semid pre.reverse rest ∧
      (suptr = .live ∨ suptr = .null) ∧ HasUndo s₁ pr ∧ s₁.undoOf pr = ent ∧ Beside pr s s₁ := by
  induction pre using List.reverseRecOn generalizing ent rest with
  | nil =>
    cases hent
    exact ⟨s, .null, rfl, .inr rfl, hhas, rfl, .refl pr s⟩
  | append_singleton pre op ih =>
    rw [reverse_append, reverse_singleton, singleton_append, entAfter,
      Option.bind_eq_some_iff] at hent
    obtain ⟨ent₁, hent₁, hent⟩ := hent
    have hcount : undoCount (pre ++ [op]) = undoCount pre + undoCount [op] := countP_append
    by_cases hundo : op.undoes
    · rw [if_pos hundo] at hent
      rw [undoCount_cons_of_undoes hundo] at hcount
      have hlen := (adjustFor_moved (entAfter_ok hok hent₁).1 hundo hent).length
      obtain ⟨s₁, suptr, hreach, hsup, hhas₁, hundo₁, hbeside⟩ :=
        ih hent₁ (by omega) (op :: rest)
      rw [← hundo₁] at hent
      obtain ⟨s₂, hs₂, hhas₂, hundo₂, hbeside₂⟩ := adjustLive_ok hhas₁ hent (by
        rintro rfl
        simp at hmany)
      refine ⟨s₂, .live, ?_, .inl rfl, hhas₂, hundo₂, hbeside.trans hbeside₂⟩
      rw [append_assoc, singleton_append, hreach, applyUndos, if_pos hundo,
        semundoAdjust_hasUndo hhas₁ hsup]
      rw [show adjustLive s₁ pr semid op.semNum.toNat (-op.semOp.toInt) = .ok s₂ .live from hs₂]
      simp
    · rw [if_neg hundo] at hent
      cases hent
      obtain ⟨s₁, suptr, hreach, hsup, hrest⟩ := ih hent₁ (by omega) (op :: rest)
      refine ⟨s₁, suptr, ?_, hsup, hrest⟩
      rw [append_assoc, singleton_append, hreach, applyUndos, if_neg hundo]
      simp

/-- Where `suptr` points after some operations. -/
inductive UndoPhase (s₀ : SemState π) (pr : π) (semid : Nat) (before : List Sembuf)
    (s : SemState π) : Suptr → Prop where
  | null (hs : s = s₀) (hno : undoCount before = 0) : UndoPhase s₀ pr semid before s .null
  | live (hhas : HasUndo s pr) (hent : entAfter semid (s₀.undoOf pr) before = some (s.undoOf pr))
      (hbeside : Beside pr s₀ s) : UndoPhase s₀ pr semid before s .live
  | freed (ent : List Undo) (hlt : ent.length < undoCount before) :
      UndoPhase s₀ pr semid before s (.freed ent)

omit [DecidableEq π] in
theorem entAfter_of_undoCount (hno : undoCount before = 0) :
    entAfter semid ent₀ before = some ent₀ := by
  induction before with
  | nil => rfl
  | cons op before ih =>
    by_cases hundo : op.undoes
    · rw [undoCount_cons_of_undoes hundo] at hno
      omega
    · rw [undoCount_cons_of_not hundo] at hno
      rw [entAfter, ih hno, Option.bind_some, if_neg hundo]

theorem unrollUndos_of_undoCount (hno : undoCount before = 0)
    (suptr : Suptr) : unrollUndos info s pr suptr semid before = .ok s := by
  induction before with
  | nil => rfl
  | cons op before ih =>
    by_cases hundo : op.undoes
    · rw [undoCount_cons_of_undoes hundo] at hno
      omega
    · rw [undoCount_cons_of_not hundo] at hno
      rw [unrollUndos, if_neg hundo, ih hno]

theorem adjustEnt_length {ent : List Undo}
    (h : (adjustEnt ent semid semnum adjval).ent = some ent') : ent'.length ≤ ent.length + 1 := by
  have hsplit := takeWhile_append_dropWhile (p := (! ·.isFor semid semnum)) (l := ent)
  rw [adjustEnt] at h
  cases hdrop : ent.dropWhile (! ·.isFor semid semnum) with
  | nil =>
    simp only [hdrop] at h
    split at h
    · cases h
      omega
    · split at h
      · cases h
      · cases h
        simp
  | cons u post =>
    rw [hdrop] at hsplit
    have hlen : (ent.takeWhile (! ·.isFor semid semnum)).length + (post.length + 1) = ent.length := by
      rw [← length_cons, ← length_append, hsplit]
    simp only [hdrop] at h
    generalize (if adjval = 0 then (0 : BitVec 16) else u.unAdjval + BitVec.ofInt 16 adjval) = adj
      at h
    split at h
    · cases h
      rw [length_append, length_cons]
      omega
    · cases h
      rw [length_append, (fillFromEnd_perm post).length_eq]
      omega

theorem adjustEnt_full {ent : List Undo} (h : adjustEnt ent semid semnum adjval = .full) :
    ent.length = semume := by
  rw [adjustEnt] at h
  cases hdrop : ent.dropWhile (! ·.isFor semid semnum) with
  | nil =>
    simp only [hdrop] at h
    split at h
    · cases h
    · split at h
      · assumption
      · cases h
  | cons u post =>
    simp only [hdrop] at h
    generalize (if adjval = 0 then (0 : BitVec 16) else u.unAdjval + BitVec.ofInt 16 adjval) = adj
      at h
    split at h <;> cases h

theorem semuAlloc_spec (hno : ¬ HasUndo s pr) (h : semuAlloc info s pr = some s') :
    HasUndo s' pr ∧ s'.undoOf pr = s.undoOf pr ∧ Beside pr s s' := by
  rw [semuAlloc] at h
  split at h
  · cases h
  · cases h
    refine ⟨by simp [HasUndo], ?_, rfl, ?_⟩
    · rw [undoOf_of_not_hasUndo hno]
      simp [SemState.undoOf]
    · intro q hq
      have hne : ¬ pr = q := fun e => hq e.symm
      simp [SemState.undoOf, hne]

/-- How `semundo_adjust` ends for the next operation. -/
inductive AdjustOutcome (s₀ : SemState π) (pr : π) (semid : Nat) (op : Sembuf)
    (before : List Sembuf) : AdjustEnd π → Prop where
  | ok {s' : SemState π} {suptr : Suptr} (hphase : UndoPhase s₀ pr semid (op :: before) s' suptr) :
      AdjustOutcome s₀ pr semid op before (.ok s' suptr)
  | fault : AdjustOutcome s₀ pr semid op before .fault
  | enospc (hno : undoCount before = 0) :
      AdjustOutcome s₀ pr semid op before (.error .enospc s₀ .null)
  | einval {s' : SemState π} (hhas : HasUndo s' pr) (hbeside : Beside pr s₀ s')
      (hent : entAfter semid (s₀.undoOf pr) before = some (s'.undoOf pr))
      (hfull : (adjustFor (s'.undoOf pr) semid op false).ent = none) :
      AdjustOutcome s₀ pr semid op before (.error .einval s' .live)

variable {s₀ : SemState π}

theorem adjustLive_outcome (hundo : op.undoes = true)
    (hhas : HasUndo s pr) (hent : entAfter semid (s₀.undoOf pr) before = some (s.undoOf pr))
    (hbeside : Beside pr s₀ s) :
    AdjustOutcome s₀ pr semid op before
      (adjustLive s pr semid op.semNum.toNat (-op.semOp.toInt)) := by
  have hset : ∀ ent, (adjustFor (s.undoOf pr) semid op false).ent = some ent →
      UndoPhase s₀ pr semid (op :: before) { s with semuList := setEnt pr ent s.semuList } .live := by
    intro ent h
    obtain ⟨hhas', hundo', hbeside'⟩ := setEnt_spec hhas ent
    refine .live hhas' ?_ (hbeside.trans hbeside')
    rw [hundo', entAfter, hent, Option.bind_some, if_pos hundo, h]
  have hfor : adjustFor (s.undoOf pr) semid op false =
      adjustEnt (s.undoOf pr) semid op.semNum.toNat (-op.semOp.toInt) := rfl
  rw [hfor] at hset
  rw [adjustLive]
  cases hadj : adjustEnt (s.undoOf pr) semid op.semNum.toNat (-op.semOp.toInt) with
  | kept ent =>
    rw [hadj] at hset
    exact .ok (hset ent rfl)
  | removed ent =>
    rw [hadj] at hset
    cases ent with
    | nil =>
      refine .ok (.freed [] ?_)
      rw [undoCount_cons_of_undoes hundo]
      exact Nat.succ_pos _
    | cons u us => exact .ok (hset _ rfl)
  | full =>
    refine .einval hhas hbeside hent ?_
    rw [hfor, hadj]
    rfl

/-- `semundo_adjust` in the middle of a vector that has not more than `SEMUME` operations
    with an adjustment. -/
theorem semundoAdjust_outcome (info : Seminfo) {s₀ : SemState π} {before : List Sembuf}
    (hphase : UndoPhase s₀ pr semid before s suptr) (hundo : op.undoes = true)
    (hfew : undoCount before < semume) :
    AdjustOutcome s₀ pr semid op before
      (semundoAdjust info s pr suptr semid op.semNum.toNat (-op.semOp.toInt)) := by
  cases hphase with
  | null hs hno =>
    subst hs
    have hent : entAfter semid (s.undoOf pr) before = some (s.undoOf pr) := entAfter_of_undoCount hno
    by_cases hhas : HasUndo s pr
    · rw [semundoAdjust_hasUndo hhas (.inr rfl)]
      exact adjustLive_outcome hundo hhas hent (.refl pr s)
    · have hne : ¬ -op.semOp.toInt = 0 := by
        intro e
        refine adj_ne_zero hundo false ?_
        rw [← ofInt_adj]
        simp only [Bool.false_eq_true, if_false, e]
        rfl
      rw [semundoAdjust, if_neg (show ¬ s.semuList.any (·.unProc = pr) = true from hhas), if_neg hne]
      cases halloc : semuAlloc info s pr with
      | none => exact .enospc hno
      | some s₁ =>
        obtain ⟨hhas₁, hundo₁, hbeside₁⟩ := semuAlloc_spec hhas halloc
        exact adjustLive_outcome hundo hhas₁ (by rw [hundo₁]; exact hent) hbeside₁
  | live hhas hent hbeside => exact adjustLive_outcome hundo hhas hent hbeside
  | freed ent hlt =>
    -- too few operations are left to fill the structure again
    rw [semundoAdjust]
    have hgrow : ∀ ent', (adjustEnt ent semid op.semNum.toNat (-op.semOp.toInt)).ent = some ent' →
        ent'.length < undoCount (op :: before) := by
      intro ent' h
      have hlen := adjustEnt_length h
      rw [undoCount_cons_of_undoes hundo]
      omega
    cases hadj : adjustEnt ent semid op.semNum.toNat (-op.semOp.toInt) with
    | kept ent' =>
      rw [hadj] at hgrow
      exact .ok (.freed ent' (hgrow ent' rfl))
    | removed ent' =>
      rw [hadj] at hgrow
      cases ent' with
      | nil => exact .fault
      | cons u us => exact .ok (.freed (u :: us) (hgrow _ rfl))
    | full =>
      have hlen := adjustEnt_full hadj
      omega

/-- What an error of the loop over the adjustments leaves behind: the entries of before,
    and lost ones when an entry was missing and the rollback was not stuck. -/
def UndosFailed (s₀ : SemState π) (pr : π) (semid : Nat) (before rest : List Sembuf)
    (s' : SemState π) : Prop :=
  Beside pr s₀ s' ∧ (s'.undoOf pr = s₀.undoOf pr ∨
    ∃ mid op post ent lost, rest = mid ++ op :: post ∧ op.undoes = true ∧
      entAfter semid (s₀.undoOf pr) (mid.reverse ++ before) = some ent ∧
      (adjustFor ent semid op false).ent = none ∧
      ¬ RollbackStuck semid (s₀.undoOf pr) 0 (mid.reverse ++ before) ∧
      (s'.undoOf pr).Perm (s₀.undoOf pr ++ lost) ∧
      lost.length = 2 * highCount (mid.reverse ++ before))

theorem UndosFailed.cons {s₀ : SemState π} {before rest : List Sembuf}
    (h : UndosFailed s₀ pr semid (op :: before) rest s') :
    UndosFailed s₀ pr semid before (op :: rest) s' := by
  obtain ⟨hbeside, hsame | ⟨mid, op', post, ent, lost, rfl, hrest⟩⟩ := h
  · exact ⟨hbeside, .inl hsame⟩
  · refine ⟨hbeside, .inr ⟨op :: mid, op', post, ent, lost, rfl, ?_⟩⟩
    rw [reverse_cons, append_assoc, singleton_append]
    exact hrest

theorem unrollUndos_einval (info : Seminfo) {s₀ : SemState π} {before : List Sembuf} (hok : EntOk (s₀.undoOf pr))
    (hfew : undoCount before < semume) (hhas : HasUndo s pr) (hbeside : Beside pr s₀ s)
    (hent : entAfter semid (s₀.undoOf pr) before = some (s.undoOf pr)) (hundo : op.undoes = true)
    (hfull : (adjustFor (s.undoOf pr) semid op false).ent = none) :
    (RollbackStuck semid (s₀.undoOf pr) 0 before →
      unrollUndos info s pr .live semid before = .panic) ∧
    (¬ RollbackStuck semid (s₀.undoOf pr) 0 before →
      ∃ s' lost, unrollUndos info s pr .live semid before = .ok s' ∧ Beside pr s₀ s' ∧
        (s'.undoOf pr).Perm (s₀.undoOf pr ++ lost) ∧ lost.length = 2 * highCount before) := by
  have hlen := (adjustFor_full (entAfter_ok hok hent).1 hundo hfull).2
  obtain ⟨hyes, hno⟩ := unrollUndos_spec info (k := 0) hok hent (by omega) hhas
    (fun u hu => absurd hu not_mem_nil) rfl (show (s.undoOf pr).Perm (s.undoOf pr ++ []) by
      rw [append_nil])
  refine ⟨hyes, ?_⟩
  intro hns
  obtain ⟨s', lost, hs', hb', hperm, hcount⟩ := hno hns
  exact ⟨s', lost, hs', hbeside.trans hb', hperm, by rw [hcount, Nat.zero_add]⟩

theorem applyUndos_error {rest : List Sembuf} {e : SemErrno}
    (hok : EntOk (s₀.undoOf pr)) (hphase : UndoPhase s₀ pr semid before s suptr)
    (hfew : undoCount before + undoCount rest ≤ semume)
    (h : applyUndos info s pr suptr semid before rest = .error e s') :
    UndosFailed s₀ pr semid before rest s' := by
  induction rest generalizing before s suptr with
  | nil => cases h
  | cons op rest ih =>
    rw [applyUndos] at h
    by_cases hundo : op.undoes
    · rw [undoCount_cons_of_undoes hundo] at hfew
      rw [if_pos hundo] at h
      have hout := semundoAdjust_outcome info hphase hundo (by omega)
      generalize semundoAdjust info s pr suptr semid op.semNum.toNat (-op.semOp.toInt) = r at h hout
      cases hout with
      | ok hphase' =>
        refine (ih hphase' ?_ h).cons
        rw [undoCount_cons_of_undoes hundo]
        omega
      | fault => cases h
      | enospc hno =>
        simp only [unrollUndos_of_undoCount hno] at h
        cases h
        exact ⟨.refl pr _, .inl rfl⟩
      | einval hhas hbeside hent hfull =>
        obtain ⟨hyes, hno⟩ := unrollUndos_einval info hok (by omega) hhas hbeside hent hundo
          hfull
        by_cases hstuck : RollbackStuck semid (s₀.undoOf pr) 0 before
        · simp only [hyes hstuck] at h
          cases h
        · obtain ⟨s₂, lost, hs₂, hbeside₂, hperm, hcount⟩ := hno hstuck
          simp only [hs₂] at h
          cases h
          exact ⟨hbeside₂, .inr ⟨[], op, rest, _, lost, rfl, hundo, hent, hfull, hstuck, hperm, hcount⟩⟩
    · rw [undoCount_cons_of_not hundo] at hfew
      rw [if_neg hundo] at h
      refine (ih ?_ ?_ h).cons
      · cases hphase with
        | null hs hno => exact .null hs (by rw [undoCount_cons_of_not hundo]; exact hno)
        | live hhas hent hbeside =>
          refine .live hhas ?_ hbeside
          rw [entAfter, hent, Option.bind_some, if_neg hundo]
        | freed ent hlt => exact .freed ent (by rw [undoCount_cons_of_not hundo]; exact hlt)
      · rw [undoCount_cons_of_not hundo]
        exact hfew

theorem applyUndos_einval (info : Seminfo) {ent : List Undo} {pre post : List Sembuf}
    (hok : EntOk (s.undoOf pr)) (hundo : op.undoes = true)
    (hfew : undoCount (pre ++ op :: post) ≤ semume)
    (hent : entAfter semid (s.undoOf pr) pre.reverse = some ent)
    (hnone : NoneFor semid op.semNum.toNat ent) (hlen : ent.length = semume)
    (hstuck : ¬ RollbackStuck semid (s.undoOf pr) 0 pre.reverse) :
    ∃ s' lost, applyUndos info s pr .null semid [] (pre ++ op :: post) = .error .einval s' ∧
      Beside pr s s' ∧ (s'.undoOf pr).Perm (s.undoOf pr ++ lost) ∧
      lost.length = 2 * highCount pre.reverse := by
  have hcount : undoCount (pre ++ op :: post) = undoCount pre + (undoCount post + 1) := by
    rw [← undoCount_cons_of_undoes hundo]
    exact countP_append
  have hrev : undoCount pre.reverse = undoCount pre := countP_reverse
  have hhas : HasUndo s pr := by
    by_contra hno
    have hle := (entAfter_ok hok hent).2.1
    rw [undoOf_of_not_hasUndo hno, length_nil] at hle
    omega
  obtain ⟨s₁, suptr, hreach, hsup, hhas₁, rfl, hbeside⟩ :=
    applyUndos_reach info hok hhas hent (by omega) (op :: post)
  have hfull : (adjustFor (s₁.undoOf pr) semid op false).ent = none := by
    rw [adjustFor_absent hundo false hnone, if_pos hlen]
    rfl
  obtain ⟨s', lost, hs', hrest⟩ :=
    (unrollUndos_einval info hok (by omega) hhas₁ hbeside hent hundo hfull).2 hstuck
  refine ⟨s', lost, ?_, hrest⟩
  rw [hreach, applyUndos, if_pos hundo, semundoAdjust_hasUndo hhas₁ hsup]
  rw [show adjustLive s₁ pr semid op.semNum.toNat (-op.semOp.toInt) = .error .einval s₁ .live from
    adjustLive_full hfull]
  simp only [hs']

end State

end OpenBsd.Kern
