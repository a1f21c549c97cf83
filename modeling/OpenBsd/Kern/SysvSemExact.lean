/-
  OpenBsd.Kern.SysvSemExact

  What a successful call of `semop` does to the adjustments of its process.

  `semundo_adjust` gives the undo structure back when its last entry goes, but the
  caller keeps its pointer.  The operations behind that one adjust entries that
  nobody finds again.  The other slips are the two fields of type `short`.
-/

import OpenBsd.Kern.SysvSemRange

namespace OpenBsd.Kern

open OpenBsd.Lib List

variable {ent ent' ent₀ : List Undo} {semid semnum : Nat} {suptr : Suptr} {sops : List Sembuf}

/-! ## Adjustments -/

/-- The adjustment that `semundo_adjust` finds for a semaphore, 0 without an entry. -/
def adjVal (ent : List Undo) (semid semnum : Nat) : BitVec 16 :=
  match ent.find? (·.isFor semid semnum) with
  | some u => u.unAdjval
  | none => 0

def adjFor (ent : List Undo) (semid semnum : Nat) : Int := (adjVal ent semid semnum).toInt

/-- The sum of the operations on a semaphore that leave an adjustment. -/
def undoSum (sops : List Sembuf) (semnum : Nat) : Int :=
  ((sops.filter fun op => op.undoes && op.semNum.toNat = semnum).map (·.semOp.toInt)).sum

theorem adjVal_of_noneFor (h : NoneFor semid semnum ent) : adjVal ent semid semnum = 0 := by
  have hnone : ent.find? (·.isFor semid semnum) = none := by
    rw [find?_eq_none]
    intro u hu
    rw [h u hu]
    exact Bool.false_ne_true
  rw [adjVal, hnone]

theorem adjVal_of_perm {rest : List Undo} {u : Undo} (hperm : ent.Perm (u :: rest))
    (hu : u.isFor semid semnum = true) (hrest : NoneFor semid semnum rest) :
    adjVal ent semid semnum = u.unAdjval := by
  have honly : ∀ v ∈ ent, v.isFor semid semnum = true → v = u := by
    intro v hv hfor
    rcases mem_cons.1 (hperm.mem_iff.1 hv) with rfl | hv
    · rfl
    · rw [hrest v hv] at hfor
      cases hfor
  cases hfind : ent.find? (·.isFor semid semnum) with
  | none =>
    have hmem : u ∈ ent := hperm.mem_iff.2 mem_cons_self
    exact absurd hu (find?_eq_none.1 hfind u hmem)
  | some v =>
    have hfor : v.isFor semid semnum = true := find?_some hfind
    rw [adjVal, hfind, honly v (mem_of_find?_eq_some hfind) hfor]

theorem adjVal_perm (hok : EntOk ent) (hperm : ent.Perm ent') (semid semnum : Nat) :
    adjVal ent' semid semnum = adjVal ent semid semnum := by
  rcases hok.cases semid semnum with hnone | ⟨u, rest, hp, hu, hrest⟩
  · rw [adjVal_of_noneFor hnone, adjVal_of_noneFor (NoneFor.perm hnone hperm.symm)]
  · rw [adjVal_of_perm hp hu hrest, adjVal_of_perm (hperm.symm.trans hp) hu hrest]

theorem adjVal_cons (u : Undo) (rest : List Undo) (semid semnum : Nat) :
    adjVal (u :: rest) semid semnum =
      if u.isFor semid semnum then u.unAdjval else adjVal rest semid semnum := by
  rw [adjVal, find?_cons]
  cases u.isFor semid semnum with
  | true => rfl
  | false => rfl

theorem noneFor_high (h : 2 ^ 15 ≤ semnum) (semid : Nat) (ent : List Undo) :
    NoneFor semid semnum ent := by
  intro u _
  have hlt := BitVec.toInt_lt (x := u.unNum)
  rw [Undo.isFor, Bool.and_eq_false_iff, decide_eq_false_iff_not, decide_eq_false_iff_not]
  right
  intro e
  rw [e] at hlt
  omega

theorem adjFor_high (h : 2 ^ 15 ≤ semnum) (semid : Nat) (ent : List Undo) :
    adjFor ent semid semnum = 0 := by
  rw [adjFor, adjVal_of_noneFor (noneFor_high h semid ent)]
  rfl

theorem isFor_iff_of_isFor {u : Undo} {n : Nat} (h : u.isFor semid n = true) (semid' n' : Nat) :
    u.isFor semid' n' = true ↔ semid' = semid ∧ n' = n := by
  simp only [Undo.isFor, Bool.and_eq_true, decide_eq_true_eq] at h ⊢
  obtain ⟨hid, hnum⟩ := h
  rw [hid, hnum]
  omega

/-- An adjustment by `d` adds `d` for its semaphore, and nothing for any other. -/
theorem EntMoved.adjVal {op : Sembuf} {d : BitVec 16} (h : EntMoved semid op d ent ent')
    (hok : EntOk ent) (hd : d ≠ 0) {semid' n : Nat} (hn : n < 2 ^ 15) :
    Kern.adjVal ent' semid' n =
      Kern.adjVal ent semid' n + if semid' = semid ∧ n = op.semNum.toNat then d else 0 := by
  have hok' := h.entOk hok hd
  cases h with
  | change u rest hu hrest hne hent hent' =>
    have hnew : ({ u with unAdjval := u.unAdjval + d } : Undo).isFor semid op.semNum.toNat = true :=
      hu
    rw [adjVal_perm (hok'.perm hent') hent'.symm, adjVal_perm (hok.perm hent) hent.symm,
      adjVal_cons, adjVal_cons]
    simp only [isFor_iff_of_isFor hu, isFor_iff_of_isFor hnew]
    split
    · rfl
    · rw [add_zero]
  | delete u rest hu hrest hzero hent hent' =>
    rw [adjVal_perm (hok'.perm hent') hent'.symm, adjVal_perm (hok.perm hent) hent.symm, adjVal_cons]
    simp only [isFor_iff_of_isFor hu]
    split
    · rename_i hthis
      rw [hthis.1, hthis.2, adjVal_of_noneFor hrest, hzero]
    · rw [add_zero]
  | make hnone hroom hent' =>
    rw [adjVal_perm (hok'.perm hent') hent'.symm, adjVal_cons]
    cases hhigh : op.high with
    | true =>
      -- no number finds the new entry, and `n` is not the one of the operation
      have hle : 2 ^ 15 ≤ op.semNum.toNat := by simpa [Sembuf.high] using hhigh
      rw [if_neg (by rw [(lost_entry hhigh semid d).isFor]; exact Bool.false_ne_true),
        if_neg (by omega), add_zero]
    | false =>
      simp only [isFor_iff_of_isFor (isFor_entry hhigh semid d)]
      split
      · rename_i hthis
        rw [hthis.1, hthis.2, adjVal_of_noneFor hnone, zero_add]
        rfl
      · rw [add_zero]

/-! ## Sums -/

theorem undoSum_nil (n : Nat) : undoSum [] n = 0 := rfl

theorem undoSum_cons (op : Sembuf) (ops : List Sembuf) (n : Nat) :
    undoSum (op :: ops) n =
      (if op.undoes = true ∧ op.semNum.toNat = n then op.semOp.toInt else 0) + undoSum ops n := by
  by_cases h : op.undoes = true ∧ op.semNum.toNat = n
  · rw [undoSum, filter_cons_of_pos (by simpa using h), if_pos h, map_cons, sum_cons]
    rfl
  · rw [undoSum, filter_cons_of_neg (by simpa using h), if_neg h, zero_add]
    rfl

theorem undoSum_reverse (ops : List Sembuf) (n : Nat) : undoSum ops.reverse n = undoSum ops n := by
  simp only [undoSum, filter_reverse, map_reverse, sum_reverse]

theorem undoSum_of_undoCount {ops : List Sembuf} (h : undoCount ops = 0) (n : Nat) :
    undoSum ops n = 0 := by
  induction ops with
  | nil => rfl
  | cons op ops ih =>
    by_cases hundo : op.undoes
    · rw [undoCount_cons_of_undoes hundo] at h
      omega
    · rw [undoCount_cons_of_not hundo] at h
      rw [undoSum_cons, if_neg fun e => hundo e.1, ih h, add_zero]

theorem entAfter_adjVal {ix : Nat} {ent₀ ent : List Undo} {before : List Sembuf}
    (hok : EntOk ent₀) (h : entAfter ix ent₀ before = some ent) {semid n : Nat} (hn : n < 2 ^ 15) :
    adjVal ent semid n =
      adjVal ent₀ semid n - BitVec.ofInt 16 (if semid = ix then undoSum before n else 0) := by
  induction before generalizing ent with
  | nil =>
    cases h
    simp [undoSum_nil]
  | cons op before ih =>
    rw [entAfter, Option.bind_eq_some_iff] at h
    obtain ⟨ent₁, h₁, h⟩ := h
    have hih := ih h₁
    rw [undoSum_cons]
    by_cases hundo : op.undoes
    · rw [if_pos hundo] at h
      have hok₁ := (entAfter_ok hok h₁).1
      rw [(adjustFor_moved hok₁ hundo h).adjVal hok₁ (adj_ne_zero hundo false) hn, hih]
      by_cases hid : semid = ix
      · by_cases hnum : op.semNum.toNat = n
        · subst hnum
          simp only [hid, hundo, and_self, if_true, BitVec.ofInt_add, BitVec.ofInt_toInt,
            Sembuf.adj, Bool.false_eq_true, if_false]
          ring
        · have hne : ¬ n = op.semNum.toNat := fun e => hnum e.symm
          simp only [hid, hnum, hne, and_false, if_true, if_false, zero_add, add_zero]
      · simp only [hid, false_and, if_false, add_zero]
    · rw [if_neg hundo] at h
      cases h
      simp only [hundo, Bool.false_eq_true, false_and, if_false, zero_add]
      exact hih

/-! ## The structure of the process -/

section State

variable {π : Type} [DecidableEq π] {info : Seminfo} {s₀ s s' : SemState π} {pr : π} {ix : Nat}
  {op : Sembuf} {before : List Sembuf}

/-- A process has one undo structure at most. -/
def OneEach (s : SemState π) : Prop := (s.semuList.map (·.unProc)).Nodup

theorem map_unProc_setEnt (pr : π) (ent : List Undo) (us : List (SemUndo π)) :
    (setEnt pr ent us).map (·.unProc) = us.map (·.unProc) := by
  induction us with
  | nil => rfl
  | cons u us ih =>
    rw [setEnt]
    split
    · rfl
    · rw [map_cons, map_cons, ih]

theorem OneEach.setEnt (h : OneEach s) (ent : List Undo) :
    OneEach { s with semuList := Kern.setEnt pr ent s.semuList } := by
  rw [OneEach, map_unProc_setEnt]
  exact h

theorem OneEach.erase (h : OneEach s) (hhas : HasUndo s pr) (n : Nat) :
    let s' := { s with semuList := s.semuList.eraseP (·.unProc = pr), semutot := n }
    OneEach s' ∧ s'.undoOf pr = [] ∧ Beside pr s s' := by
  obtain ⟨u, hu, hpr⟩ := any_eq_true.1 hhas
  obtain ⟨v, xs, ys, -, hv, hlist, herase⟩ :=
    @List.exists_of_eraseP _ (fun u => decide (u.unProc = pr)) _ _ hu hpr
  have hvpr : v.unProc = pr := by simpa using hv
  have hnodup : (pr :: (xs ++ ys).map (·.unProc)).Nodup := by
    rw [OneEach, hlist, map_append, map_cons, hvpr] at h
    rw [map_append]
    exact nodup_middle.1 h
  rw [herase]
  refine ⟨(nodup_cons.1 hnodup).2, ?_, rfl, ?_⟩
  · -- no second structure is left
    apply undoOf_of_not_hasUndo
    intro hsecond
    obtain ⟨w, hw, hwpr⟩ := any_eq_true.1 hsecond
    exact (nodup_cons.1 hnodup).1 (mem_map.2 ⟨w, hw, by simpa using hwpr⟩)
  · intro q hq
    have hne : ¬ v.unProc = q := fun e => hq (e.symm.trans hvpr)
    simp only [SemState.undoOf, hlist, find?_append, find?_cons, hne, decide_false]

/-! ## What the pointer leads to -/

/-- The last entry goes at one of these operations, the last of which comes first. -/
def UsedUp (ix : Nat) (ent₀ : List Undo) (before : List Sembuf) : Prop :=
  undoCount before ≠ 0 ∧ entAfter ix ent₀ before = some []

/-- Where `suptr` leads after some operations, and what the entries there are. -/
inductive UndoTrack (s₀ : SemState π) (pr : π) (ix : Nat) (before : List Sembuf)
    (s : SemState π) : Suptr → Prop where
  | null (hs : s.undoOf pr = s₀.undoOf pr) (hno : undoCount before = 0) :
      UndoTrack s₀ pr ix before s .null
  | live (hhas : HasUndo s pr) (hent : entAfter ix (s₀.undoOf pr) before = some (s.undoOf pr))
      (hkept : ∀ hd tl, before = hd ++ tl → ¬ UsedUp ix (s₀.undoOf pr) tl) :
      UndoTrack s₀ pr ix before s .live
  | freed (ent : List Undo) (hent : entAfter ix (s₀.undoOf pr) before = some ent)
      (hgone : s.undoOf pr = []) (hused : ∃ hd tl, before = hd ++ tl ∧ UsedUp ix (s₀.undoOf pr) tl)
      (hlast : ent = [] → ∀ hd tl, before = hd ++ tl → UsedUp ix (s₀.undoOf pr) tl →
        undoCount hd = 0) :
      UndoTrack s₀ pr ix before s (.freed ent)

/-- How `semundo_adjust` leaves everything when it succeeds. -/
structure AdjustedTo (s₀ : SemState π) (pr : π) (ix : Nat) (before : List Sembuf)
    (s' : SemState π) (suptr : Suptr) : Prop where
  track : UndoTrack s₀ pr ix before s' suptr
  one : OneEach s'
  beside : Beside pr s₀ s'

theorem adjustEnt_kept_ne_nil {adjval : Int} (hadj : adjval ≠ 0)
    (h : adjustEnt ent semid semnum adjval = .kept ent') : ent' ≠ [] := by
  unfold adjustEnt at h
  split at h
  · simp only [if_neg hadj] at h
    split at h
    · cases h
      simp
    · cases h
  · rw [if_neg hadj] at h
    split at h
    · cases h
    · cases h
      simp

theorem neg_semOp_ne_zero (hundo : op.undoes = true) : -op.semOp.toInt ≠ 0 := by
  intro e
  refine adj_ne_zero hundo false ?_
  rw [← ofInt_adj]
  simp only [Bool.false_eq_true, if_false, e]
  rfl

theorem not_usedUp_cons (hent : entAfter ix ent₀ (op :: before) = some ent) (hne : ent ≠ [])
    (hkept : ∀ hd tl, before = hd ++ tl → ¬ UsedUp ix ent₀ tl) :
    ∀ hd tl, op :: before = hd ++ tl → ¬ UsedUp ix ent₀ tl := by
  intro hd tl hsplit hused
  cases hd with
  | nil =>
    rw [nil_append] at hsplit
    subst hsplit
    rw [hused.2] at hent
    exact hne (Option.some.inj hent).symm
  | cons o hd =>
    obtain ⟨-, hbefore⟩ := List.cons.inj hsplit
    exact hkept hd tl hbefore hused

theorem adjustLive_track (hundo : op.undoes = true) (hhas : HasUndo s pr)
    (hent : entAfter ix (s₀.undoOf pr) before = some (s.undoOf pr))
    (hkept : ∀ hd tl, before = hd ++ tl → ¬ UsedUp ix (s₀.undoOf pr) tl) (hone : OneEach s)
    (hbeside : Beside pr s₀ s)
    (h : adjustLive s pr ix op.semNum.toNat (-op.semOp.toInt) = .ok s' suptr) :
    AdjustedTo s₀ pr ix (op :: before) s' suptr := by
  have hafter : ∀ ent, (adjustEnt (s.undoOf pr) ix op.semNum.toNat (-op.semOp.toInt)).ent = some ent →
      entAfter ix (s₀.undoOf pr) (op :: before) = some ent := by
    intro ent he
    rw [entAfter, hent, Option.bind_some, if_pos hundo]
    exact he
  have hstay : ∀ ent, entAfter ix (s₀.undoOf pr) (op :: before) = some ent → ent ≠ [] →
      AdjustedTo s₀ pr ix (op :: before) { s with semuList := setEnt pr ent s.semuList } .live := by
    intro ent he hne
    obtain ⟨hhas', hundo', hbeside'⟩ := setEnt_spec hhas ent
    refine ⟨.live hhas' ?_ (not_usedUp_cons he hne hkept), hone.setEnt ent, hbeside.trans hbeside'⟩
    rw [hundo']
    exact he
  rw [adjustLive] at h
  cases hadj : adjustEnt (s.undoOf pr) ix op.semNum.toNat (-op.semOp.toInt) with
  | kept ent =>
    rw [hadj] at h hafter
    cases h
    exact hstay ent (hafter ent rfl) (adjustEnt_kept_ne_nil (neg_semOp_ne_zero hundo) hadj)
  | removed ent =>
    rw [hadj] at h hafter
    cases ent with
    | nil =>
      -- the structure is given back here, and was not before
      cases h
      obtain ⟨hone', hgone, hbeside'⟩ := hone.erase hhas (s.semutot - 1)
      have hused : UsedUp ix (s₀.undoOf pr) (op :: before) := by
        refine ⟨?_, hafter [] rfl⟩
        rw [undoCount_cons_of_undoes hundo]
        exact Nat.succ_ne_zero _
      refine ⟨.freed [] hused.2 hgone ⟨[], _, rfl, hused⟩ ?_, hone', hbeside.trans hbeside'⟩
      intro _ hd tl hsplit husedtl
      cases hd with
      | nil => rfl
      | cons o hd =>
        obtain ⟨-, hbefore⟩ := List.cons.inj hsplit
        exact absurd husedtl (hkept hd tl hbefore)
    | cons u us =>
      cases h
      exact hstay _ (hafter _ rfl) (cons_ne_nil u us)
  | full =>
    rw [hadj] at h
    cases h

theorem semundoAdjust_track {suptr' : Suptr} (hundo : op.undoes = true)
    (hat : AdjustedTo s₀ pr ix before s suptr)
    (h : semundoAdjust info s pr suptr ix op.semNum.toNat (-op.semOp.toInt) = .ok s' suptr') :
    AdjustedTo s₀ pr ix (op :: before) s' suptr' := by
  obtain ⟨htrack, hone, hbeside⟩ := hat
  cases htrack with
  | null hs hno =>
    have hent : entAfter ix (s₀.undoOf pr) before = some (s₀.undoOf pr) := entAfter_of_undoCount hno
    have hkept : ∀ hd tl, before = hd ++ tl → ¬ UsedUp ix (s₀.undoOf pr) tl := by
      rintro hd tl rfl hused
      have hsum : undoCount (hd ++ tl) = undoCount hd + undoCount tl := countP_append
      exact hused.1 (by omega)
    by_cases hhas : HasUndo s pr
    · rw [semundoAdjust_hasUndo hhas (.inr rfl)] at h
      exact adjustLive_track hundo hhas (by rw [hs]; exact hent) hkept hone hbeside h
    · rw [semundoAdjust, if_neg (show ¬ s.semuList.any (·.unProc = pr) = true from hhas),
        if_neg (neg_semOp_ne_zero hundo)] at h
      cases halloc : semuAlloc info s pr with
      | none =>
        rw [halloc] at h
        cases h
      | some s₁ =>
        rw [halloc] at h
        obtain ⟨hhas₁, hundo₁, hbeside₁⟩ := semuAlloc_spec hhas halloc
        have hone₁ : OneEach s₁ := by
          rw [semuAlloc] at halloc
          split at halloc
          · cases halloc
          · cases halloc
            refine nodup_cons.2 ⟨?_, hone⟩
            intro hmem
            obtain ⟨u, hu, hpr⟩ := mem_map.1 hmem
            exact hhas (any_eq_true.2 ⟨u, hu, by simpa using hpr⟩)
        exact adjustLive_track hundo hhas₁ (by rw [hundo₁, hs]; exact hent) hkept hone₁
          (hbeside.trans hbeside₁) h
  | live hhas hent hkept => exact adjustLive_track hundo hhas hent hkept hone hbeside h
  | freed ent hent hgone hused hlast =>
    obtain ⟨hd, tl, rfl, husedtl⟩ := hused
    have hstay : ∀ ent', (adjustEnt ent ix op.semNum.toNat (-op.semOp.toInt)).ent = some ent' →
        ent' ≠ [] → AdjustedTo s₀ pr ix (op :: (hd ++ tl)) s (.freed ent') := by
      intro ent' he hne
      refine ⟨.freed ent' ?_ hgone ⟨op :: hd, tl, rfl, husedtl⟩ fun hnil => absurd hnil hne, hone,
        hbeside⟩
      rw [entAfter, hent, Option.bind_some, if_pos hundo]
      exact he
    rw [semundoAdjust] at h
    cases hadj : adjustEnt ent ix op.semNum.toNat (-op.semOp.toInt) with
    | kept ent' =>
      rw [hadj] at h hstay
      cases h
      exact hstay ent' rfl (adjustEnt_kept_ne_nil (neg_semOp_ne_zero hundo) hadj)
    | removed ent' =>
      rw [hadj] at h hstay
      cases ent' with
      | nil => cases h
      | cons u us =>
        cases h
        exact hstay _ rfl (cons_ne_nil u us)
    | full =>
      rw [hadj] at h
      cases h

/-- An operation that leaves no adjustment. -/
theorem AdjustedTo.skip (h : AdjustedTo s₀ pr ix before s suptr) (hundo : ¬ op.undoes = true) :
    AdjustedTo s₀ pr ix (op :: before) s suptr := by
  have hent : ∀ ent, entAfter ix (s₀.undoOf pr) before = some ent →
      entAfter ix (s₀.undoOf pr) (op :: before) = some ent := by
    intro ent he
    rw [entAfter, he, Option.bind_some, if_neg hundo]
  -- whether the entries are used up is decided by the operations behind `op`
  have hsame : UsedUp ix (s₀.undoOf pr) (op :: before) → UsedUp ix (s₀.undoOf pr) before := by
    rintro ⟨hcount, hused⟩
    rw [undoCount_cons_of_not hundo] at hcount
    refine ⟨hcount, ?_⟩
    rw [entAfter, Option.bind_eq_some_iff] at hused
    obtain ⟨ent, he, hnil⟩ := hused
    rw [if_neg hundo] at hnil
    rw [he, hnil]
  refine ⟨?_, h.one, h.beside⟩
  cases h.track with
  | null hs hno => exact .null hs (by rw [undoCount_cons_of_not hundo]; exact hno)
  | live hhas he hkept =>
    refine .live hhas (hent _ he) ?_
    intro hd tl hsplit hused
    cases hd with
    | nil =>
      rw [nil_append] at hsplit
      subst hsplit
      exact hkept [] before rfl (hsame hused)
    | cons o hd =>
      obtain ⟨-, hbefore⟩ := List.cons.inj hsplit
      exact hkept hd tl hbefore hused
  | freed ent he hgone hused hlast =>
    obtain ⟨hd, tl, rfl, husedtl⟩ := hused
    refine .freed ent (hent _ he) hgone ⟨op :: hd, tl, rfl, husedtl⟩ ?_
    intro hnil hd' tl' hsplit hused'
    cases hd' with
    | nil => rfl
    | cons o hd' =>
      obtain ⟨rfl, hbefore⟩ := List.cons.inj hsplit
      rw [undoCount_cons_of_not hundo]
      exact hlast hnil hd' tl' hbefore hused'

theorem applyUndos_track {rest : List Sembuf} (hat : AdjustedTo s₀ pr ix before s suptr)
    (h : applyUndos info s pr suptr ix before rest = .ok s') :
    ∃ suptr', AdjustedTo s₀ pr ix (rest.reverse ++ before) s' suptr' := by
  induction rest generalizing before s suptr with
  | nil =>
    cases h
    exact ⟨suptr, hat⟩
  | cons op rest ih =>
    rw [applyUndos] at h
    rw [reverse_cons, append_assoc, singleton_append]
    by_cases hundo : op.undoes = true
    · rw [if_pos hundo] at h
      cases hadj : semundoAdjust info s pr suptr ix op.semNum.toNat (-op.semOp.toInt) with
      | ok s₁ suptr₁ =>
        rw [hadj] at h
        exact ih (semundoAdjust_track hundo hat hadj) h
      | error e s₁ suptr₁ =>
        rw [hadj] at h
        dsimp only at h
        split at h
        · cases h
        · rename_i hnot
          rw [h] at hnot
          exact absurd rfl (hnot s')
      | fault =>
        rw [hadj] at h
        cases h
    · rw [if_neg hundo] at h
      exact ih (hat.skip hundo) h

/-! ## The adjustments after a call -/

/-- The adjustment of the process for every semaphore is its value of before, less the
    operations on it; there is no entry without an adjustment, and the other processes
    keep theirs. -/
structure UndoExact (s s' : SemState π) (pr : π) (ix : Nat) (sops : List Sembuf) : Prop where
  adj : ∀ semid n, adjFor (s'.undoOf pr) semid n =
    adjFor (s.undoOf pr) semid n - if semid = ix then undoSum sops n else 0
  nonzero : ∀ u ∈ s'.undoOf pr, u.unAdjval ≠ 0
  others : ∀ q ≠ pr, s'.undoOf q = s.undoOf q

/-- The adjustments fit into their fields, and the entries of the process last: when
    the last of them goes, no operation with an adjustment is left to do, or all
    adjustments come to nothing in the end. -/
structure AdjustmentsFit (ent : List Undo) (ix : Nat) (sops : List Sembuf) : Prop where
  short : ∀ n < 2 ^ 15, -2 ^ 15 ≤ adjFor ent ix n - undoSum sops n ∧
    adjFor ent ix n - undoSum sops n < 2 ^ 15
  high : ∀ n, 2 ^ 15 ≤ n → undoSum sops n = 0
  last : ∀ pre post, sops = pre ++ post → UsedUp ix ent pre.reverse → undoCount post ≠ 0 →
    ∀ n, adjFor ent ix n = undoSum sops n

theorem toInt_sub_ofInt (x : BitVec 16) (k : Int) (hlo : -2 ^ 15 ≤ x.toInt - k)
    (hhi : x.toInt - k < 2 ^ 15) : (x - BitVec.ofInt 16 k).toInt = x.toInt - k := by
  rw [BitVec.toInt_sub, BitVec.toInt_ofInt, Int.sub_bmod_bmod]
  exact Int.bmod_eq_of_le (by simpa using hlo) (by simpa using hhi)

omit [DecidableEq π] in
theorem AdjustmentsFit.adjFor_eq (hfit : AdjustmentsFit ent₀ ix sops) (hok : EntOk ent₀)
    (hent : entAfter ix ent₀ sops.reverse = some ent) (semid n : Nat) :
    adjFor ent semid n = adjFor ent₀ semid n - if semid = ix then undoSum sops n else 0 := by
  by_cases hn : n < 2 ^ 15
  · rw [adjFor, entAfter_adjVal hok hent hn, undoSum_reverse]
    by_cases hid : semid = ix
    · rw [if_pos hid, hid]
      obtain ⟨hlo, hhi⟩ := hfit.short n hn
      exact toInt_sub_ofInt _ _ hlo hhi
    · rw [if_neg hid, sub_zero, adjFor, show BitVec.ofInt 16 0 = (0 : BitVec 16) from rfl, sub_zero]
  · rw [Nat.not_lt] at hn
    rw [adjFor_high hn, adjFor_high hn, hfit.high n hn]
    split <;> rfl

omit [DecidableEq π] in
theorem entAfter_append_of_undoCount {hd tl : List Sembuf} (hno : undoCount hd = 0) :
    entAfter ix ent₀ (hd ++ tl) = entAfter ix ent₀ tl := by
  induction hd with
  | nil => rfl
  | cons op hd ih =>
    by_cases hundo : op.undoes
    · rw [undoCount_cons_of_undoes hundo] at hno
      omega
    · rw [undoCount_cons_of_not hundo] at hno
      rw [cons_append, entAfter, ih hno]
      simp [hundo]

theorem UsedUp.adjFor_other (h : UsedUp ix ent₀ before) (hok : EntOk ent₀) (hid : semid ≠ ix)
    (n : Nat) : adjFor ent₀ semid n = 0 := by
  by_cases hn : n < 2 ^ 15
  · have hval := @entAfter_adjVal ix ent₀ [] before hok h.2 semid n hn
    rw [if_neg hid, show BitVec.ofInt 16 0 = (0 : BitVec 16) from rfl, sub_zero] at hval
    rw [adjFor, ← hval]
    rfl
  · exact adjFor_high (Nat.not_lt.1 hn) semid ent₀

theorem AdjustedTo.exact_iff (h : AdjustedTo s pr ix sops.reverse s' suptr)
    (hok : EntOk (s.undoOf pr)) :
    UndoExact s s' pr ix sops ↔ AdjustmentsFit (s.undoOf pr) ix sops := by
  have hrev : ∀ pre post : List Sembuf, sops = pre ++ post → sops.reverse = post.reverse ++ pre.reverse := by
    rintro pre post rfl
    exact reverse_append
  have hcount : ∀ ops : List Sembuf, undoCount ops.reverse = undoCount ops :=
    fun ops => countP_reverse
  constructor
  · intro hexact
    have hadj : ∀ n, adjFor (s'.undoOf pr) ix n = adjFor (s.undoOf pr) ix n - undoSum sops n := by
      intro n
      have hn := hexact.adj ix n
      rwa [if_pos rfl] at hn
    refine ⟨?_, ?_, ?_⟩
    · intro n _
      rw [← hadj n]
      exact ⟨BitVec.le_toInt _, BitVec.toInt_lt⟩
    · intro n hn
      have hzero := hadj n
      rw [adjFor_high hn, adjFor_high hn] at hzero
      omega
    · intro pre post hsops hused hpost n
      cases h.track with
      | null hs hno =>
        rw [hcount, hsops, undoCount, countP_append] at hno
        exact absurd (Nat.eq_zero_of_add_eq_zero_left hno) hpost
      | live hhas hent hkept => exact absurd hused (hkept _ _ (hrev pre post hsops))
      | freed ent hent hgone _ _ =>
        have hzero := hadj n
        rw [hgone] at hzero
        change 0 = _ at hzero
        omega
  · intro hfit
    cases h.track with
    | null hs hno =>
      rw [hcount] at hno
      refine ⟨?_, ?_, h.beside.others⟩
      · intro semid n
        rw [hs, undoSum_of_undoCount hno]
        split <;> rw [sub_zero]
      · rw [hs]
        exact hok.nonzero
    | live hhas hent hkept =>
      exact ⟨hfit.adjFor_eq hok hent, (entAfter_ok hok hent).1.nonzero, h.beside.others⟩
    | freed ent hent hgone hused hlast =>
      refine ⟨?_, by rw [hgone]; exact fun u hu => absurd hu not_mem_nil, h.beside.others⟩
      intro semid n
      rw [hgone]
      cases ent with
      | nil => exact hfit.adjFor_eq hok hent semid n
      | cons u us =>
        -- the entries that are lost are those of the operations behind the last entry
        obtain ⟨hd, tl, hsplit, husedtl⟩ := hused
        have hhd : undoCount hd.reverse ≠ 0 := by
          rw [hcount]
          intro hno
          rw [hsplit, entAfter_append_of_undoCount hno, husedtl.2] at hent
          cases hent
        have hsops : sops = tl.reverse ++ hd.reverse := by
          rw [← reverse_append, ← hsplit, reverse_reverse]
        have hzero := hfit.last tl.reverse hd.reverse hsops (by rwa [reverse_reverse]) hhd n
        change (0 : Int) = _
        by_cases hid : semid = ix
        · rw [if_pos hid, hid, hzero, sub_self]
        · rw [if_neg hid, husedtl.adjFor_other hok hid, sub_zero]

/-! ## The call -/

theorem semPass_through_count {sems sems' : List Sem} {ops : List Sembuf} {d d' i : Nat}
    {w w' : Bool} (h : semPass sems d w i ops = .through sems' d' w') : d' = d + undoCount ops := by
  rcases passes_split sems ops with hall | ⟨pre, op, post, rfl, hpre, hstop⟩
  · obtain ⟨w₁, hpass⟩ := semPass_through hall d w i
    rw [hpass] at h
    cases h
    rfl
  · rcases hstop with hout | ⟨sem, hsem, hdo⟩
    · rw [semPass_efbig hpre hout] at h
      cases h
    · obtain ⟨w₁, hpass⟩ := semPass_append hpre d w i (op :: post)
      rw [hpass, semPass_stop hsem hdo] at h
      cases h

theorem semTry_track {ds : SemidDs} {d : Nat} {w : Bool} (hone : OneEach s)
    (h : semTry info s pr ix ds sops d = .done s' w) :
    ∃ sems suptr, AdjustedTo (s.setSems ix sems) pr ix sops.reverse s' suptr := by
  rw [semTry] at h
  split at h
  · cases h
  · rename_i sems d' w' hpass
    have hd := semPass_through_count hpass
    split at h
    · cases h
    · split at h
      · rename_i hzero
        cases h
        refine ⟨sems, .null, .null rfl ?_, hone, .refl pr _⟩
        rw [undoCount, countP_reverse]
        exact Nat.eq_zero_of_add_eq_zero_left (hd.symm.trans hzero)
      · have hstart : AdjustedTo (s.setSems ix sems) pr ix [] (s.setSems ix sems) .null :=
          ⟨.null rfl rfl, hone, .refl pr _⟩
        split at h
        · rename_i s₁ happly
          cases h
          obtain ⟨suptr, hat⟩ := applyUndos_track hstart happly
          rw [append_nil] at hat
          exact ⟨sems, suptr, hat⟩
        · cases h
        · cases h
        · cases h
  · dsimp only at h
    split at h
    · cases h
    · split at h <;> cases h

/-- A call of `semop` on the set with the index `ix` returns 0, either at once or when
    its thread goes on after a sleep. -/
inductive SemopSucceeds (info : Seminfo) (s : SemState π) (pr : π) :
    (ix : Nat) → List Sembuf → SemState π → Prop where
  | call {a : SemopArgs} {s' : SemState π} {w : Bool} (h : sysSemop info s pr a = .done s' w) :
      SemopSucceeds info s pr (ipcidToIx a.semid) a.sops s'
  | resume {wt : SemWait} {s' : SemState π} {w : Bool}
      (h : semResume info s pr wt false = .done s' w) :
      SemopSucceeds info s pr wt.ix wt.sops s'

theorem SemopSucceeds.track (hone : OneEach s) (h : SemopSucceeds info s pr ix sops s') :
    ∃ s₁ suptr, s₁.semuList = s.semuList ∧ AdjustedTo s₁ pr ix sops.reverse s' suptr := by
  cases h with
  | @call a s' w h =>
    by_cases hreach : ∃ ds, ReachesVector info s a ds
    · obtain ⟨ds, hds⟩ := hreach
      rw [sysSemop_reaches hds] at h
      obtain ⟨sems, suptr, hat⟩ := semTry_track hone h
      refine ⟨_, suptr, ?_, hat⟩
      rfl
    · have hearly : (∃ e, sysSemop info s pr a = .error e s) ∨
          (a.sops = [] ∧ sysSemop info s pr a = .done s false) :=
        sysSemop_early pr (not_exists.1 hreach)
      rcases hearly with ⟨e, he⟩ | ⟨hnil, hdone⟩
      · rw [he] at h
        cases h
      · rw [hdone] at h
        cases h
        rw [hnil]
        exact ⟨s, .null, rfl, .null rfl rfl, hone, .refl pr s⟩
  | @resume wt s' w h =>
    rw [semResume] at h
    split at h
    · cases h
    · rename_i ds _
      simp only [Bool.false_eq_true, if_false] at h
      have hone' : OneEach (s.setSems wt.ix (countWaiter wt.op (-1) ds.semBase)) := hone
      obtain ⟨sems, suptr, hat⟩ := semTry_track hone' h
      refine ⟨_, suptr, ?_, hat⟩
      rfl

/-- **Exactly when a successful `semop` keeps the books.** -/
theorem semop_undoExact_iff {sops : List Sembuf} (hone : OneEach s) (hok : EntOk (s.undoOf pr))
    (h : SemopSucceeds info s pr ix sops s') :
    UndoExact s s' pr ix sops ↔ AdjustmentsFit (s.undoOf pr) ix sops := by
  obtain ⟨s₁, suptr, hlist, hat⟩ := h.track hone
  have hundo : ∀ q, s₁.undoOf q = s.undoOf q := by
    intro q
    rw [SemState.undoOf, hlist, SemState.undoOf]
  have hiff := hat.exact_iff (by rw [hundo]; exact hok)
  rw [hundo] at hiff
  rw [← hiff]
  constructor
  · intro hexact
    refine ⟨?_, hexact.nonzero, ?_⟩
    · rw [hundo]
      exact hexact.adj
    · intro q hq
      rw [hundo]
      exact hexact.others q hq
  · intro hexact
    refine ⟨?_, hexact.nonzero, ?_⟩
    · rw [← hundo]
      exact hexact.adj
    · intro q hq
      rw [← hundo]
      exact hexact.others q hq

end State

/-! ## One structure in every run -/

section Runs

variable {π : Type} [DecidableEq π] {info : Seminfo} {s s' : SemState π} {pr : π} {ix : Nat}

omit [DecidableEq π] in

omit [DecidableEq π] in
omit [DecidableEq π] in
variable {τ : Type} [DecidableEq τ] {proc : τ → π} {sys sys' : SemSystem τ π}

end Runs

/-! ## A call that loses an adjustment -/

/-- A set with two semaphores of value 0, and a process that took one unit from the
    first. -/
def oneUndo : SemState Unit where
  sema ix := if ix = 0 then some ⟨1, [⟨0, 0, 0⟩, ⟨0, 0, 0⟩]⟩ else none
  semseqs _ := 1
  semtot := 2
  semuList := [⟨(), [⟨1, 0, 0⟩]⟩]
  semutot := 1

theorem oneUndo_entOk : EntOk (oneUndo.undoOf ()) := by
  refine ⟨pairwise_singleton _ _, ?_, by decide⟩
  intro u hu
  obtain rfl := mem_singleton.1 hu
  decide

/-- It takes one more unit of the other semaphore, and both are in the books. -/
theorem oneUndo_exact : ∃ s', SemopSucceeds defaultSeminfo oneUndo () 0 [⟨1, 3, semUndoFlag⟩] s' ∧
    UndoExact oneUndo s' () 0 [⟨1, 3, semUndoFlag⟩] := by
  have hdone : SemopSucceeds defaultSeminfo oneUndo () 0 [⟨1, 3, semUndoFlag⟩]
      (({ oneUndo with semuList := [⟨(), [⟨1, 0, 0⟩, ⟨-3, 1, 0⟩]⟩] }).setSems 0
        [⟨0, 0, 0⟩, ⟨3, 0, 0⟩]) :=
    .call (a := ⟨0x10000, [⟨1, 3, semUndoFlag⟩], true, true⟩) (w := false) rfl
  have hfit : AdjustmentsFit (oneUndo.undoOf ()) 0 [⟨1, 3, semUndoFlag⟩] := by
    have hadj : ∀ n, adjFor (oneUndo.undoOf ()) 0 n = if n = 0 then 1 else 0 := by
      intro n
      have hundo : oneUndo.undoOf () = [⟨1, 0, 0⟩] := rfl
      have hfirst : (⟨1, 0, 0⟩ : Undo).isFor 0 0 = true := by decide
      have hfor := isFor_iff_of_isFor hfirst 0 n
      rw [hundo, adjFor, adjVal_cons]
      by_cases hn : n = 0
      · rw [if_pos (hfor.2 ⟨rfl, hn⟩), if_pos hn]
        rfl
      · rw [if_neg fun e => hn (hfor.1 e).2, if_neg hn]
        rfl
    have hsum : ∀ n, undoSum [⟨1, 3, semUndoFlag⟩] n = if n = 1 then 3 else 0 := by
      intro n
      rw [undoSum_cons, undoSum_nil, add_zero]
      by_cases hn : n = 1
      · rw [if_pos ⟨by decide, hn.symm⟩, if_pos hn]
        decide
      · rw [if_neg fun e => hn e.2.symm, if_neg hn]
    refine ⟨?_, ?_, ?_⟩
    · intro n _
      rw [hadj, hsum]
      split <;> split <;> omega
    · intro n hn
      rw [hsum, if_neg (by omega)]
    · -- nothing is used up in front of the only operation
      intro pre post hsops hused hpost
      rcases append_eq_singleton_iff.1 hsops.symm with ⟨rfl, rfl⟩ | ⟨rfl, rfl⟩
      · exact absurd rfl hused.1
      · exact absurd rfl hpost
  have hone : OneEach oneUndo := nodup_singleton _
  exact ⟨_, hdone, (semop_undoExact_iff hone oneUndo_entOk hdone).2 hfit⟩

/-- The unit given back, and one put into the other semaphore: the first operation
    gives the structure back, and the adjustment for the second is lost. -/
theorem semop_loses_undo : ∃ s',
    SemopSucceeds defaultSeminfo oneUndo () 0 [⟨0, 1, semUndoFlag⟩, ⟨1, 1, semUndoFlag⟩] s' ∧
      ¬ UndoExact oneUndo s' () 0 [⟨0, 1, semUndoFlag⟩, ⟨1, 1, semUndoFlag⟩] := by
  have hdone : SemopSucceeds defaultSeminfo oneUndo () 0
      [⟨0, 1, semUndoFlag⟩, ⟨1, 1, semUndoFlag⟩]
      (({ oneUndo with semuList := [], semutot := 0 }).setSems 0 [⟨1, 0, 0⟩, ⟨1, 0, 0⟩]) :=
    .call (a := ⟨0x10000, [⟨0, 1, semUndoFlag⟩, ⟨1, 1, semUndoFlag⟩], true, true⟩) (w := false) rfl
  refine ⟨_, hdone, fun h => ?_⟩
  have hlost := h.adj 0 1
  exact absurd hlost (by decide)

end OpenBsd.Kern
