/-
  OpenBsd.Kern.SysvSemSleep

  What is left in a call of `semop` of the tries that ended in a sleep.

  `do_undos` is set to 0 in front of the retry loop and not inside of it, so that the
  operations with an adjustment are counted once for every try that gets to them; the other
  state of the loop is set up again.  A set that is removed during the sleep is found by its
  sequence number.
-/

import OpenBsd.Kern.SysvSemExact

namespace OpenBsd.Kern

variable {sems : List Sem} {op : Sembuf} {suptr : Suptr} {sops : List Sembuf} {w : SemWait}

/-! ## How far a try gets -/

instance (val : BitVec 16) (op : Sembuf) : Decidable (CanDo val op) :=
  inferInstanceAs (Decidable (_ ∧ _))

/-- The operations in front of the first one that cannot be done. -/
@[simp] def doable (sems : List Sem) : List Sembuf → List Sembuf
  | [] => []
  | op :: rest =>
    match sems[op.semNum.toNat]? with
    | none => []
    | some sem =>
      if CanDo sem.semval op then op :: doable (shiftSems sems (netOp [op])) rest else []

theorem doable_append {pre : List Sembuf} (h : Passes sems pre) (rest : List Sembuf) :
    doable sems (pre ++ rest) = pre ++ doable (shiftSems sems (netOp pre)) rest := by
  induction pre generalizing sems with
  | nil =>
    rw [netOp_nil, shiftSems_zero]
    rfl
  | cons op pre ih =>
    obtain ⟨⟨sem, hsem, hdo⟩, hrest⟩ := h
    rw [List.cons_append, doable, hsem]
    simp only [if_pos hdo]
    rw [ih hrest, shiftSems_shiftSems, ← netOp_cons, List.cons_append]

theorem doable_stop {sem : Sem} (hsem : sems[op.semNum.toNat]? = some sem)
    (hdo : ¬ CanDo sem.semval op) (rest : List Sembuf) : doable sems (op :: rest) = [] := by
  rw [doable, hsem]
  exact if_neg hdo

theorem doable_out (hout : sems.length ≤ op.semNum.toNat) (rest : List Sembuf) :
    doable sems (op :: rest) = [] := by
  rw [doable, List.getElem?_eq_none_iff.2 hout]

/-- The end of a pass that started with `d` operations counted. -/
def PassEnd.addUndos (d : Nat) : PassEnd → PassEnd
  | .through sems n w => .through sems (d + n) w
  | .stop sems n i op => .stop sems (d + n) i op
  | .efbig sems => .efbig sems

theorem semPass_add (d : Nat) (sems : List Sem) (n : Nat) (w : Bool) (i : Nat)
    (ops : List Sembuf) :
    semPass sems (d + n) w i ops = (semPass sems n w i ops).addUndos d := by
  induction ops generalizing sems n w i with
  | nil => rfl
  | cons op ops ih =>
    have hcount : (if op.undoes then d + n + 1 else d + n) = d + if op.undoes then n + 1 else n := by
      split <;> rfl
    simp only [semPass, hcount]
    split
    · rfl
    · split
      · split
        · rfl
        · exact ih ..
      · split
        · split
          · rfl
          · exact ih ..
        · exact ih ..

theorem semPass_doable (sems : List Sem) (ops : List Sembuf) :
    (∃ w, doable sems ops = ops ∧ semPass sems 0 false 0 ops =
      .through (shiftSems sems (netOp ops)) (undoCount ops) w) ∨
    (∃ op post, ops = doable sems ops ++ op :: post ∧ sems.length ≤ op.semNum.toNat ∧
      semPass sems 0 false 0 ops = .efbig (shiftSems sems (netOp (doable sems ops)))) ∨
    (∃ op post, ops = doable sems ops ++ op :: post ∧ op.semNum.toNat < sems.length ∧
      semPass sems 0 false 0 ops = .stop (shiftSems sems (netOp (doable sems ops)))
        (undoCount (doable sems ops)) (doable sems ops).length op) := by
  rcases passes_split sems ops with hall | ⟨pre, op, post, rfl, hpre, hstop⟩
  · obtain ⟨w, hpass⟩ := semPass_through hall 0 false 0
    have hdo := doable_append hall []
    rw [List.append_nil] at hdo
    refine .inl ⟨w, ?_, by rw [hpass, Nat.zero_add]⟩
    rw [hdo]
    exact List.append_nil ops
  · rcases hstop with hout | ⟨sem, hsem, hdo⟩
    · have hpre' : doable sems (pre ++ op :: post) = pre := by
        rw [doable_append hpre, doable_out (by rw [length_shiftSems]; exact hout), List.append_nil]
      rw [hpre']
      exact .inr (.inl ⟨op, post, rfl, hout, semPass_efbig hpre hout 0 false 0⟩)
    · have hpre' : doable sems (pre ++ op :: post) = pre := by
        rw [doable_append hpre, doable_stop hsem hdo, List.append_nil]
      have hlt : op.semNum.toNat < sems.length := by
        have := (List.getElem?_eq_some_iff.1 hsem).1
        rwa [length_shiftSems] at this
      obtain ⟨w, hpass⟩ := semPass_append hpre 0 false 0 (op :: post)
      rw [hpre']
      refine .inr (.inr ⟨op, post, rfl, hlt, ?_⟩)
      rw [hpass, semPass_stop hsem hdo, Nat.zero_add, Nat.zero_add]

/-! ## The adjustments without a free structure -/

section State

variable {π : Type} [DecidableEq π] {info : Seminfo} {s s' : SemState π} {pr : π} {ix : Nat}
  {ds : SemidDs}

/-- The process has no undo structure, and none is free. -/
def NoStructure (info : Seminfo) (s : SemState π) (pr : π) : Prop :=
  ¬ HasUndo s pr ∧ s.semutot = info.semmnu

/-- With a structure the only error is `EINVAL`, and the structure is known afterwards. -/
inductive AdjustEnd.Holds : AdjustEnd π → Prop where
  | ok (s : SemState π) (suptr : Suptr) (h : suptr ≠ .null) : Holds (.ok s suptr)
  | error (s : SemState π) (suptr : Suptr) : Holds (.error .einval s suptr)
  | fault : Holds .fault

theorem adjustLive_holds (s : SemState π) (pr : π) (semnum : Nat) (adjval : Int) :
    (adjustLive s pr ix semnum adjval).Holds := by
  rw [adjustLive]
  cases adjustEnt (s.undoOf pr) ix semnum adjval with
  | kept ent => exact .ok _ _ Suptr.noConfusion
  | removed ent =>
    cases ent with
    | nil => exact .ok _ _ Suptr.noConfusion
    | cons u us => exact .ok _ _ Suptr.noConfusion
  | full => exact .error _ _

theorem semundoAdjust_holds (hsup : suptr ≠ .null ∨ ¬ NoStructure info s pr) (semnum : Nat)
    {adjval : Int} (hadj : adjval ≠ 0) :
    (semundoAdjust info s pr suptr ix semnum adjval).Holds := by
  cases suptr with
  | live => exact adjustLive_holds _ _ _ _
  | freed ent =>
    rw [semundoAdjust]
    cases adjustEnt ent ix semnum adjval with
    | kept ent' => exact .ok _ _ Suptr.noConfusion
    | removed ent' =>
      cases ent' with
      | nil => exact .fault
      | cons u us => exact .ok _ _ Suptr.noConfusion
    | full => exact .error _ _
  | null =>
    have hroom : ¬ NoStructure info s pr := hsup.resolve_left fun h => h rfl
    rw [semundoAdjust]
    split
    · exact adjustLive_holds _ _ _ _
    · rename_i hno
      -- no structure yet: one is taken from the pool
      have hfree : s.semutot ≠ info.semmnu := fun h => hroom ⟨hno, h⟩
      rw [semuAlloc, if_neg hfree]
      exact adjustLive_holds _ _ _ _

theorem unrollUndos_ne_error (s : SemState π) (suptr : Suptr) (before : List Sembuf) (e : SemErrno) :
    unrollUndos info s pr suptr ix before ≠ .error e s' := by
  induction before generalizing s suptr with
  | nil =>
    intro h
    cases h
  | cons op before ih =>
    rw [unrollUndos]
    split
    · cases semundoAdjust info s pr suptr ix op.semNum.toNat op.semOp.toInt with
      | ok s₁ suptr₁ => exact ih _ _
      | error e₁ s₁ suptr₁ =>
        intro h
        cases h
      | fault =>
        intro h
        cases h
    · exact ih _ _

theorem applyUndos_ne_enospc (hsup : suptr ≠ .null ∨ ¬ NoStructure info s pr)
    (before rest : List Sembuf) :
    applyUndos info s pr suptr ix before rest ≠ .error .enospc s' := by
  induction rest generalizing s suptr before with
  | nil =>
    rw [applyUndos]
    intro h
    cases h
  | cons op rest ih =>
    rw [applyUndos]
    split
    · rename_i hundo
      have hadj : (semundoAdjust info s pr suptr ix op.semNum.toNat (-op.semOp.toInt)).Holds :=
        semundoAdjust_holds hsup op.semNum.toNat (neg_semOp_ne_zero hundo)
      generalize semundoAdjust info s pr suptr ix op.semNum.toNat (-op.semOp.toInt) = r at hadj
      cases hadj with
      | ok s₁ suptr₁ hnull => exact ih (.inl hnull) _
      | error s₁ suptr₁ =>
        dsimp only
        split
        · intro h
          cases h
        · exact unrollUndos_ne_error _ _ _ _
      | fault =>
        intro h
        cases h
    · exact ih hsup _

theorem applyUndos_noStructure (hno : NoStructure info s pr) {before : List Sembuf}
    (hbefore : undoCount before = 0) (hsome : undoCount sops ≠ 0) :
    applyUndos info s pr .null ix before sops = .error .enospc s := by
  induction sops generalizing before with
  | nil => exact absurd rfl hsome
  | cons op rest ih =>
    rw [applyUndos]
    by_cases hundo : op.undoes = true
    · have hnone : ¬ (s.semuList.any (·.unProc = pr)) = true := hno.1
      rw [if_pos hundo, semundoAdjust, if_neg hnone, if_neg (neg_semOp_ne_zero hundo), semuAlloc,
        if_pos hno.2]
      dsimp only
      rw [unrollUndos_of_undoCount hbefore]
    · rw [if_neg hundo]
      rw [undoCount_cons_of_not hundo] at hsome
      exact ih ((undoCount_cons_of_not hundo _).trans hbefore) hsome

theorem applyUndos_of_undoCount (before : List Sembuf) (hnone : undoCount sops = 0) :
    applyUndos info s pr suptr ix before sops = .ok s := by
  induction sops generalizing before with
  | nil => rfl
  | cons op rest ih =>
    rw [applyUndos]
    by_cases hundo : op.undoes = true
    · rw [undoCount_cons_of_undoes hundo] at hnone
      exact absurd hnone (Nat.succ_ne_zero _)
    · rw [if_neg hundo]
      rw [undoCount_cons_of_not hundo] at hnone
      exact ih _ hnone

/-! ## One round -/

omit [DecidableEq π] in
theorem semPass_from (sems : List Sem) (d : Nat) (ops : List Sembuf) :
    semPass sems d false 0 ops = (semPass sems 0 false 0 ops).addUndos d :=
  semPass_add d sems 0 false 0 ops

/-- How a round ends behind the label `done`; `sems` is the set as it was before. -/
def undosDone (ix : Nat) (sems : List Sem) (b : Bool) : UndosEnd π → SemopEnd π
  | .ok s => .done s b
  | .error e s => .error e (s.setSems ix sems)
  | .panic => .panic
  | .fault => .fault

/-- The adjustments of a round that gets through the vector. -/
def undosOf (info : Seminfo) (s : SemState π) (pr : π) (ix : Nat) (ds : SemidDs)
    (sops : List Sembuf) : UndosEnd π :=
  applyUndos info (s.setSems ix (shiftSems ds.semBase (netOp sops))) pr .null ix [] sops

/-- The vector gets to a number behind the set. -/
def LeavesSet (sems : List Sem) (sops : List Sembuf) : Prop :=
  ∃ op post, sops = doable sems sops ++ op :: post ∧ sems.length ≤ op.semNum.toNat

theorem not_leavesSet_of_all (hall : doable sems sops = sops) : ¬ LeavesSet sems sops := by
  rintro ⟨op, post, hsplit, -⟩
  have hlen := congrArg List.length hsplit
  rw [hall, List.length_append, List.length_cons] at hlen
  omega

theorem not_leavesSet_of_stop {post : List Sembuf} (hsplit : sops = doable sems sops ++ op :: post)
    (hin : op.semNum.toNat < sems.length) : ¬ LeavesSet sems sops := by
  rintro ⟨op', post', hsplit', hout⟩
  have hrest := List.append_cancel_left (hsplit.symm.trans hsplit')
  obtain ⟨rfl, -⟩ := List.cons.inj hrest
  exact absurd hin (Nat.not_lt.2 hout)

/-- The end of a round, and what it has to do with the `d` adjustments counted before. -/
inductive Round (info : Seminfo) (s : SemState π) (pr : π) (ix : Nat) (ds : SemidDs)
    (sops : List Sembuf) : Prop where
  | through (b : Bool) (hall : doable ds.semBase sops = sops)
      (h : ∀ d, semTry info s pr ix ds sops d =
        if semume < d + undoCount sops then .error .enospc (s.setSems ix ds.semBase)
        else undosDone ix ds.semBase b (undosOf info s pr ix ds sops))
  | leaves (s' : SemState π) (hout : LeavesSet ds.semBase sops)
      (h : ∀ d, semTry info s pr ix ds sops d = .error .efbig s')
  | stop (op : Sembuf) (hne : doable ds.semBase sops ≠ sops) (hin : ¬ LeavesSet ds.semBase sops)
      (h : ∀ d, semTry info s pr ix ds sops d =
        if semume < d + undoCount (doable ds.semBase sops) then
          .error .enospc (s.setSems ix ds.semBase)
        else if op.semFlg &&& ipcNowait ≠ 0 then .error .eagain (s.setSems ix ds.semBase)
        else .sleep (s.setSems ix (countWaiter op 1 ds.semBase))
          ⟨ix, sops, d + undoCount (doable ds.semBase sops), op⟩)

theorem semTry_round (info : Seminfo) (s : SemState π) (pr : π) (ix : Nat) (ds : SemidDs)
    (sops : List Sembuf) : Round info s pr ix ds sops := by
  rcases semPass_doable ds.semBase sops with ⟨b, hall, hpass⟩ | ⟨op, post, hsplit, hout, hpass⟩ |
    ⟨op, post, hsplit, hin, hpass⟩
  · refine .through b hall fun d => ?_
    rw [semTry, semPass_from, hpass]
    simp only [PassEnd.addUndos, semRollback_shiftSems]
    split
    · rfl
    · split
      · rename_i hzero
        -- nothing was counted, in this round or before
        rw [undosOf, applyUndos_of_undoCount [] (Nat.eq_zero_of_add_eq_zero_left hzero)]
        rfl
      · rw [undosOf]
        cases applyUndos info (s.setSems ix (shiftSems ds.semBase (netOp sops))) pr .null ix [] sops with
        | ok s₁ => rfl
        | error e s₁ => rfl
        | panic => rfl
        | fault => rfl
  · refine .leaves (s.setSems ix (shiftSems ds.semBase (netOp (doable ds.semBase sops))))
      ⟨op, post, hsplit, hout⟩ fun d => ?_
    rw [semTry, semPass_from, hpass]
    rfl
  · refine .stop op ?_ (not_leavesSet_of_stop hsplit hin) fun d => ?_
    · intro hall
      have hlen := congrArg List.length hsplit
      rw [hall, List.length_append, List.length_cons] at hlen
      omega
    · have htake : sops.take (doable ds.semBase sops).length = doable ds.semBase sops := by
        have hprefix : doable ds.semBase sops <+: sops := ⟨op :: post, hsplit.symm⟩
        exact (List.prefix_iff_eq_take.1 hprefix).symm
      rw [semTry, semPass_from, hpass]
      simp only [PassEnd.addUndos, htake, semRollback_shiftSems]

/-! ## A call with its sleeps -/

/-- `sys_semop` behind `tsleep`: the set must be there, with the sequence number of the
    identifier, and not one made in its place. -/
def semWakeup (info : Seminfo) (s : SemState π) (pr : π) (semid : BitVec 32) (w : SemWait)
    (intr : Bool) : SemopEnd π :=
  match s.find info semid with
  | none => .error .eidrm s
  | some _ => semResume info s pr w intr

/-- The rounds of a call that ended in a sleep, last one first, with the values each of them
    found. Whatever other threads do in between, the state is any one in which the set is
    still there. -/
inductive Attempts (info : Seminfo) (pr : π) (a : SemopArgs) : List (List Sem) → SemWait → Prop where
  | call {s s' : SemState π} {ds : SemidDs} {w : SemWait} (hfind : s.find info a.semid = some ds)
      (h : sysSemop info s pr a = .sleep s' w) : Attempts info pr a [ds.semBase] w
  | again {tries : List (List Sem)} {s s' : SemState π} {ds : SemidDs} {w w' : SemWait}
      (hsleep : Attempts info pr a tries w) (hfind : s.find info a.semid = some ds)
      (h : semWakeup info s pr a.semid w false = .sleep s' w') :
      Attempts info pr a ((awake w ds).semBase :: tries) w'

/-- The adjustments of the operations that were done in earlier rounds. -/
def countedBefore (tries : List (List Sem)) (sops : List Sembuf) : Nat :=
  (tries.map fun sems => undoCount (doable sems sops)).sum

theorem semTry_sleep {d : Nat} (h : semTry info s pr ix ds sops d = .sleep s' w) :
    w.ix = ix ∧ w.sops = sops ∧ w.doUndos = d + undoCount (doable ds.semBase sops) := by
  cases semTry_round info s pr ix ds sops with
  | through b hall hround =>
    rw [hround] at h
    split at h
    · cases h
    · cases hundos : undosOf info s pr ix ds sops <;> rw [hundos] at h <;> cases h
  | leaves s₁ hout hround =>
    rw [hround] at h
    cases h
  | stop op hne hin hround =>
    rw [hround] at h
    split at h
    · cases h
    · split at h
      · cases h
      · cases h
        exact ⟨rfl, rfl, rfl⟩

theorem semWakeup_eq {semid : BitVec 32} (hfind : s.find info semid = some ds)
    (hix : w.ix = ipcidToIx semid) :
    semWakeup info s pr semid w false =
      semTry info (s.setSems w.ix (awake w ds).semBase) pr w.ix (awake w ds) w.sops w.doUndos := by
  have hsema : s.sema w.ix = some ds := hix ▸ find_sema hfind
  rw [semWakeup, hfind]
  dsimp only
  rw [semResume, hsema]
  rfl

theorem Attempts.wait {a : SemopArgs} {tries : List (List Sem)} (h : Attempts info pr a tries w) :
    w.ix = ipcidToIx a.semid ∧ w.sops = a.sops ∧ w.doUndos = countedBefore tries a.sops := by
  induction h with
  | @call s s' ds w hfind h =>
    by_cases hreach : ReachesVector info s a ds
    · rw [sysSemop_reaches hreach] at h
      obtain ⟨hix, hsops, hcount⟩ := semTry_sleep h
      exact ⟨hix, hsops, hcount.trans (Nat.add_comm _ _)⟩
    · have hnone : ∀ ds', ¬ ReachesVector info s a ds' := by
        intro ds' hds'
        obtain rfl : ds = ds' := Option.some.inj (hfind.symm.trans hds'.1)
        exact hreach hds'
      rcases sysSemop_early pr hnone with ⟨e, he⟩ | ⟨-, hdone⟩
      · rw [he] at h
        cases h
      · rw [hdone] at h
        cases h
  | @again tries s s' ds w w' hsleep hfind h ih =>
    obtain ⟨hix, hsops, hcount⟩ := ih
    rw [semWakeup_eq hfind hix] at h
    obtain ⟨hix', hsops', hcount'⟩ := semTry_sleep h
    refine ⟨hix'.trans hix, hsops'.trans hsops, ?_⟩
    rw [hcount', hcount, hsops, Nat.add_comm]
    rfl

/-! ## The end of the call -/

/-- What the call does at the last wake-up, unless it sleeps again, is what a call would do
    that applies its vector to the same values for the first time. -/
def EndsAsFresh (info : Seminfo) (s : SemState π) (pr : π) (semid : BitVec 32) (w : SemWait)
    (ds : SemidDs) : Prop :=
  (∀ s' w', semWakeup info s pr semid w false ≠ .sleep s' w') →
    semWakeup info s pr semid w false =
      semTry info (s.setSems w.ix (awake w ds).semBase) pr w.ix (awake w ds) w.sops 0

/-- The adjustments counted before do not matter to a round with the values `sems`. -/
def CountsFit (info : Seminfo) (s : SemState π) (pr : π) (tries : List (List Sem))
    (sems : List Sem) (sops : List Sembuf) : Prop :=
  let now := undoCount (doable sems sops)
  countedBefore tries sops + now ≤ semume ∨ semume < now ∨ LeavesSet sems sops ∨
    doable sems sops = sops ∧ now ≠ 0 ∧ NoStructure info s pr

omit [DecidableEq π] in
theorem setSems_setSems (xs ys : List Sem) : (s.setSems ix xs).setSems ix ys = s.setSems ix ys := by
  simp only [SemState.setSems, Function.update_self, Function.update_idem, Option.map_map]
  rfl

/-- Without the adjustments of the earlier rounds the call gets through; with them it is
    refused, and that is right only when it lacks a structure. -/
theorem undosDone_enospc_iff {b : Bool} :
    .error .enospc (s.setSems ix ds.semBase) =
        undosDone ix ds.semBase b (undosOf info s pr ix ds sops) ↔
      undoCount sops ≠ 0 ∧ NoStructure info s pr := by
  constructor
  · intro h
    by_cases hzero : undoCount sops = 0
    · rw [undosOf, applyUndos_of_undoCount [] hzero] at h
      cases h
    · refine ⟨hzero, ?_⟩
      by_contra hroom
      have hroom' : ¬ NoStructure info (s.setSems ix (shiftSems ds.semBase (netOp sops))) pr := hroom
      have hne : ∀ s₁, undosOf info s pr ix ds sops ≠ .error .enospc s₁ :=
        fun _ => applyUndos_ne_enospc (.inr hroom') [] sops
      cases hundos : undosOf info s pr ix ds sops with
      | error e s₁ =>
        rw [hundos] at h
        obtain ⟨rfl, -⟩ := SemopEnd.error.inj h
        exact hne s₁ hundos
      | ok s₁ => rw [hundos] at h; cases h
      | panic => rw [hundos] at h; cases h
      | fault => rw [hundos] at h; cases h
  · rintro ⟨hsome, hno⟩
    have hno' : NoStructure info (s.setSems ix (shiftSems ds.semBase (netOp sops))) pr := hno
    have hnil : undoCount [] = 0 := rfl
    have hundos : undosOf info s pr ix ds sops =
        .error .enospc (s.setSems ix (shiftSems ds.semBase (netOp sops))) :=
      applyUndos_noStructure hno' hnil hsome
    rw [hundos, undosDone, setSems_setSems]

/-- The outcome is that of a call that begins at the last wake-up exactly when the
    adjustments counted in the rounds before do not take the count over `SEMUME`, or the
    call fails in any case. -/
theorem semop_endsAsFresh_iff {a : SemopArgs} {tries : List (List Sem)} {w : SemWait}
    (hrun : Attempts info pr a tries w) (hfind : s.find info a.semid = some ds) :
    EndsAsFresh info s pr a.semid w ds ↔
      CountsFit info s pr tries (awake w ds).semBase a.sops := by
  obtain ⟨hix, hsops, hcount⟩ := hrun.wait
  rw [EndsAsFresh, CountsFit, semWakeup_eq hfind hix, hsops, hcount]
  generalize countedBefore tries a.sops = d
  generalize hds : awake w ds = ds'
  cases semTry_round info (s.setSems w.ix ds'.semBase) pr w.ix ds' a.sops with
  | leaves s' hout hround =>
    rw [hround, hround]
    exact ⟨fun _ => .inr (.inr (.inl hout)), fun _ _ => rfl⟩
  | through b hall hround =>
    rw [hround, hround, Nat.zero_add, hall]
    have hleaves := not_leavesSet_of_all hall
    by_cases hmany : semume < d + undoCount a.sops
    · by_cases hnow : semume < undoCount a.sops
      · rw [if_pos hmany, if_pos hnow]
        exact ⟨fun _ => .inr (.inl hnow), fun _ _ => rfl⟩
      · rw [if_pos hmany, if_neg hnow]
        constructor
        · intro h
          have hno := undosDone_enospc_iff.1 (h nofun)
          exact .inr (.inr (.inr ⟨rfl, hno⟩))
        · rintro (h | h | h | ⟨-, h⟩) -
          · exact absurd hmany (Nat.not_lt.2 h)
          · exact absurd h hnow
          · exact absurd h hleaves
          · exact undosDone_enospc_iff.2 h
    · have hnow : ¬ semume < undoCount a.sops := by omega
      rw [if_neg hmany, if_neg hnow]
      exact ⟨fun _ => .inl (Nat.not_lt.1 hmany), fun _ _ => rfl⟩
  | stop op hne hleaves hround =>
    rw [hround, hround, Nat.zero_add]
    by_cases hmany : semume < d + undoCount (doable ds'.semBase a.sops)
    · by_cases hnow : semume < undoCount (doable ds'.semBase a.sops)
      · rw [if_pos hmany, if_pos hnow]
        exact ⟨fun _ => .inr (.inl hnow), fun _ _ => rfl⟩
      · rw [if_pos hmany, if_neg hnow]
        constructor
        · intro h
          have hend := h nofun
          split at hend
          · exact absurd (SemopEnd.error.inj hend).1 SemErrno.noConfusion
          · cases hend
        · rintro (h | h | h | ⟨h, -⟩)
          · exact absurd hmany (Nat.not_lt.2 h)
          · exact absurd h hnow
          · exact absurd h hleaves
          · exact absurd h hne
    · have hnow : ¬ semume < undoCount (doable ds'.semBase a.sops) := by omega
      rw [if_neg hmany, if_neg hnow]
      refine ⟨fun _ => .inl (Nat.not_lt.1 hmany), fun _ hawake => ?_⟩
      split
      · rfl
      · rename_i hwait
        rw [if_neg hwait] at hawake
        exact absurd rfl (hawake _ _)

end State

/-- A set with two semaphores, of values 0 and `val`; `cnt` threads wait for the second. -/
def twoSems (val cnt : BitVec 16) : SemState Unit where
  sema ix := if ix = 0 then some ⟨1, [⟨0, 0, 0⟩, ⟨val, cnt, 0⟩]⟩ else none
  semseqs _ := 1
  semtot := 2
  semuList := []
  semutot := 0

/-- The first semaphore goes up `n` times and then the second one down, all with an
    adjustment. -/
def upsThenDown (n : Nat) : SemopArgs where
  semid := 0x10000
  sops := List.replicate n ⟨0, 1, semUndoFlag⟩ ++ [⟨1, -1, semUndoFlag⟩]
  perm := true
  copied := true

/-- The call of `upsThenDown n` while it sleeps. -/
def upsWait (n : Nat) : SemWait := ⟨0, (upsThenDown n).sops, n, ⟨1, -1, semUndoFlag⟩⟩

/-- Four ups are counted twice and the down once, which is not too many. -/
theorem fourUps_endsAsFresh :
    ∃ tries, Attempts defaultSeminfo () (upsThenDown 4) tries (upsWait 4) ∧
      EndsAsFresh defaultSeminfo (twoSems 1 1) () 0x10000 (upsWait 4)
        ⟨1, [⟨0, 0, 0⟩, ⟨1, 1, 0⟩]⟩ := by
  have hcall : Attempts defaultSeminfo () (upsThenDown 4) [[⟨0, 0, 0⟩, ⟨0, 0, 0⟩]] (upsWait 4) :=
    @Attempts.call Unit _ defaultSeminfo () _ (twoSems 0 0) _ ⟨1, [⟨0, 0, 0⟩, ⟨0, 0, 0⟩]⟩ _ rfl rfl
  exact ⟨_, hcall, (semop_endsAsFresh_iff hcall rfl).2 (.inl (by decide))⟩

/-- With five ups the call is refused after one sleep, although it has six adjustments. -/
theorem fiveUps_refused :
    ∃ tries, Attempts defaultSeminfo () (upsThenDown 5) tries (upsWait 5) ∧
      undoCount (upsThenDown 5).sops ≤ semume ∧
      (∃ s', semWakeup defaultSeminfo (twoSems 1 1) () 0x10000 (upsWait 5) false =
        .error .enospc s') ∧
      ¬ EndsAsFresh defaultSeminfo (twoSems 1 1) () 0x10000 (upsWait 5)
        ⟨1, [⟨0, 0, 0⟩, ⟨1, 1, 0⟩]⟩ := by
  have hcall : Attempts defaultSeminfo () (upsThenDown 5) [[⟨0, 0, 0⟩, ⟨0, 0, 0⟩]] (upsWait 5) :=
    @Attempts.call Unit _ defaultSeminfo () _ (twoSems 0 0) _ ⟨1, [⟨0, 0, 0⟩, ⟨0, 0, 0⟩]⟩ _ rfl rfl
  have hend : ∃ s', semWakeup defaultSeminfo (twoSems 1 1) () 0x10000 (upsWait 5) false =
      .error .enospc s' := ⟨_, rfl⟩
  refine ⟨_, hcall, by decide, hend, ?_⟩
  obtain ⟨s', hs'⟩ := hend
  intro h
  rw [EndsAsFresh, hs'] at h
  cases h nofun

end OpenBsd.Kern
