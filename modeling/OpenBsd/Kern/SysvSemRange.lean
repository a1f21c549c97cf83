/-
  OpenBsd.Kern.SysvSemRange

  The values of semaphores over whole runs of `semop`, `SETVAL`, `SETALL` and `semexit`.

  Nothing checks a bound when a value goes up, so that it can pass `SEMVMX` and wrap.  A
  value only wraps upwards: if the sum of the operations stays within the bound, no
  operation of the vector has wrapped.
-/

import OpenBsd.Lib.Run
import OpenBsd.Kern.SysvSemAtomic

namespace OpenBsd.Kern

open OpenBsd.Lib List Function Option

variable {op : Sembuf} {sems sems' : List Sem} {ops sops : List Sembuf} {n : Nat} {ent : List Undo}
  {sema : Nat → Option SemidDs}

/-! ## Sums without wrapping -/

/-- The sum of the operations on a semaphore. -/
def netInt : List Sembuf → Nat → Int
  | [], _ => 0
  | op :: ops, n => (if op.semNum.toNat = n then op.semOp.toInt else 0) + netInt ops n

theorem toNat_add_op {val : BitVec 16} (h : CanDo val op) :
    ((val + op.semOp).toNat : Int) = val.toNat + op.semOp.toInt ∨
      ((val + op.semOp).toNat : Int) = val.toNat + op.semOp.toInt - 2 ^ 16 := by
  have hval := val.isLt
  have hlo := BitVec.le_toInt op.semOp
  have hhi := BitVec.toInt_lt (x := op.semOp)
  have hsum : ((val + op.semOp).toNat : Int) = (val.toNat + op.semOp.toInt) % 2 ^ 16 := by
    rw [BitVec.toNat_add, BitVec.toInt_eq_toNat_cond]
    split <;> omega
  by_cases hneg : op.semOp.toInt < 0
  · have := h.1 hneg
    omega
  · omega

theorem passes_value (h : Passes sems ops) {sem : Sem} (hsem : sems[n]? = some sem) :
    ∃ k : Nat, ((sem.semval + netOp ops n).toNat : Int) =
      sem.semval.toNat + netInt ops n - 2 ^ 16 * k := by
  induction ops generalizing sems sem with
  | nil => exact ⟨0, by simp [netOp, netInt]⟩
  | cons op ops ih =>
    obtain ⟨⟨sem₁, hsem₁, hdo⟩, hrest⟩ := h
    have hnext : (shiftSems sems (netOp [op]))[n]? =
        some { sem with semval := sem.semval + netOp [op] n } := by
      rw [getElem?_shiftSems, hsem]
      rfl
    obtain ⟨k, hk⟩ := ih hrest hnext
    simp only at hk
    have hnet : sem.semval + netOp (op :: ops) n = sem.semval + netOp [op] n + netOp ops n := by
      rw [netOp_cons, add_assoc]
    rw [hnet, hk]
    by_cases hn : op.semNum.toNat = n
    · obtain rfl : sem₁ = sem := by
        rw [hn, hsem] at hsem₁
        exact (Option.some.inj hsem₁).symm
      have hone : netOp [op] n = op.semOp := by simp [netOp, hn]
      rw [hone, netInt, if_pos hn]
      rcases toNat_add_op hdo with hexact | hwrap
      · exact ⟨k, by omega⟩
      · exact ⟨k + 1, by push_cast; omega⟩
    · have hone : netOp [op] n = 0#16 := by simp [netOp, hn]
      rw [hone, netInt, if_neg hn]
      exact ⟨k, by simp⟩

/-- All values are within `SEMVMX`. -/
def SemsIn (sems : List Sem) : Prop := ∀ sem ∈ sems, sem.semval.toNat ≤ semvmx

/-- The sums of the operations are within `SEMVMX`. -/
def SumsFit (sems : List Sem) (ops : List Sembuf) : Prop :=
  ∀ n sem, sems[n]? = some sem → (sem.semval.toNat : Int) + netInt ops n ≤ semvmx

/-- The values are changed by exactly the sums of the operations. -/
def ExactSums (sems sems' : List Sem) (ops : List Sembuf) : Prop :=
  sems'.length = sems.length ∧ ∀ n sem sem', sems[n]? = some sem → sems'[n]? = some sem' →
    (sem'.semval.toNat : Int) = sem.semval.toNat + netInt ops n

theorem exactSums_shiftSems (h : Passes sems ops) (hfit : SumsFit sems ops) :
    ExactSums sems (shiftSems sems (netOp ops)) ops := by
  refine ⟨length_shiftSems _ _, ?_⟩
  intro n sem sem' hsem hsem'
  obtain ⟨k, hk⟩ := passes_value h hsem
  have hbound := hfit n sem hsem
  rw [getElem?_shiftSems, hsem, map_some] at hsem'
  cases hsem'
  rw [semvmx] at hbound
  -- the value is not negative, so that nothing was taken off
  simp only
  omega

theorem semsIn_shiftSems (h : Passes sems ops) (hfit : SumsFit sems ops) :
    SemsIn (shiftSems sems (netOp ops)) := by
  intro sem' hmem
  obtain ⟨n, hn⟩ := mem_iff_getElem?.1 hmem
  have hlt : n < sems.length := by
    have := (List.getElem?_eq_some_iff.1 hn).1
    rwa [length_shiftSems] at this
  have hsem := getElem?_eq_getElem hlt
  have hexact := (exactSums_shiftSems h hfit).2 n _ sem' hsem hn
  have hbound := hfit n _ hsem
  omega

theorem semsIn_of_map (h : sems'.map Sem.semval = sems.map Sem.semval) (hin : SemsIn sems) :
    SemsIn sems' := by
  intro sem hsem
  have hmem : sem.semval ∈ sems.map Sem.semval := by
    rw [← h]
    exact List.mem_map_of_mem hsem
  obtain ⟨sem₁, hsem₁, hval⟩ := List.mem_map.1 hmem
  rw [← hval]
  exact hin sem₁ hsem₁

theorem map_semval_countWaiter (op : Sembuf) (diff : BitVec 16) (sems : List Sem) :
    (countWaiter op diff sems).map Sem.semval = sems.map Sem.semval := by
  refine ext_getElem? fun n => ?_
  rw [countWaiter, getElem?_map, getElem?_map, getElem?_modify, Option.map_eq_map, Option.map_map]
  congr 1
  funext sem
  by_cases hn : op.semNum.toNat = n
  · simp only [Function.comp, if_pos hn]
    split <;> rfl
  · simp [hn]

/-! ## The end of a call -/

section Calls

variable {π : Type} [DecidableEq π] {info : Seminfo} {s s' : SemState π} {pr : π} {ix : Nat}
  {ds : SemidDs}

/-- All values of all sets are within `SEMVMX`. -/
def ValuesIn (s : SemState π) : Prop := ∀ ix ds, s.sema ix = some ds → SemsIn ds.semBase

/-- The sets stay as they are, and the entries are well formed. -/
structure UndoInv (sema : Nat → Option SemidDs) (s : SemState π) : Prop where
  sema_eq : s.sema = sema
  ents : ∀ u ∈ s.semuList, EntOk u.unEnt

def AdjustEnd.All (I : SemState π → Prop) : AdjustEnd π → Prop
  | .ok s _ => I s
  | .error _ s _ => I s
  | .fault => True

def UndosEnd.All (I : SemState π → Prop) : UndosEnd π → Prop
  | .ok s => I s
  | .error _ s => I s
  | .panic => True
  | .fault => True

theorem mem_setEnt {us : List (SemUndo π)} {u : SemUndo π} (h : u ∈ setEnt pr ent us) :
    u ∈ us ∨ u.unEnt = ent := by
  induction us with
  | nil => cases h
  | cons v us ih =>
    rw [setEnt] at h
    split at h
    · rcases mem_cons.1 h with rfl | h
      · exact .inr rfl
      · exact .inl (mem_cons_of_mem _ h)
    · rcases mem_cons.1 h with rfl | h
      · exact .inl mem_cons_self
      · exact (ih h).imp_left (mem_cons_of_mem _)

theorem UndoInv.undoOf (h : UndoInv sema s) (pr : π) : EntOk (s.undoOf pr) := by
  rw [SemState.undoOf]
  split
  · rename_i u hu
    exact h.ents u (mem_of_find?_eq_some hu)
  · exact EntOk.nil

theorem UndoInv.setEnt (h : UndoInv sema s) (hok : EntOk ent) :
    UndoInv sema { s with semuList := Kern.setEnt pr ent s.semuList } := by
  refine ⟨h.sema_eq, ?_⟩
  intro u hu
  rcases mem_setEnt hu with hu | hu
  · exact h.ents u hu
  · rw [hu]
    exact hok

theorem adjustLive_inv (h : UndoInv sema s) (hundo : op.undoes = true) (back : Bool) :
    (adjustLive s pr ix op.semNum.toNat (if back then op.semOp.toInt else -op.semOp.toInt)).All
      (UndoInv sema) := by
  have hok : ∀ ent, (adjustFor (s.undoOf pr) ix op back).ent = some ent → EntOk ent := by
    intro ent he
    exact (adjustFor_moved (h.undoOf pr) hundo he).entOk (h.undoOf pr) (adj_ne_zero hundo back)
  rw [adjustFor] at hok
  rw [adjustLive]
  generalize adjustEnt (s.undoOf pr) ix op.semNum.toNat _ = r at hok
  cases r with
  | kept ent => exact h.setEnt (hok ent rfl)
  | removed ent =>
    cases ent with
    | nil => exact ⟨h.sema_eq, fun u hu => h.ents u (mem_of_mem_eraseP hu)⟩
    | cons u us => exact h.setEnt (hok _ rfl)
  | full => exact h

theorem semundoAdjust_inv (info : Seminfo) (pr : π) (ix : Nat) (h : UndoInv sema s)
    (hundo : op.undoes = true) (suptr : Suptr) (back : Bool) :
    (semundoAdjust info s pr suptr ix op.semNum.toNat
      (if back then op.semOp.toInt else -op.semOp.toInt)).All (UndoInv sema) := by
  cases suptr with
  | live => exact adjustLive_inv h hundo back
  | null =>
    rw [semundoAdjust]
    by_cases hhas : s.semuList.any (·.unProc = pr) = true
    · rw [if_pos hhas]
      exact adjustLive_inv h hundo back
    · rw [if_neg hhas]
      by_cases hzero : (if back then op.semOp.toInt else -op.semOp.toInt) = 0
      · rw [if_pos hzero]
        exact h
      · rw [if_neg hzero, semuAlloc]
        by_cases hmany : s.semutot = info.semmnu
        · rw [if_pos hmany]
          exact h
        · rw [if_neg hmany]
          have hnew : UndoInv sema { s with
              semuList := ⟨pr, []⟩ :: s.semuList, semutot := s.semutot + 1 } := by
            refine ⟨h.sema_eq, ?_⟩
            intro u hu
            rcases mem_cons.1 hu with rfl | hu
            · exact EntOk.nil
            · exact h.ents u hu
          exact adjustLive_inv hnew hundo back
  | freed ent =>
    rw [semundoAdjust]
    cases adjustEnt ent ix op.semNum.toNat (if back then op.semOp.toInt else -op.semOp.toInt) with
    | kept ent' => exact h
    | removed ent' =>
      cases ent' with
      | nil => exact trivial
      | cons u us => exact h
    | full => exact h

theorem unrollUndos_inv (info : Seminfo) (pr : π) (ix : Nat) (h : UndoInv sema s) (suptr : Suptr)
    (before : List Sembuf) : (unrollUndos info s pr suptr ix before).All (UndoInv sema) := by
  induction before generalizing s suptr with
  | nil => exact h
  | cons op before ih =>
    rw [unrollUndos]
    by_cases hundo : op.undoes = true
    · rw [if_pos hundo]
      have hadj := semundoAdjust_inv info pr ix h hundo suptr true
      rw [if_pos rfl] at hadj
      generalize semundoAdjust info s pr suptr ix op.semNum.toNat op.semOp.toInt = r at hadj
      cases r with
      | ok s₁ suptr₁ => exact ih hadj suptr₁
      | error e s₁ suptr₁ => exact trivial
      | fault => exact trivial
    · rw [if_neg hundo]
      exact ih h suptr

theorem applyUndos_inv (info : Seminfo) (pr : π) (ix : Nat) (h : UndoInv sema s) (suptr : Suptr)
    (before rest : List Sembuf) :
    (applyUndos info s pr suptr ix before rest).All (UndoInv sema) := by
  induction rest generalizing s suptr before with
  | nil => exact h
  | cons op rest ih =>
    rw [applyUndos]
    by_cases hundo : op.undoes = true
    · rw [if_pos hundo]
      have hadj := semundoAdjust_inv info pr ix h hundo suptr false
      rw [if_neg Bool.false_ne_true] at hadj
      generalize semundoAdjust info s pr suptr ix op.semNum.toNat (-op.semOp.toInt) = r at hadj
      cases r with
      | ok s₁ suptr₁ => exact ih hadj suptr₁ _
      | error e s₁ suptr₁ =>
        have hunroll := unrollUndos_inv info pr ix hadj suptr₁ before
        simp only
        generalize unrollUndos info s₁ pr suptr₁ ix before = r at hunroll
        cases r <;> exact hunroll
      | fault => exact trivial
    · rw [if_neg hundo]
      exact ih h suptr _

/-- How a round of `sys_semop` ends, with what is left in the sets. -/
inductive TryEnd (s : SemState π) (ix : Nat) (ds : SemidDs) (sops : List Sembuf) :
    SemopEnd π → Prop where
  | done {s' : SemState π} {w : Bool} (hpass : Passes ds.semBase sops)
      (h : UndoInv (s.setSems ix (shiftSems ds.semBase (netOp sops))).sema s') :
      TryEnd s ix ds sops (.done s' w)
  | same {s' : SemState π} {e : SemErrno} (h : UndoInv s.sema s') : TryEnd s ix ds sops (.error e s')
  | efbig {s' : SemState π} (pre : List Sembuf) (op : Sembuf) (post : List Sembuf)
      (hsops : sops = pre ++ op :: post) (hpre : Passes ds.semBase pre)
      (hout : ds.semBase.length ≤ op.semNum.toNat)
      (h : UndoInv (s.setSems ix (shiftSems ds.semBase (netOp pre))).sema s') :
      TryEnd s ix ds sops (.error .efbig s')
  | sleep {s' : SemState π} {w : SemWait}
      (h : UndoInv (s.setSems ix (countWaiter w.op 1 ds.semBase)).sema s') :
      TryEnd s ix ds sops (.sleep s' w)
  | panic : TryEnd s ix ds sops .panic
  | fault : TryEnd s ix ds sops .fault

theorem semTry_end (info : Seminfo) (pr : π) (hix : s.sema ix = some ds)
    (hents : ∀ u ∈ s.semuList, EntOk u.unEnt) (sops : List Sembuf) (doUndos : Nat) :
    TryEnd s ix ds sops (semTry info s pr ix ds sops doUndos) := by
  have hinv : ∀ sems, UndoInv (s.setSems ix sems).sema (s.setSems ix sems) := fun _ => ⟨rfl, hents⟩
  rw [semTry]
  rcases passes_split ds.semBase sops with hall | ⟨pre, op, post, rfl, hpre, hstop⟩
  · obtain ⟨w, hpass⟩ := semPass_through hall doUndos false 0
    rw [hpass]
    simp only [semRollback_shiftSems, setSems_self hix]
    split
    · exact .same ⟨rfl, hents⟩
    · split
      · exact .done hall (hinv _)
      · have hundos := applyUndos_inv info pr ix (hinv (shiftSems ds.semBase (netOp sops))) .null []
          sops
        generalize applyUndos info (s.setSems ix (shiftSems ds.semBase (netOp sops))) pr .null ix []
          sops = r at hundos
        cases r with
        | ok s₁ => exact .done hall hundos
        | error e s₁ =>
          refine .same ⟨?_, hundos.ents⟩
          simp only [SemState.setSems, hundos.sema_eq, update_self, update_idem, hix, map_some]
          exact update_eq_self_iff.2 hix.symm
        | panic => exact .panic
        | fault => exact .fault
  · rcases hstop with hout | ⟨sem, hsem, hdo⟩
    · rw [semPass_efbig hpre hout]
      exact .efbig pre op post rfl hpre hout (hinv _)
    · obtain ⟨w, hpass⟩ := semPass_append hpre doUndos false 0 (op :: post)
      rw [hpass, semPass_stop hsem hdo]
      simp only [Nat.zero_add, take_left, semRollback_shiftSems, setSems_self hix]
      split
      · exact .same ⟨rfl, hents⟩
      · split
        · exact .same ⟨rfl, hents⟩
        · exact .sleep (hinv _)

omit [DecidableEq π] in
theorem ValuesIn.setSems (h : ValuesIn s) (hsems : SemsIn sems) : ValuesIn (s.setSems ix sems) := by
  intro n d hn
  by_cases hnix : n = ix
  · subst hnix
    simp only [SemState.setSems, update_self, map_eq_some_iff] at hn
    obtain ⟨d', -, rfl⟩ := hn
    exact hsems
  · simp only [SemState.setSems, update_of_ne hnix] at hn
    exact h n d hn

omit [DecidableEq π] in
theorem ValuesIn.congr (h : ValuesIn s) (hsema : s'.sema = s.sema) : ValuesIn s' := by
  rw [ValuesIn, hsema]
  exact h

/-- The operations that take effect stay within the bound: all of them, or those in front
    of a number behind the set. -/
def VectorFits (ds : SemidDs) (sops : List Sembuf) : Prop :=
  (Passes ds.semBase sops → SumsFit ds.semBase sops) ∧
  ∀ pre op post, sops = pre ++ op :: post → Passes ds.semBase pre →
    ds.semBase.length ≤ op.semNum.toNat → SumsFit ds.semBase pre

/-- The state that a round of `sys_semop` leaves. -/
def SemopEnd.All (I : SemState π → Prop) : SemopEnd π → Prop
  | .done s _ => I s
  | .error _ s => I s
  | .sleep s _ => I s
  | .panic => True
  | .fault => True

omit [DecidableEq π] in
theorem TryEnd.valuesIn {r : SemopEnd π} (h : TryEnd s ix ds sops r) (hin : ValuesIn s)
    (hix : s.sema ix = some ds) (hfit : VectorFits ds sops) : r.All ValuesIn := by
  cases h with
  | done hpass h => exact (hin.setSems (semsIn_shiftSems hpass (hfit.1 hpass))).congr h.sema_eq
  | same h => exact hin.congr h.sema_eq
  | efbig pre op post hsops hpre hout h =>
    exact (hin.setSems (semsIn_shiftSems hpre (hfit.2 pre op post hsops hpre hout))).congr h.sema_eq
  | sleep h =>
    exact (hin.setSems (semsIn_of_map (map_semval_countWaiter _ _ _) (hin ix ds hix))).congr h.sema_eq
  | panic => exact trivial
  | fault => exact trivial

omit [DecidableEq π] in
theorem TryEnd.ents {r : SemopEnd π} (h : TryEnd s ix ds sops r) :
    r.All fun s => ∀ u ∈ s.semuList, EntOk u.unEnt := by
  cases h with
  | done _ h => exact h.ents
  | same h => exact h.ents
  | efbig _ _ _ _ _ _ h => exact h.ents
  | sleep h => exact h.ents
  | panic => exact trivial
  | fault => exact trivial

theorem sysSemop_end (info : Seminfo) (pr : π) (a : SemopArgs)
    (hents : ∀ u ∈ s.semuList, EntOk u.unEnt) :
    (∃ ds, ReachesVector info s a ds ∧
      TryEnd s (ipcidToIx a.semid) ds a.sops (sysSemop info s pr a)) ∨
    (∃ e, sysSemop info s pr a = .error e s) ∨
    (a.sops = [] ∧ sysSemop info s pr a = .done s false) := by
  by_cases hreach : ∃ ds, ReachesVector info s a ds
  · obtain ⟨ds, hds⟩ := hreach
    refine .inl ⟨ds, hds, ?_⟩
    rw [sysSemop_reaches hds]
    exact semTry_end info pr (find_sema hds.1) hents a.sops 0
  · exact .inr (sysSemop_early pr (not_exists.1 hreach))

/-! ## Waiting -/

theorem map_semval_shiftSems (h : sems.map Sem.semval = sems'.map Sem.semval)
    (f : Nat → BitVec 16) :
    (shiftSems sems f).map Sem.semval = (shiftSems sems' f).map Sem.semval := by
  refine ext_getElem? fun n => ?_
  have hn := congrArg (fun xs => xs[n]?) h
  simp only [getElem?_map] at hn
  rw [getElem?_map, getElem?_map, getElem?_shiftSems, getElem?_shiftSems]
  cases h₁ : sems[n]? <;> cases h₂ : sems'[n]? <;> simp_all

theorem exists_semval (h : sems.map Sem.semval = sems'.map Sem.semval) {sem : Sem}
    (hsem : sems[n]? = some sem) : ∃ sem', sems'[n]? = some sem' ∧ sem'.semval = sem.semval := by
  have hn := congrArg (fun xs => xs[n]?) h
  simp only [getElem?_map, hsem, map_some] at hn
  obtain ⟨sem', hsem', hval⟩ := map_eq_some_iff.1 hn.symm
  exact ⟨sem', hsem', hval⟩

theorem Passes.congr (h : sems.map Sem.semval = sems'.map Sem.semval) (hpass : Passes sems ops) :
    Passes sems' ops := by
  induction ops generalizing sems sems' with
  | nil => exact trivial
  | cons op ops ih =>
    obtain ⟨⟨sem, hsem, hdo⟩, hrest⟩ := hpass
    obtain ⟨sem', hsem', hval⟩ := exists_semval h hsem
    refine ⟨⟨sem', hsem', ?_⟩, ih (map_semval_shiftSems h _) hrest⟩
    rw [hval]
    exact hdo

theorem SumsFit.congr (h : sems.map Sem.semval = sems'.map Sem.semval) (hfit : SumsFit sems ops) :
    SumsFit sems' ops := by
  intro n sem' hsem'
  obtain ⟨sem, hsem, hval⟩ := exists_semval h.symm hsem'
  rw [← hval]
  exact hfit n sem hsem

theorem VectorFits.congr {ds' : SemidDs}
    (h : ds.semBase.map Sem.semval = ds'.semBase.map Sem.semval) (hfit : VectorFits ds sops) :
    VectorFits ds' sops := by
  have hlen : ds.semBase.length = ds'.semBase.length := by
    have := congrArg List.length h
    simpa using this
  refine ⟨fun hp => (hfit.1 (hp.congr h.symm)).congr h, ?_⟩
  intro pre op post hsops hpre hout
  exact (hfit.2 pre op post hsops (hpre.congr h.symm) (by omega)).congr h

theorem ExactSums.congr {sems₁ : List Sem} (h : sems₁.map Sem.semval = sems.map Sem.semval)
    (hexact : ExactSums sems₁ sems' ops) : ExactSums sems sems' ops := by
  have hlen : sems₁.length = sems.length := by
    have := congrArg List.length h
    simpa using this
  refine ⟨hexact.1.trans hlen, ?_⟩
  intro n sem sem' hsem hsem'
  obtain ⟨sem₁, hsem₁, hval⟩ := exists_semval h.symm hsem
  rw [← hval]
  exact hexact.2 n sem₁ sem' hsem₁ hsem'

/-! ## The other calls -/

theorem fillFromEnd_subperm (u : Undo) (post : List Undo) :
    (fillFromEnd post).Subperm (u :: post) :=
  (fillFromEnd_perm post).subperm.trans (sublist_cons_self u post).subperm

theorem clearEnt_subperm (semid : Nat) (semnum : Option Nat) (ent : List Undo) :
    (clearEnt semid semnum ent).Subperm ent := by
  induction semnum, ent using clearEnt.induct semid with
  | case1 semnum =>
    rw [clearEnt]
  | case2 u post hid ih =>
    rw [clearEnt, if_pos hid]
    exact ih.trans (fillFromEnd_subperm u post)
  | case3 u post hid n hnum =>
    rw [clearEnt, if_pos hid]
    simp only [if_pos hnum]
    exact fillFromEnd_subperm u post
  | case4 u post hid n hnum =>
    rw [clearEnt, if_pos hid]
    simp only [if_neg hnum]
    exact List.Subperm.refl _
  | case5 semnum u post hid ih =>
    rw [clearEnt.eq_def]
    simp only [if_neg hid]
    exact (subperm_cons u).2 ih

theorem EntOk.subperm {ent' : List Undo} (h : EntOk ent) (hsub : ent'.Subperm ent) :
    EntOk ent' := by
  obtain ⟨l, hperm, hsublist⟩ := hsub
  have hl : EntOk l := by
    refine ⟨h.unique.sublist hsublist, ?_, hsublist.length_le.trans h.bound⟩
    intro u hu
    exact h.nonzero u (hsublist.subset hu)
  exact hl.perm hperm

omit [DecidableEq π] in
theorem semundoClear_ents (h : ∀ u ∈ s.semuList, EntOk u.unEnt) (semid : Nat)
    (semnum : Option Nat) : ∀ u ∈ (semundoClear s semid semnum).semuList, EntOk u.unEnt := by
  intro u hu
  obtain ⟨hu, -⟩ := mem_filter.1 hu
  obtain ⟨v, hv, rfl⟩ := List.mem_map.1 hu
  exact (h v hv).subperm (clearEnt_subperm semid semnum v.unEnt)

omit [DecidableEq π] in
theorem sysSemget_spec {nsems : Int} (h : sysSemget info s nsems = .ok s') :
    (ValuesIn s → ValuesIn s') ∧ s'.semuList = s.semuList := by
  rw [sysSemget] at h
  split at h
  · cases h
  · split at h
    · cases h
    · split at h
      · cases h
      · rename_i ix hix
        cases h
        refine ⟨?_, rfl⟩
        intro hin n d hn
        by_cases hnix : n = ix
        · subst hnix
          simp only [update_self, Option.some.injEq] at hn
          subst hn
          intro sem hsem
          rw [eq_of_mem_replicate hsem]
          exact Nat.zero_le _
        · simp only [update_of_ne hnix] at hn
          exact hin n d hn

variable {semid : BitVec 32} {perm : Bool}

omit [DecidableEq π] in
theorem semctlSetval_spec {semnum val : BitVec 32}
    (h : semctlSetval info s semid semnum val perm = .ok s') :
    ((val.toInt ≤ semvmx → (val.setWidth 16).toNat ≤ semvmx) → ValuesIn s → ValuesIn s') ∧
      ((∀ u ∈ s.semuList, EntOk u.unEnt) → ∀ u ∈ s'.semuList, EntOk u.unEnt) := by
  rw [semctlSetval] at h
  cases hfind : s.find info semid with
  | none =>
    rw [hfind] at h
    cases h
  | some ds =>
    rw [hfind] at h
    simp only at h
    split at h
    · cases h
    · split at h
      · cases h
      · split at h
        · cases h
        · rename_i hval
          cases h
          refine ⟨?_, fun hents => semundoClear_ents hents _ _⟩
          intro hlow hin
          have hbound := hlow (by omega)
          refine ValuesIn.congr (hin.setSems ?_) rfl
          intro sem hsem
          obtain ⟨n, hn⟩ := mem_iff_getElem?.1 hsem
          rw [getElem?_modify, Option.map_eq_map, map_eq_some_iff] at hn
          obtain ⟨sem₀, hsem₀, rfl⟩ := hn
          split
          · exact hbound
          · exact hin _ ds (find_sema hfind) sem₀ (mem_of_getElem? hsem₀)

theorem setallCheck_spec {array vals : List (BitVec 16)} (h : setallCheck n array = .ok vals) :
    ∀ val ∈ vals, val.toNat ≤ semvmx := by
  induction n generalizing array vals with
  | zero =>
    cases h
    intro val hval
    cases hval
  | succ n ih =>
    cases array with
    | nil => cases h
    | cons val array =>
      rw [setallCheck] at h
      split at h
      · cases h
      · rename_i hval
        split at h
        · cases h
        · rename_i rest hrest
          cases h
          intro v hv
          rcases mem_cons.1 hv with rfl | hv
          · omega
          · exact ih hrest v hv

omit [DecidableEq π] in
theorem semctlSetall_spec {array : List (BitVec 16)}
    (h : semctlSetall info s semid array perm = .ok s') :
    (ValuesIn s → ValuesIn s') ∧
      ((∀ u ∈ s.semuList, EntOk u.unEnt) → ∀ u ∈ s'.semuList, EntOk u.unEnt) := by
  rw [semctlSetall] at h
  cases hfind : s.find info semid with
  | none =>
    rw [hfind] at h
    cases h
  | some ds =>
    rw [hfind] at h
    simp only at h
    split at h
    · cases h
    · split at h
      · cases h
      · rename_i vals hvals
        cases h
        refine ⟨?_, fun hents => semundoClear_ents hents _ _⟩
        intro hin
        refine ValuesIn.congr (hin.setSems ?_) rfl
        intro sem hsem
        obtain ⟨n, hn⟩ := mem_iff_getElem?.1 hsem
        obtain ⟨sem₀, val, -, hval, rfl⟩ := getElem?_zipWith_eq_some.1 hn
        exact setallCheck_spec hvals val (mem_of_getElem? hval)

theorem exitVal_le {val adjval : BitVec 16} (h : (val.toNat : Int) + adjval.toInt ≤ semvmx) :
    (exitVal val adjval).toNat ≤ semvmx := by
  rw [exitVal]
  split
  · exact Nat.zero_le _
  · have hsum : ((val + adjval).toNat : Int) = (val.toNat + adjval.toInt) % 2 ^ 16 := by
      rw [BitVec.toNat_add, BitVec.toInt_eq_toNat_cond]
      split <;> omega
    rw [semvmx] at h ⊢
    omega

theorem EntOk.num_ne {u v : Undo} {us : List Undo} (hok : EntOk (u :: us)) (hv : v ∈ us)
    (hpos : ¬ u.unNum.toInt < 0) (hid : v.unId = u.unId) : u.unNum.toNat ≠ v.unNum.toNat := by
  intro e
  have hnum : v.unNum = u.unNum := BitVec.eq_of_toNat_eq e.symm
  have hint : u.unNum.toInt = u.unNum.toNat := by
    have := u.unNum.isLt
    rw [BitVec.toInt_eq_toNat_cond] at hpos ⊢
    split at hpos <;> omega
  have hu : u.isFor u.unId u.unNum.toNat = true := by
    rw [Undo.isFor, Bool.and_eq_true, decide_eq_true_iff, decide_eq_true_iff]
    exact ⟨rfl, hint⟩
  have hv' := (pairwise_cons.1 hok.unique).1 v hv _ _ hu
  rw [Undo.isFor] at hu hv'
  rw [hid, hnum, hu] at hv'
  cases hv'

/-- The adjustments of the entries stay within the bound. -/
def ExitFits (s : SemState π) (ent : List Undo) : Prop :=
  ∀ u ∈ ent, ∀ ds sem, s.sema u.unId = some ds → ds.semBase[u.unNum.toNat]? = some sem →
    (sem.semval.toNat : Int) + u.unAdjval.toInt ≤ semvmx

omit [DecidableEq π] in
theorem exitLoop_spec (hok : EntOk ent) (h : exitLoop s ent = some s') :
    s'.semuList = s.semuList ∧ (ValuesIn s → ExitFits s ent → ValuesIn s') := by
  induction ent generalizing s with
  | nil =>
    cases h
    exact ⟨rfl, fun hin _ => hin⟩
  | cons u us ih =>
    rw [exitLoop] at h
    split at h
    · cases h
    · rename_i ds hds
      split at h
      · cases h
      · rename_i hrange
        have hrest : EntOk us := hok.subperm (sublist_cons_self u us).subperm
        obtain ⟨hlist, hvals⟩ := ih hrest h
        refine ⟨hlist, ?_⟩
        intro hin hfits
        refine hvals (hin.setSems ?_) ?_
        · intro sem hsem
          obtain ⟨n, hn⟩ := mem_iff_getElem?.1 hsem
          rw [getElem?_modify, Option.map_eq_map, map_eq_some_iff] at hn
          obtain ⟨sem₀, hsem₀, rfl⟩ := hn
          split
          · rename_i hnum
            subst hnum
            exact exitVal_le (hfits u mem_cons_self ds sem₀ hds hsem₀)
          · exact hin _ ds hds sem₀ (mem_of_getElem? hsem₀)
        · -- the other entries are for other semaphores
          intro v hv dv sem hdv hsem
          have hfit := hfits v (mem_cons_of_mem _ hv)
          by_cases hid : v.unId = u.unId
          · have hnum := hok.num_ne hv (fun hneg => hrange (.inl hneg)) hid
            simp only [SemState.setSems, hid, update_self, hds, map_some, Option.some.injEq] at hdv
            subst hdv
            rw [getElem?_modify, Option.map_eq_map, map_eq_some_iff] at hsem
            obtain ⟨sem₀, hsem₀, rfl⟩ := hsem
            rw [if_neg hnum]
            exact hfit ds sem₀ (by rw [hid]; exact hds) hsem₀
          · simp only [SemState.setSems, update_of_ne hid] at hdv
            exact hfit dv sem hdv hsem

theorem semexit_spec (hents : ∀ u ∈ s.semuList, EntOk u.unEnt) (h : semexit s pr = some s') :
    (ValuesIn s → ExitFits s (s.undoOf pr) → ValuesIn s') ∧ ∀ u ∈ s'.semuList, EntOk u.unEnt := by
  rw [semexit] at h
  rw [SemState.undoOf]
  cases hfind : s.semuList.find? (·.unProc = pr) with
  | none =>
    rw [hfind] at h
    cases h
    exact ⟨fun hin _ => hin, hents⟩
  | some u =>
    rw [hfind] at h
    obtain ⟨s₁, hs₁, rfl⟩ := map_eq_some_iff.1 h
    obtain ⟨hlist, hvals⟩ := exitLoop_spec (hents u (mem_of_find?_eq_some hfind)) hs₁
    refine ⟨fun hin hfits => (hvals hin hfits).congr rfl, ?_⟩
    intro v hv
    have hv' := mem_of_mem_eraseP hv
    rw [hlist] at hv'
    exact hents v hv'

theorem sysSemop_spec (info : Seminfo) (pr : π) (a : SemopArgs)
    (hents : ∀ u ∈ s.semuList, EntOk u.unEnt) :
    ((sysSemop info s pr a).All fun s' => ∀ u ∈ s'.semuList, EntOk u.unEnt) ∧
    (ValuesIn s → (∀ ds, ReachesVector info s a ds → VectorFits ds a.sops) →
      (sysSemop info s pr a).All ValuesIn) := by
  rcases sysSemop_end info pr a hents with ⟨ds, hds, hend⟩ | ⟨e, he⟩ | ⟨-, hdone⟩
  · exact ⟨hend.ents, fun hin hfit => hend.valuesIn hin (find_sema hds.1) (hfit ds hds)⟩
  · rw [he]
    exact ⟨hents, fun hin _ => hin⟩
  · rw [hdone]
    exact ⟨hents, fun hin _ => hin⟩

/-- The set as a thread finds it that goes on: it does not wait any more. -/
def awake (w : SemWait) (ds : SemidDs) : SemidDs :=
  { ds with semBase := countWaiter w.op (-1) ds.semBase }

omit [DecidableEq π] in
theorem setSems_sema (hix : s.sema ix = some ds) (sems : List Sem) :
    (s.setSems ix sems).sema ix = some { ds with semBase := sems } := by
  simp [SemState.setSems, hix]

theorem semResume_spec (info : Seminfo) (pr : π) (w : SemWait) (intr : Bool)
    (hents : ∀ u ∈ s.semuList, EntOk u.unEnt) :
    ((semResume info s pr w intr).All fun s' => ∀ u ∈ s'.semuList, EntOk u.unEnt) ∧
    (ValuesIn s → (∀ ds, s.sema w.ix = some ds → intr = false → VectorFits ds w.sops) →
      (semResume info s pr w intr).All ValuesIn) := by
  rw [semResume]
  cases hix : s.sema w.ix with
  | none => exact ⟨hents, fun hin _ => hin⟩
  | some ds =>
    have hsema := setSems_sema hix (countWaiter w.op (-1) ds.semBase)
    have hsame : ds.semBase.map Sem.semval = (awake w ds).semBase.map Sem.semval :=
      (map_semval_countWaiter _ _ _).symm
    have hset : ValuesIn s → ValuesIn (s.setSems w.ix (countWaiter w.op (-1) ds.semBase)) :=
      fun hin => hin.setSems (semsIn_of_map hsame.symm (hin w.ix ds hix))
    cases intr with
    | true => exact ⟨hents, fun hin _ => hset hin⟩
    | false =>
      have hend := semTry_end info pr hsema hents w.sops w.doUndos
      refine ⟨hend.ents, ?_⟩
      intro hin hfit
      exact hend.valuesIn (hset hin) hsema ((hfit ds rfl rfl).congr hsame)

end Calls

/-! ## Runs -/

section Runs

variable {τ π : Type} [DecidableEq τ] [DecidableEq π] {info : Seminfo} {proc : τ → π}
  {sys sys' : SemSystem τ π}

/-- The step keeps the bound: a vector that takes effect has sums within `SEMVMX`, the low
    16 bits of a value that `SETVAL` accepts are within it, and so are the values with the
    adjustments of a process that exits. -/
def EventFits (info : Seminfo) (sys : SemSystem τ π) : SemEvent τ π → Prop
  | .op _ a => ∀ ds, ReachesVector info sys.kern a ds → VectorFits ds a.sops
  | .resume t intr => ∀ w ds, sys.waiting t = some w → sys.kern.sema w.ix = some ds →
      intr = false → VectorFits ds w.sops
  | .setval _ _ val _ => val.toInt ≤ semvmx → (val.setWidth 16).toNat ≤ semvmx
  | .exit pr => ExitFits sys.kern (sys.kern.undoOf pr)
  | .get _ => True
  | .setall _ _ _ => True

/-- The undo entries of all processes are well formed. -/
def EntsOk (sys : SemSystem τ π) : Prop := ∀ u ∈ sys.kern.semuList, EntOk u.unEnt

omit [DecidableEq π] in
theorem semEnd_spec {I : SemState π → Prop} {t : τ} {r : SemopEnd π} (h : semEnd sys t r = some sys')
    (hr : r.All I) : I sys'.kern := by
  cases r with
  | done s w =>
    cases h
    exact hr
  | error e s =>
    cases h
    exact hr
  | sleep s w =>
    cases h
    exact hr
  | panic => cases h
  | fault => cases h

theorem semStep_spec {ev : SemEvent τ π} (hents : EntsOk sys)
    (h : semStep info proc sys ev = some sys') :
    EntsOk sys' ∧ (ValuesIn sys.kern → EventFits info sys ev → ValuesIn sys'.kern) := by
  cases ev with
  | get nsems =>
    cases h
    cases hget : sysSemget info sys.kern nsems with
    | error e => exact ⟨hents, fun hin _ => hin⟩
    | ok s =>
      obtain ⟨hvals, hlist⟩ := sysSemget_spec hget
      refine ⟨?_, fun hin _ => hvals hin⟩
      intro u hu
      exact hents u (hlist ▸ hu)
  | op t a =>
    rw [semStep] at h
    split at h
    · cases h
    · obtain ⟨hok, hvals⟩ := sysSemop_spec info (proc t) a hents
      exact ⟨semEnd_spec h hok, fun hin hfit => semEnd_spec h (hvals hin hfit)⟩
  | resume t intr =>
    rw [semStep] at h
    split at h
    · cases h
    · rename_i w hw
      obtain ⟨hok, hvals⟩ := semResume_spec info (proc t) w intr hents
      exact ⟨semEnd_spec h hok, fun hin hfit =>
        semEnd_spec h (hvals hin fun ds hds hintr => hfit w ds hw hds hintr)⟩
  | setval semid semnum val perm =>
    cases h
    cases hset : semctlSetval info sys.kern semid semnum val perm with
    | error e => exact ⟨hents, fun hin _ => hin⟩
    | ok s =>
      obtain ⟨hvals, hok⟩ := semctlSetval_spec hset
      exact ⟨hok hents, fun hin hfit => hvals hfit hin⟩
  | setall semid array perm =>
    cases h
    cases hset : semctlSetall info sys.kern semid array perm with
    | error e => exact ⟨hents, fun hin _ => hin⟩
    | ok s =>
      obtain ⟨hvals, hok⟩ := semctlSetall_spec hset
      exact ⟨hok hents, fun hin _ => hvals hin⟩
  | exit pr =>
    rw [semStep] at h
    obtain ⟨s, hs, rfl⟩ := map_eq_some_iff.1 h
    obtain ⟨hvals, hok⟩ := semexit_spec hents hs
    exact ⟨hok, fun hin hfit => hvals hin hfit⟩

theorem run_entsOk {es : List (SemEvent τ π)} {ok : SemSystem τ π → SemEvent τ π → Prop}
    (h : Run (semStep info proc) ok semInit es sys) : EntsOk sys := by
  have hstep : ∀ (s : SemSystem τ π) (e : SemEvent τ π) (s' : SemSystem τ π), EntsOk s → ok s e →
      semStep info proc s e = some s' → EntsOk s' := fun s e s' hs _ he => (semStep_spec hs he).1
  exact h.invariant hstep fun u hu => absurd hu not_mem_nil

/-- A call of `semop` that returned 0 changed the values by the sums of its operations, and
    no other set. -/
def ExactChange (s s' : SemState π) (ix : Nat) (sops : List Sembuf) : Prop :=
  (∀ n ≠ ix, s'.sema n = s.sema n) ∧
  ∀ ds, s.sema ix = some ds → ∃ ds', s'.sema ix = some ds' ∧ ExactSums ds.semBase ds'.semBase sops

omit [DecidableEq π] in
theorem TryEnd.exact {s s' : SemState π} {ix : Nat} {ds : SemidDs} {w : Bool}
    (h : TryEnd s ix ds sops (.done s' w)) (hix : s.sema ix = some ds) (hfit : VectorFits ds sops) :
    ExactChange s s' ix sops := by
  cases h with
  | done hpass h =>
    constructor
    · intro n hn
      rw [h.sema_eq]
      simp only [SemState.setSems, update_of_ne hn]
    · intro d hd
      rw [hix] at hd
      cases hd
      rw [h.sema_eq, setSems_sema hix]
      exact ⟨_, rfl, exactSums_shiftSems hpass (hfit.1 hpass)⟩

theorem sysSemop_exact {s s' : SemState π} {pr : π} {a : SemopArgs} {w : Bool}
    (hents : ∀ u ∈ s.semuList, EntOk u.unEnt)
    (hfit : ∀ ds, ReachesVector info s a ds → VectorFits ds a.sops)
    (h : sysSemop info s pr a = .done s' w) : ExactChange s s' (ipcidToIx a.semid) a.sops := by
  rcases sysSemop_end info pr a hents with ⟨ds, hds, hend⟩ | ⟨e, he⟩ | ⟨hnil, hdone⟩
  · rw [h] at hend
    exact hend.exact (find_sema hds.1) (hfit ds hds)
  · rw [h] at he
    cases he
  · rw [h] at hdone
    cases hdone
    refine ⟨fun _ _ => rfl, fun ds hds => ⟨ds, hds, rfl, ?_⟩⟩
    intro n sem sem' hsem hsem'
    rw [hsem] at hsem'
    cases hsem'
    simp [hnil, netInt]

theorem semResume_exact {s s' : SemState π} {pr : π} {w : SemWait} {b : Bool}
    (hents : ∀ u ∈ s.semuList, EntOk u.unEnt)
    (hfit : ∀ ds, s.sema w.ix = some ds → VectorFits ds w.sops)
    (h : semResume info s pr w false = .done s' b) : ExactChange s s' w.ix w.sops := by
  rw [semResume] at h
  cases hix : s.sema w.ix with
  | none =>
    rw [hix] at h
    cases h
  | some ds =>
    rw [hix] at h
    have hsema := setSems_sema hix (countWaiter w.op (-1) ds.semBase)
    have hsame : ds.semBase.map Sem.semval = (awake w ds).semBase.map Sem.semval :=
      (map_semval_countWaiter _ _ _).symm
    have hend := semTry_end info pr hsema hents w.sops w.doUndos
    simp only [Bool.false_eq_true, if_false] at h
    rw [h] at hend
    obtain ⟨hothers, hset⟩ := hend.exact hsema ((hfit ds hix).congr hsame)
    refine ⟨?_, ?_⟩
    · intro n hn
      rw [hothers n hn]
      simp only [SemState.setSems, update_of_ne hn]
    · intro d hd
      rw [hix] at hd
      cases hd
      obtain ⟨ds', hds', hexact⟩ := hset _ hsema
      exact ⟨ds', hds', hexact.congr hsame.symm⟩

/-- **Values in range.** In every state of a run whose steps keep the bound all values are
    within `SEMVMX`, and a call of `semop` that succeeds there changes each value by the
    sum of its operations. -/
theorem semval_run {es : List (SemEvent τ π)}
    (h : Run (semStep info proc) (EventFits info) semInit es sys) :
    ValuesIn sys.kern ∧
    (∀ t a s' w, EventFits info sys (.op t a) →
      sysSemop info sys.kern (proc t) a = .done s' w →
      ExactChange sys.kern s' (ipcidToIx a.semid) a.sops) ∧
    ∀ t w s' b, sys.waiting t = some w → EventFits info sys (.resume t false) →
      semResume info sys.kern (proc t) w false = .done s' b →
      ExactChange sys.kern s' w.ix w.sops := by
  have hents := run_entsOk h
  have hstep : ∀ (s : SemSystem τ π) (e : SemEvent τ π) (s' : SemSystem τ π),
      EntsOk s ∧ ValuesIn s.kern → EventFits info s e → semStep info proc s e = some s' →
      EntsOk s' ∧ ValuesIn s'.kern := by
    intro s e s' hs hok he
    obtain ⟨hents', hvals⟩ := semStep_spec hs.1 he
    exact ⟨hents', hvals hs.2 hok⟩
  have hinit : EntsOk (semInit : SemSystem τ π) ∧ ValuesIn (semInit : SemSystem τ π).kern :=
    ⟨fun u hu => absurd hu not_mem_nil, fun ix ds hds => nomatch hds⟩
  refine ⟨(h.invariant hstep hinit).2, ?_, ?_⟩
  · intro t a s' w hfit hdone
    exact sysSemop_exact hents hfit hdone
  · intro t w s' b hw hfit hdone
    exact semResume_exact hents (fun ds hds => hfit w ds hw hds rfl) hdone

end Runs

/-! ## One semaphore -/

/-- A call that adds to the first semaphore of the first set. -/
def addToFirst (n : BitVec 16) : SemopArgs := ⟨0x10000, [⟨0, n, 0⟩], true, true⟩

/-- A run that adds 5 to a new semaphore. -/
theorem semval_run_five : ∃ es, ∃ sys : SemSystem Unit Unit,
    Run (semStep defaultSeminfo id) (EventFits defaultSeminfo) semInit es sys ∧
      sys.kern.semvals 0 = some [5] ∧ ValuesIn sys.kern := by
  have hfit : ∀ sys : SemSystem Unit Unit, sys.kern.find defaultSeminfo 0x10000 =
      some ⟨1, [⟨0, 0, 0⟩]⟩ → EventFits defaultSeminfo sys (.op () (addToFirst 5)) := by
    intro sys hfind ds hds
    obtain rfl : (⟨1, [⟨0, 0, 0⟩]⟩ : SemidDs) = ds := Option.some.inj (hfind.symm.trans hds.1)
    constructor
    · intro _ n sem hsem
      cases n with
      | zero =>
        cases hsem
        decide
      | succ n => cases hsem
    · intro pre op post hsops _ hout
      have hmem : op ∈ pre ++ op :: post := by simp
      rw [← hsops] at hmem
      obtain rfl := mem_singleton.1 hmem
      exact absurd hout (by decide)
  have hrun : Run (semStep defaultSeminfo id) (EventFits defaultSeminfo) semInit
      [.get 1, .op () (addToFirst 5)] _ := .cons trivial rfl (.cons (hfit _ rfl) rfl (.nil _))
  exact ⟨_, _, hrun, rfl, (semval_run hrun).1⟩

/-- Adding 32767 three times: the value passes the bound, and then it wraps. -/
theorem semval_wraps : ∃ es, ∃ sys : SemSystem Unit Unit,
    Run (semStep defaultSeminfo id) (fun _ _ => True) semInit es sys ∧ ¬ ValuesIn sys.kern ∧
      ∃ s' w, sysSemop defaultSeminfo sys.kern () (addToFirst 32767) = .done s' w ∧
        ¬ ExactChange sys.kern s' 0 (addToFirst 32767).sops := by
  have hrun : Run (semStep defaultSeminfo id) (fun _ _ => True) semInit
      [.get 1, .op () (addToFirst 32767), .op () (addToFirst 32767)] _ :=
    .cons trivial rfl (.cons trivial rfl (.cons trivial rfl (.nil _)))
  refine ⟨_, _, hrun, ?_, _, _, rfl, ?_⟩
  · intro hin
    exact absurd (hin 0 _ rfl _ mem_cons_self) (by decide)
  · intro hexact
    obtain ⟨ds', hds', -, hsum⟩ := hexact.2 _ rfl
    cases hds'
    exact absurd (hsum 0 _ _ rfl rfl) (by decide)

end OpenBsd.Kern
