/-
  OpenBsd.Kern.SysvSemAtomic

  When a call of `semop` that fails without sleeping leaves everything as it was.

  Two of the exits do not: `EFBIG` leaves the operations in front of the wrong number in
  place, and the rollback of the adjustments does not find the entries of semaphores whose
  number does not fit into `un_num`.
-/

import OpenBsd.Kern.SysvSemUndo

namespace OpenBsd.Kern

open List Function

variable {ix : Nat} {sems : List Sem} {pre post sops : List Sembuf} {op : Sembuf}

section

variable {π : Type} [DecidableEq π] {info : Seminfo} {s s' : SemState π} {pr : π}
  {a : SemopArgs} {ds : SemidDs}

/-! ## The states compared -/

/-- The values of all semaphores. -/
def SemState.semvals (s : SemState π) (ix : Nat) : Option (List (BitVec 16)) :=
  (s.sema ix).map fun ds => ds.semBase.map Sem.semval

/-- The values and all adjustments are the same; the entries of a process may have another
    order. -/
structure SameSems (s s' : SemState π) : Prop where
  vals : s'.semvals = s.semvals
  undos : ∀ q, (s'.undoOf q).Perm (s.undoOf q)

omit [DecidableEq π] in
theorem setSems_self (h : s.sema ix = some ds) : s.setSems ix ds.semBase = s := by
  have hsame : (s.sema ix).map (fun d => { d with semBase := ds.semBase }) = s.sema ix := by
    rw [h]
    rfl
  simp only [SemState.setSems, hsame, update_eq_self]

omit [DecidableEq π] in
theorem semvals_setSems (h : s.sema ix = some ds) (sems : List Sem) :
    (s.setSems ix sems).semvals = update s.semvals ix (some (sems.map Sem.semval)) := by
  funext n
  by_cases hn : n = ix
  · subst hn
    simp [SemState.semvals, SemState.setSems, h]
  · simp [SemState.semvals, SemState.setSems, hn]

theorem map_semval_shiftSems_eq (sems : List Sem) (f : Nat → BitVec 16) :
    (shiftSems sems f).map Sem.semval = sems.map Sem.semval ↔ ∀ n < sems.length, f n = 0 := by
  constructor
  · intro h n hn
    have hget := congrArg (fun xs => xs[n]?) h
    simp only [getElem?_map, getElem?_shiftSems, getElem?_eq_getElem hn, Option.map_some,
      Option.some.injEq] at hget
    exact left_eq_add.1 hget.symm
  · intro h
    rw [shiftSems_congr (g := fun _ => 0#16) h, shiftSems_zero]

theorem sameSems_setSems (h : s.sema ix = some ds) (f : Nat → BitVec 16) :
    SameSems s (s.setSems ix (shiftSems ds.semBase f)) ↔ ∀ n < ds.semBase.length, f n = 0 := by
  rw [← map_semval_shiftSems_eq]
  constructor
  · intro hsame
    have hix := congrFun hsame.vals ix
    rw [semvals_setSems h, update_self, SemState.semvals, h] at hix
    exact Option.some.inj hix
  · intro hvals
    refine ⟨?_, fun q => List.Perm.refl _⟩
    rw [semvals_setSems h, hvals]
    refine update_eq_self_iff.2 ?_
    rw [SemState.semvals, h]
    rfl

/-! ## Positions in the vector -/

theorem semPass_efbig (hpre : Passes sems pre) (hout : sems.length ≤ op.semNum.toNat) (u : Nat)
    (w : Bool) (i : Nat) :
    semPass sems u w i (pre ++ op :: post) = .efbig (shiftSems sems (netOp pre)) := by
  obtain ⟨w', h⟩ := semPass_append hpre u w i (op :: post)
  have hnone : (shiftSems sems (netOp pre))[op.semNum.toNat]? = none := by
    rw [List.getElem?_eq_none_iff, length_shiftSems]
    exact hout
  rw [h, semPass, hnone]

variable {ops : List Sembuf}

theorem semPass_through (h : Passes sems ops) (u : Nat) (w : Bool) (i : Nat) :
    ∃ w', semPass sems u w i ops = .through (shiftSems sems (netOp ops)) (u + undoCount ops) w' := by
  obtain ⟨w', h'⟩ := semPass_append h u w i []
  rw [append_nil] at h'
  exact ⟨w', h'⟩

/-- The operations in front of a number behind the set have no effect together. -/
def PrefixCancels (ds : SemidDs) (sops : List Sembuf) : Prop :=
  ∀ pre op post, sops = pre ++ op :: post → Passes ds.semBase pre →
    ds.semBase.length ≤ op.semNum.toNat → ∀ n < ds.semBase.length, netOp pre n = 0

theorem prefixCancels_of_pass (h : ∀ sems, semPass ds.semBase 0 false 0 sops ≠ .efbig sems) :
    PrefixCancels ds sops := by
  rintro pre op post rfl hpre hout
  exact absurd (semPass_efbig hpre hout 0 false 0) (h _)

theorem prefixCancels_efbig (hpre : Passes ds.semBase pre)
    (hout : ds.semBase.length ≤ op.semNum.toNat) :
    PrefixCancels ds (pre ++ op :: post) ↔ ∀ n < ds.semBase.length, netOp pre n = 0 := by
  refine ⟨fun h => h pre op post rfl hpre hout, ?_⟩
  intro h pre' op' post' e hpre' hout'
  have hfirst : semPass ds.semBase 0 false 0 (pre ++ op :: post) = _ :=
    semPass_efbig hpre hout 0 false 0
  rw [e, semPass_efbig hpre' hout', PassEnd.efbig.injEq] at hfirst
  rw [← map_semval_shiftSems_eq, hfirst, map_semval_shiftSems_eq]
  exact h

/-- When the entries of the process run out, all adjustments before were for numbers that
    fit into `un_num`, or the rollback gets stuck. -/
def UndosFit (ix : Nat) (ent : List Undo) (sops : List Sembuf) : Prop :=
  ∀ pre op post ent', sops = pre ++ op :: post → op.undoes = true →
    entAfter ix ent pre.reverse = some ent' → NoneFor ix op.semNum.toNat ent' →
    ent'.length = semume →
    (∀ o ∈ pre, o.undoes = true → o.high = false) ∨ RollbackStuck ix ent 0 pre.reverse

theorem highCount_eq_zero :
    highCount ops = 0 ↔ ∀ o ∈ ops, o.undoes = true → o.high = false := by
  simp [highCount, countP_eq_zero]

/-! ## One try -/

theorem semTry_undos {w : Bool}
    (hpass : semPass ds.semBase 0 false 0 sops = .through (shiftSems ds.semBase (netOp sops)) (undoCount sops) w)
    (hfew : undoCount sops ≤ semume) (hsome : undoCount sops ≠ 0) (e : SemErrno) (s' : SemState π) :
    semTry info s pr ix ds sops 0 = .error e s' ↔
      ∃ s₂, applyUndos info (s.setSems ix (shiftSems ds.semBase (netOp sops))) pr .null ix [] sops =
        .error e s₂ ∧ s' = s₂.setSems ix ds.semBase := by
  rw [semTry, hpass]
  simp only [if_neg (Nat.not_lt.2 hfew), if_neg hsome, semRollback_shiftSems]
  generalize applyUndos info (s.setSems ix (shiftSems ds.semBase (netOp sops))) pr .null ix [] sops = r
  cases r with
  | ok s₂ => simp
  | error e₂ s₂ =>
    simp only [SemopEnd.error.injEq, UndosEnd.error.injEq]
    constructor
    · rintro ⟨rfl, rfl⟩
      exact ⟨s₂, ⟨rfl, rfl⟩, rfl⟩
    · rintro ⟨s₃, ⟨rfl, rfl⟩, rfl⟩
      exact ⟨rfl, rfl⟩
  | panic => simp
  | fault => simp

theorem sameSems_after_undos {s₂ : SemState π} (hix : s.sema ix = some ds)
    (hbeside : Beside pr (s.setSems ix sems) s₂) :
    SameSems s (s₂.setSems ix ds.semBase) ↔ (s₂.undoOf pr).Perm (s.undoOf pr) := by
  have hvals : (s₂.setSems ix ds.semBase).semvals = s.semvals := by
    have hsema : (s₂.setSems ix ds.semBase).sema = s.sema := by
      simp only [SemState.setSems, hbeside.sema, update_self, update_idem, hix, Option.map_some]
      exact update_eq_self_iff.2 hix.symm
    funext n
    rw [SemState.semvals, hsema, SemState.semvals]
  constructor
  · intro h
    exact h.undos pr
  · intro h
    refine ⟨hvals, ?_⟩
    intro q
    by_cases hq : q = pr
    · subst hq
      exact h
    · rw [show (s₂.setSems ix ds.semBase).undoOf q = s.undoOf q from hbeside.others q hq]

/-- All operations can be done: the call is clean when the adjustments fit. -/
theorem semTry_through (hok : EntOk (s.undoOf pr)) (hix : s.sema ix = some ds)
    (hpasses : Passes ds.semBase sops) :
    (∀ e s', semTry info s pr ix ds sops 0 = .error e s' → SameSems s s') ↔
      (undoCount sops ≤ semume → UndosFit ix (s.undoOf pr) sops) := by
  obtain ⟨w, hpass⟩ := semPass_through hpasses 0 false 0
  rw [Nat.zero_add] at hpass
  by_cases hfew : undoCount sops ≤ semume
  · by_cases hsome : undoCount sops = 0
    · -- no adjustments
      refine iff_of_true ?_ ?_
      · intro e s' h
        rw [semTry, hpass] at h
        simp [hsome] at h
      · rintro - pre op post ent rfl hundo
        have hpos : 0 < undoCount (pre ++ op :: post) :=
          countP_pos_iff.2 ⟨op, by simp, hundo⟩
        omega
    · simp only [semTry_undos hpass hfew hsome, hfew, true_implies]
      set s₁ := s.setSems ix (shiftSems ds.semBase (netOp sops)) with hs₁
      have hok₁ : EntOk (s₁.undoOf pr) := hok
      constructor
      · -- an entry runs out: the rollback comes back and leaves the lost entries
        rintro hclean pre op post ent rfl hundo hent hnone hlen
        by_cases hstuck : RollbackStuck ix (s.undoOf pr) 0 pre.reverse
        · exact .inr hstuck
        · refine .inl ?_
          obtain ⟨s₃, lost, happ, hbeside, hperm, hcount⟩ :=
            applyUndos_einval info hok₁ hundo hfew hent hnone hlen hstuck
          have hsame := (sameSems_after_undos hix hbeside).1 (hclean _ _ ⟨s₃, happ, rfl⟩)
          have hlost := (hperm.symm.trans hsame).length_eq
          rw [length_append] at hlost
          have hzero : highCount pre.reverse = 0 := by
            have : (s₁.undoOf pr).length = (s.undoOf pr).length := rfl
            omega
          intro o ho
          exact highCount_eq_zero.1 hzero o (mem_reverse.2 ho)
      · -- an error came from a missing entry, or from a missing structure
        rintro hfit e s' ⟨s₂, happ, rfl⟩
        have hcount₀ : undoCount [] + undoCount sops ≤ semume := by simpa [undoCount] using hfew
        obtain ⟨hbeside, hcase⟩ := applyUndos_error hok₁ (.null rfl rfl) hcount₀ happ
        rw [sameSems_after_undos hix hbeside]
        rcases hcase with hsame | ⟨pre, op, post, ent, lost, rfl, hundo, hent, hfull, hstuck, hperm,
          hcount⟩
        · rw [hsame]
          exact List.Perm.refl _
        · rw [append_nil] at hent hstuck hcount
          obtain ⟨hnone, hlen⟩ := adjustFor_full (entAfter_ok hok hent).1 hundo hfull
          have hlow := (hfit pre op post ent rfl hundo hent hnone hlen).resolve_right hstuck
          have hzero : highCount pre.reverse = 0 :=
            highCount_eq_zero.2 fun o ho => hlow o (mem_reverse.1 ho)
          have hlost : lost = [] := length_eq_zero_iff.1 (by omega)
          rw [hlost, append_nil] at hperm
          exact hperm
  · refine iff_of_true ?_ (fun h => absurd h hfew)
    intro e s' h
    rw [semTry, hpass] at h
    simp only [if_pos (Nat.lt_of_not_le hfew), semRollback_shiftSems, setSems_self hix,
      SemopEnd.error.injEq] at h
    obtain ⟨-, rfl⟩ := h
    exact ⟨rfl, fun q => List.Perm.refl _⟩

theorem semTry_stop {sem : Sem} (hix : s.sema ix = some ds) (hpre : Passes ds.semBase pre)
    (hsem : (shiftSems ds.semBase (netOp pre))[op.semNum.toNat]? = some sem)
    (hdo : ¬ CanDo sem.semval op) {e : SemErrno}
    (h : semTry info s pr ix ds (pre ++ op :: post) 0 = .error e s') : s' = s := by
  obtain ⟨w, hpass⟩ := semPass_append hpre 0 false 0 (op :: post)
  rw [semTry, hpass, semPass_stop hsem hdo] at h
  simp only [Nat.zero_add, take_left, semRollback_shiftSems, setSems_self hix] at h
  split at h
  · cases h
    rfl
  · split at h
    · cases h
      rfl
    · cases h

/-! ## All or nothing -/

/-- The call fails without sleeping only in a way that changes nothing. -/
def AllOrNothing (info : Seminfo) (s : SemState π) (pr : π) (a : SemopArgs) : Prop :=
  ∀ e s', sysSemop info s pr a = .error e s' → SameSems s s'

/-- The call comes to its vector. -/
def ReachesVector (info : Seminfo) (s : SemState π) (a : SemopArgs) (ds : SemidDs) : Prop :=
  s.find info a.semid = some ds ∧ a.perm = true ∧ 0 < a.sops.length ∧
    a.sops.length ≤ info.semopm ∧ a.copied = true

omit [DecidableEq π] in
theorem find_sema {semid : BitVec 32} (h : s.find info semid = some ds) :
    s.sema (ipcidToIx semid) = some ds := by
  rw [SemState.find] at h
  split at h
  · cases h
  · exact Option.eq_some_of_filter_eq_some h

theorem sysSemop_reaches (h : ReachesVector info s a ds) :
    sysSemop info s pr a = semTry info s pr (ipcidToIx a.semid) ds a.sops 0 := by
  obtain ⟨hfind, hperm, hpos, hle, hcopied⟩ := h
  rw [sysSemop, hfind]
  simp only [hperm, hcopied, if_neg (Nat.pos_iff_ne_zero.1 hpos), if_neg (Nat.not_lt.2 hle),
    Bool.true_eq_false, if_false]

theorem sysSemop_early (pr : π) (h : ∀ ds, ¬ ReachesVector info s a ds) :
    (∃ e, sysSemop info s pr a = .error e s) ∨
      (a.sops = [] ∧ sysSemop info s pr a = .done s false) := by
  rw [sysSemop]
  cases hfind : s.find info a.semid with
  | none => exact .inl ⟨_, rfl⟩
  | some ds =>
    simp only
    split
    · exact .inl ⟨_, rfl⟩
    · split
      · rename_i hnil
        exact .inr ⟨length_eq_zero_iff.1 hnil, rfl⟩
      · split
        · exact .inl ⟨_, rfl⟩
        · split
          · exact .inl ⟨_, rfl⟩
          · exfalso
            exact h ds ⟨hfind, by simp_all, by omega, by omega, by simp_all⟩

/-- **Exactly when `semop` is all or nothing.** The operations in front of a number behind
    the set cancel each other, and entries run out only behind adjustments whose numbers
    fit into `un_num`, unless the rollback gets stuck. -/
theorem semop_allOrNothing_iff (hok : EntOk (s.undoOf pr)) :
    AllOrNothing info s pr a ↔
      ∀ ds, ReachesVector info s a ds → PrefixCancels ds a.sops ∧
        (Passes ds.semBase a.sops → undoCount a.sops ≤ semume →
          UndosFit (ipcidToIx a.semid) (s.undoOf pr) a.sops) := by
  by_cases hreach : ∃ ds, ReachesVector info s a ds
  · obtain ⟨ds, hds⟩ := hreach
    have hix := find_sema hds.1
    have honly : ∀ ds', ReachesVector info s a ds' → ds' = ds := by
      intro ds' h'
      exact Option.some.inj (h'.1.symm.trans hds.1)
    rw [AllOrNothing, sysSemop_reaches hds]
    have hcond : (∀ ds', ReachesVector info s a ds' → PrefixCancels ds' a.sops ∧
        (Passes ds'.semBase a.sops → undoCount a.sops ≤ semume →
          UndosFit (ipcidToIx a.semid) (s.undoOf pr) a.sops)) ↔ PrefixCancels ds a.sops ∧
        (Passes ds.semBase a.sops → undoCount a.sops ≤ semume →
          UndosFit (ipcidToIx a.semid) (s.undoOf pr) a.sops) := by
      constructor
      · intro h
        exact h ds hds
      · intro h ds' h'
        rw [honly ds' h']
        exact h
    rw [hcond]
    rcases passes_split ds.semBase a.sops with hall | ⟨pre, op, post, hsops, hpre, hstop⟩
    · obtain ⟨w, hpass⟩ := semPass_through hall 0 false 0
      have hcancels : PrefixCancels ds a.sops := prefixCancels_of_pass (by simp [hpass])
      rw [semTry_through hok hix hall]
      simp [hcancels, hall]
    · rw [hsops]
      rcases hstop with hout | ⟨sem, hsem, hdo⟩
      · -- `EFBIG`
        have hnot : ¬ Passes ds.semBase (pre ++ op :: post) := by
          intro h
          obtain ⟨w, hpass⟩ := semPass_through h 0 false 0
          rw [semPass_efbig hpre hout] at hpass
          cases hpass
        have htry : semTry info s pr (ipcidToIx a.semid) ds (pre ++ op :: post) 0 =
            .error .efbig (s.setSems (ipcidToIx a.semid) (shiftSems ds.semBase (netOp pre))) := by
          rw [semTry, semPass_efbig hpre hout]
        rw [prefixCancels_efbig hpre hout, ← sameSems_setSems hix, htry]
        simp [hnot]
      · have hpass : semPass ds.semBase 0 false 0 (pre ++ op :: post) =
            .stop (shiftSems ds.semBase (netOp pre)) (undoCount pre) pre.length op := by
          obtain ⟨w, hpass⟩ := semPass_append hpre 0 false 0 (op :: post)
          rw [hpass, semPass_stop hsem hdo, Nat.zero_add, Nat.zero_add]
        have hnot : ¬ Passes ds.semBase (pre ++ op :: post) := by
          intro h
          obtain ⟨w, hthrough⟩ := semPass_through h 0 false 0
          rw [hpass] at hthrough
          cases hthrough
        refine iff_of_true ?_ ⟨prefixCancels_of_pass (by simp [hpass]), fun h => absurd h hnot⟩
        intro e s' he
        rw [semTry_stop hix hpre hsem hdo he]
        exact ⟨rfl, fun q => List.Perm.refl _⟩
  · refine iff_of_true ?_ ?_
    · intro e s' he
      rcases sysSemop_early pr (not_exists.1 hreach) with ⟨e', he'⟩ | ⟨-, hdone⟩
      · rw [he'] at he
        cases he
        exact ⟨rfl, fun q => List.Perm.refl _⟩
      · rw [hdone] at he
        cases he
    · intro ds hds
      exact absurd ⟨ds, hds⟩ hreach

end

/-! ## A set with one semaphore -/

def defaultSeminfo : Seminfo := ⟨10, 60, 30, 60, 100⟩

/-- A set with one semaphore, of value 0. -/
def oneSem : SemState Unit where
  sema ix := if ix = 0 then some ⟨1, [⟨0, 0, 0⟩]⟩ else none
  semseqs _ := 1
  semtot := 1
  semuList := []
  semutot := 0

/-- A call that adds 1 and then has to wait. -/
theorem oneSem_allOrNothing : EntOk (oneSem.undoOf ()) ∧
    AllOrNothing defaultSeminfo oneSem () ⟨0x10000, [⟨0, 1, 0⟩, ⟨0, -5, ipcNowait⟩], true, true⟩ := by
  have hok : EntOk (oneSem.undoOf ()) := EntOk.nil
  refine ⟨hok, (semop_allOrNothing_iff hok).2 ?_⟩
  intro ds hds
  obtain rfl : (⟨1, [⟨0, 0, 0⟩]⟩ : SemidDs) = ds := Option.some.inj hds.1
  constructor
  · intro pre op post hsops _ hout
    have hmem : op ∈ pre ++ op :: post := by simp
    rw [← hsops] at hmem
    simp only [mem_cons, not_mem_nil, or_false] at hmem
    rcases hmem with rfl | rfl <;> exact absurd hout (by decide)
  · intro _ _ pre op post ent hsops hundo
    have hmem : op ∈ pre ++ op :: post := by simp
    rw [← hsops] at hmem
    simp only [mem_cons, not_mem_nil, or_false] at hmem
    rcases hmem with rfl | rfl <;> exact absurd hundo (by decide)

/-- `EFBIG` at the second operation leaves the first one in place. -/
theorem efbig_keeps_first : EntOk (oneSem.undoOf ()) ∧
    ¬ AllOrNothing defaultSeminfo oneSem () ⟨0x10000, [⟨0, 1, 0⟩, ⟨5, 1, 0⟩], true, true⟩ := by
  refine ⟨EntOk.nil, ?_⟩
  intro h
  have hsame := (h .efbig (oneSem.setSems 0 [⟨1, 0, 0⟩]) rfl).vals
  exact absurd (congrFun hsame 0) (by decide)

end OpenBsd.Kern
