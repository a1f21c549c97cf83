/-
  OpenBsd.Kern.SysvSemPass

  One pass of `sys_semop` over its vector.  The operations on a semaphore add up, so
  that a pass and its rollback need only the sums.
-/

import OpenBsd.Kern.SysvSem
import Mathlib.Data.BitVec

namespace OpenBsd.Kern

open List

/-! ## Sums of operations -/

/-- What the operations add to the value of a semaphore. -/
@[simp] def netOp : List Sembuf → Nat → BitVec 16
  | [], _ => 0
  | op :: ops, n => (if op.semNum.toNat = n then op.semOp else 0) + netOp ops n

/-- The values are changed by `f`. -/
def shiftSems (sems : List Sem) (f : Nat → BitVec 16) : List Sem :=
  sems.mapIdx fun n sem => { sem with semval := sem.semval + f n }

@[simp] theorem length_shiftSems (sems : List Sem) (f : Nat → BitVec 16) :
    (shiftSems sems f).length = sems.length := length_mapIdx

theorem getElem?_shiftSems (sems : List Sem) (f : Nat → BitVec 16) (n : Nat) :
    (shiftSems sems f)[n]? = sems[n]?.map fun sem => { sem with semval := sem.semval + f n } := by
  rw [shiftSems, getElem?_mapIdx]

theorem shiftSems_shiftSems (sems : List Sem) (f g : Nat → BitVec 16) :
    shiftSems (shiftSems sems f) g = shiftSems sems fun n => f n + g n := by
  refine ext_getElem? fun n => ?_
  rw [getElem?_shiftSems, getElem?_shiftSems, getElem?_shiftSems, Option.map_map]
  congr 1
  funext sem
  simp [add_assoc]

theorem shiftSems_zero (sems : List Sem) : shiftSems sems (fun _ => 0#16) = sems := by
  refine ext_getElem? fun n => ?_
  rw [getElem?_shiftSems]
  simp

variable {sems : List Sem}

theorem shiftSems_congr {f g : Nat → BitVec 16}
    (h : ∀ n < sems.length, f n = g n) : shiftSems sems f = shiftSems sems g := by
  refine ext_getElem? fun n => ?_
  rw [getElem?_shiftSems, getElem?_shiftSems]
  cases hn : sems[n]? with
  | none => rfl
  | some sem =>
    obtain ⟨hlt, -⟩ := List.getElem?_eq_some_iff.1 hn
    rw [h n hlt]

variable {sem : Sem} {op : Sembuf}

theorem set_eq_shiftSems (h : sems[op.semNum.toNat]? = some sem) :
    sems.set op.semNum.toNat { sem with semval := sem.semval + op.semOp } =
      shiftSems sems (netOp [op]) := by
  refine ext_getElem? fun n => ?_
  rw [getElem?_shiftSems, getElem?_set]
  obtain ⟨hlt, -⟩ := List.getElem?_eq_some_iff.1 h
  by_cases hn : op.semNum.toNat = n
  · subst hn
    rw [h]
    simp [netOp, hlt]
  · simp [netOp, hn]

theorem netOp_nil : netOp [] = fun _ => 0#16 := rfl

theorem netOp_cons (op : Sembuf) (ops : List Sembuf) :
    netOp (op :: ops) = fun n => netOp [op] n + netOp ops n := by
  funext n
  simp [netOp]

theorem semRollback_eq (sems : List Sem) (ops : List Sembuf) :
    semRollback sems ops = shiftSems sems fun n => -netOp ops n := by
  induction ops generalizing sems with
  | nil =>
    rw [semRollback, foldl_nil]
    simp [netOp, shiftSems_zero]
  | cons op ops ih =>
    have hone : (sems.modify op.semNum.toNat fun sem => { sem with semval := sem.semval - op.semOp }) =
        shiftSems sems fun n => -netOp [op] n := by
      refine ext_getElem? fun n => ?_
      rw [getElem?_shiftSems, getElem?_modify]
      congr 1
      funext sem
      by_cases hn : op.semNum.toNat = n
      · simp [netOp, hn, sub_eq_add_neg]
      · simp [netOp, hn]
    rw [semRollback, foldl_cons, hone]
    change semRollback _ ops = _
    rw [ih, shiftSems_shiftSems]
    congr 1
    funext n
    simp [netOp, add_comm]

theorem semRollback_shiftSems (sems : List Sem) (ops : List Sembuf) :
    semRollback (shiftSems sems (netOp ops)) ops = sems := by
  rw [semRollback_eq, shiftSems_shiftSems]
  simp [shiftSems_zero]

/-! ## One pass -/

/-- An operation that can be done now. -/
def CanDo (val : BitVec 16) (op : Sembuf) : Prop :=
  (op.semOp.toInt < 0 → 0 ≤ (val.toNat : Int) + op.semOp.toInt) ∧ (op.semOp = 0 → val = 0)

/-- No operation of the vector has to wait, and all are on semaphores of the set. -/
def Passes (sems : List Sem) : List Sembuf → Prop
  | [] => True
  | op :: rest =>
    (∃ sem, sems[op.semNum.toNat]? = some sem ∧ CanDo sem.semval op) ∧
      Passes (shiftSems sems (netOp [op])) rest

/-- The number of operations that leave an adjustment. -/
def undoCount (ops : List Sembuf) : Nat := ops.countP (·.undoes)

theorem semPass_cons
    (hsem : sems[op.semNum.toNat]? = some sem) (hdo : CanDo sem.semval op) (u : Nat) (w : Bool)
    (i : Nat) (rest : List Sembuf) :
    ∃ w', semPass sems u w i (op :: rest) =
      semPass (shiftSems sems (netOp [op])) (u + undoCount [op]) w' (i + 1) rest := by
  have hcount : (if op.undoes then u + 1 else u) = u + undoCount [op] := by
    by_cases hu : op.undoes <;> simp [undoCount, hu]
  rw [semPass]
  simp only [hsem, hcount, set_eq_shiftSems hsem]
  split
  · rename_i hneg
    have hok := hdo.1 hneg
    rw [if_neg (by omega)]
    exact ⟨_, rfl⟩
  · split
    · rename_i hzero
      have hval := hdo.2 hzero
      have hsame : shiftSems sems (netOp [op]) = sems := by
        rw [show netOp [op] = fun _ => 0#16 by funext n; simp [netOp, hzero], shiftSems_zero]
      have hno : undoCount [op] = 0 := by simp [undoCount, Sembuf.undoes, hzero]
      rw [if_neg (by simp [hval]), hsame, hno, Nat.add_zero]
      exact ⟨_, rfl⟩
    · exact ⟨_, rfl⟩

theorem semPass_append {pre : List Sembuf} (h : Passes sems pre) (u : Nat)
    (w : Bool) (i : Nat) (rest : List Sembuf) :
    ∃ w', semPass sems u w i (pre ++ rest) =
      semPass (shiftSems sems (netOp pre)) (u + undoCount pre) w' (i + pre.length) rest := by
  induction pre generalizing sems u w i with
  | nil =>
    refine ⟨w, ?_⟩
    rw [netOp_nil, shiftSems_zero]
    rfl
  | cons op pre ih =>
    obtain ⟨⟨sem, hsem, hdo⟩, hrest⟩ := h
    obtain ⟨w₁, h₁⟩ := semPass_cons hsem hdo u w i (pre ++ rest)
    obtain ⟨w₂, h₂⟩ := ih hrest (u + undoCount [op]) w₁ (i + 1)
    refine ⟨w₂, ?_⟩
    have hcount : u + undoCount [op] + undoCount pre = u + undoCount (op :: pre) := by
      rw [undoCount, undoCount, undoCount, Nat.add_assoc, ← countP_append]
      rfl
    rw [cons_append, h₁, h₂, shiftSems_shiftSems, ← netOp_cons, hcount, length_cons,
      Nat.add_assoc, Nat.add_comm 1]

theorem passes_split (sems : List Sem) (ops : List Sembuf) :
    Passes sems ops ∨ ∃ pre op post, ops = pre ++ op :: post ∧ Passes sems pre ∧
      (sems.length ≤ op.semNum.toNat ∨
        ∃ sem, (shiftSems sems (netOp pre))[op.semNum.toNat]? = some sem ∧ ¬ CanDo sem.semval op) := by
  induction ops generalizing sems with
  | nil => exact .inl trivial
  | cons op ops ih =>
    cases hsem : sems[op.semNum.toNat]? with
    | none =>
      exact .inr ⟨[], op, ops, rfl, trivial, .inl (List.getElem?_eq_none_iff.1 hsem)⟩
    | some sem =>
      by_cases hdo : CanDo sem.semval op
      · rcases ih (shiftSems sems (netOp [op])) with hall | ⟨pre, op', post, rfl, hpre, hstop⟩
        · exact .inl ⟨⟨sem, hsem, hdo⟩, hall⟩
        · refine .inr ⟨op :: pre, op', post, rfl, ⟨⟨sem, hsem, hdo⟩, hpre⟩, ?_⟩
          rw [length_shiftSems, shiftSems_shiftSems, ← netOp_cons] at hstop
          exact hstop
      · refine .inr ⟨[], op, ops, rfl, trivial, .inr ⟨sem, ?_, hdo⟩⟩
        rw [netOp_nil, shiftSems_zero]
        exact hsem

theorem semPass_stop
    (hsem : sems[op.semNum.toNat]? = some sem) (hdo : ¬ CanDo sem.semval op) (u : Nat) (w : Bool)
    (i : Nat) (rest : List Sembuf) : semPass sems u w i (op :: rest) = .stop sems u i op := by
  rw [semPass]
  simp only [hsem]
  split
  · rename_i hneg
    refine if_pos ?_
    by_contra hok
    refine hdo ⟨fun _ => by omega, ?_⟩
    intro hz
    simp [hz] at hneg
  · rename_i hneg
    split
    · rename_i hzero
      refine if_pos ?_
      by_contra hpos
      have hval : sem.semval = 0 := by bv_omega
      exact hdo ⟨fun h => absurd h hneg, fun _ => hval⟩
    · rename_i hzero
      exact absurd ⟨fun h => absurd h hneg, fun h => absurd h hzero⟩ hdo

end OpenBsd.Kern
