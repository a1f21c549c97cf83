/-
  OpenBsd.Kern.SysvSem

  The semaphores of `kern/sysv_sem.c`: `semget` for a private key, `semop` with its
  vector of operations, `SETVAL` and `SETALL` of `semctl`, and the undo structures
  that `semexit` applies.

  The loop of `sys_semop` is one try at a time: a call that has to sleep becomes a
  `SemWait`, and the thread tries again when it goes on.  `pool_get` finds memory
  without sleeping.  A semaphore set is not removed here.
-/

import Mathlib.Data.List.Basic
import Mathlib.Tactic.Ring

namespace OpenBsd.Kern

/-! ## The data -/

def ipcNowait : BitVec 16 := 0o4000

def semUndoFlag : BitVec 16 := 0o10000

def semume : Nat := 10

/-- `SEMVMX`, the value of `seminfo.semvmx`, which cannot be changed. -/
def semvmx : Nat := 32767

structure Sembuf where
  semNum : BitVec 16
  semOp : BitVec 16
  semFlg : BitVec 16
  deriving DecidableEq, Repr

structure Sem where
  semval : BitVec 16
  semncnt : BitVec 16
  semzcnt : BitVec 16
  deriving DecidableEq, Repr

/-- A set; `sem_nsems` is the length of `sem_base`. -/
structure SemidDs where
  seq : BitVec 16
  semBase : List Sem
  deriving DecidableEq, Repr

/-- An undo entry: `un_adjval` and `un_num` are of type `short`. -/
structure Undo where
  unAdjval : BitVec 16
  unNum : BitVec 16
  unId : Nat
  deriving DecidableEq, Repr

/-- `struct sem_undo`; `un_cnt` is the number of entries. -/
structure SemUndo (π : Type) where
  unProc : π
  unEnt : List Undo
  deriving DecidableEq, Repr

structure Seminfo where
  semmni : Nat
  semmns : Nat
  semmnu : Nat
  semmsl : Nat
  semopm : Nat
  deriving DecidableEq, Repr

/-- The variables of the kernel. -/
structure SemState (π : Type) where
  sema : Nat → Option SemidDs
  semseqs : Nat → BitVec 16
  semtot : Nat
  semuList : List (SemUndo π)
  semutot : Nat

inductive SemErrno where
  | eagain
  | einval
  | enospc
  | efbig
  | e2big
  | eacces
  | efault
  | eintr
  | eidrm
  | erange
  deriving DecidableEq, Repr

/-! ## Undo structures -/

/-- `un_ent[i] = un_ent[un_cnt]` behind a deleted entry. -/
def fillFromEnd (post : List Undo) : List Undo :=
  match post.getLast? with
  | none => []
  | some last => last :: post.dropLast

/-- What the loop of `semundo_adjust` does to the entries. -/
inductive Adjusted where
  | kept (ent : List Undo)
  | removed (ent : List Undo)
  | full
  deriving DecidableEq, Repr

def Undo.isFor (semid semnum : Nat) (u : Undo) : Bool :=
  u.unId = semid && u.unNum.toInt = (semnum : Int)

/-- The loop of `semundo_adjust`, and the new entry when none was found. -/
def adjustEnt (ent : List Undo) (semid semnum : Nat) (adjval : Int) : Adjusted :=
  let pre := ent.takeWhile (! ·.isFor semid semnum)
  match ent.dropWhile (! ·.isFor semid semnum) with
  | u :: post =>
    let adj := if adjval = 0 then 0 else u.unAdjval + BitVec.ofInt 16 adjval
    if adj ≠ 0 then .kept (pre ++ { u with unAdjval := adj } :: post)
    else .removed (pre ++ fillFromEnd post)
  | [] =>
    if adjval = 0 then .kept ent
    else if ent.length = semume then .full
    else .kept (ent ++ [⟨BitVec.ofInt 16 adjval, BitVec.ofNat 16 semnum, semid⟩])

/-- `suptr` in `sys_semop`: `NULL`, the structure of the process, or one that was given
    back to the pool and still has its entries. -/
inductive Suptr where
  | null
  | live
  | freed (ent : List Undo)
  deriving DecidableEq, Repr

section Undo

variable {π : Type} [DecidableEq π]

/-- The entries of a process. -/
def SemState.undoOf (s : SemState π) (pr : π) : List Undo :=
  match s.semuList.find? (·.unProc = pr) with
  | some u => u.unEnt
  | none => []

/-- The entries of a structure in the list are replaced. -/
def setEnt (pr : π) (ent : List Undo) : List (SemUndo π) → List (SemUndo π)
  | [] => []
  | u :: us => if u.unProc = pr then { u with unEnt := ent } :: us else u :: setEnt pr ent us

def semuAlloc (info : Seminfo) (s : SemState π) (pr : π) : Option (SemState π) :=
  if s.semutot = info.semmnu then none
  else some { s with semuList := ⟨pr, []⟩ :: s.semuList, semutot := s.semutot + 1 }

inductive AdjustEnd (π : Type) where
  | ok (s : SemState π) (suptr : Suptr)
  | error (e : SemErrno) (s : SemState π) (suptr : Suptr)
  /-- `SLIST_REMOVE` runs off the end of the list. -/
  | fault

/-- `semundo_adjust` behind the search for the structure. -/
def adjustLive (s : SemState π) (pr : π) (semid semnum : Nat) (adjval : Int) : AdjustEnd π :=
  match adjustEnt (s.undoOf pr) semid semnum adjval with
  | .kept ent => .ok { s with semuList := setEnt pr ent s.semuList } .live
  | .removed [] =>
    .ok { s with semuList := s.semuList.eraseP (·.unProc = pr), semutot := s.semutot - 1 }
      (.freed [])
  | .removed ent => .ok { s with semuList := setEnt pr ent s.semuList } .live
  | .full => .error .einval s .live

def semundoAdjust (info : Seminfo) (s : SemState π) (pr : π) (suptr : Suptr) (semid semnum : Nat)
    (adjval : Int) : AdjustEnd π :=
  match suptr with
  | .live => adjustLive s pr semid semnum adjval
  | .null =>
    if s.semuList.any (·.unProc = pr) then adjustLive s pr semid semnum adjval
    else if adjval = 0 then .ok s .null
    else
      match semuAlloc info s pr with
      | none => .error .enospc s .null
      | some s => adjustLive s pr semid semnum adjval
  | .freed ent =>
    match adjustEnt ent semid semnum adjval with
    | .kept ent => .ok s (.freed ent)
    | .removed [] => .fault
    | .removed ent => .ok s (.freed ent)
    | .full => .error .einval s (.freed ent)

/-- The inner loop of `semundo_clear`; `none` for the number stands for -1. -/
def clearEnt (semid : Nat) (semnum : Option Nat) (ent : List Undo) : List Undo :=
  match ent with
  | [] => []
  | u :: post =>
    if u.unId = semid then
      match semnum with
      | none => clearEnt semid none (fillFromEnd post)
      | some n =>
        if u.unNum.toInt = (n : Int) then fillFromEnd post else u :: post
    else u :: clearEnt semid semnum post
  termination_by ent.length
  decreasing_by
    · unfold fillFromEnd
      cases h : post.getLast? <;> simp_all
      cases post <;> simp_all
    · simp

def semundoClear (s : SemState π) (semid : Nat) (semnum : Option Nat) : SemState π :=
  let cleared := s.semuList.map fun u => { u with unEnt := clearEnt semid semnum u.unEnt }
  let kept := cleared.filter (·.unEnt ≠ [])
  { s with semuList := kept, semutot := s.semutot - (cleared.length - kept.length) }

end Undo

/-! ## Semop -/

/-- An operation that leaves an adjustment. -/
def Sembuf.undoes (op : Sembuf) : Bool := op.semFlg &&& semUndoFlag ≠ 0 && op.semOp ≠ 0

/-- The end of one pass over the vector: through all operations, stopped at the `i`-th one,
    or at a number behind the set. -/
inductive PassEnd where
  | through (sems : List Sem) (doUndos : Nat) (doWakeup : Bool)
  | stop (sems : List Sem) (doUndos : Nat) (i : Nat) (op : Sembuf)
  | efbig (sems : List Sem)
  deriving DecidableEq, Repr

/-- The loop over the vector. -/
def semPass (sems : List Sem) (doUndos : Nat) (doWakeup : Bool) (i : Nat) :
    List Sembuf → PassEnd
  | [] => .through sems doUndos doWakeup
  | op :: rest =>
    match sems[op.semNum.toNat]? with
    | none => .efbig sems
    | some sem =>
      let val := sem.semval + op.semOp
      let sems' := sems.set op.semNum.toNat { sem with semval := val }
      let doUndos' := if op.undoes then doUndos + 1 else doUndos
      if op.semOp.toInt < 0 then
        if (sem.semval.toNat : Int) + op.semOp.toInt < 0 then .stop sems doUndos i op
        else
          semPass sems' doUndos' (doWakeup || (val = 0 && 0 < sem.semzcnt)) (i + 1) rest
      else if op.semOp = 0 then
        if 0 < sem.semval then .stop sems doUndos i op
        else semPass sems doUndos doWakeup (i + 1) rest
      else semPass sems' doUndos' (doWakeup || 0 < sem.semncnt) (i + 1) rest

/-- The loop that takes operations back. -/
def semRollback (sems : List Sem) (ops : List Sembuf) : List Sem :=
  ops.foldl (fun sems op =>
    sems.modify op.semNum.toNat fun sem => { sem with semval := sem.semval - op.semOp }) sems

/-- A call that sleeps: the index of the set, the vector, `do_undos` and `*sopptr`. -/
structure SemWait where
  ix : Nat
  sops : List Sembuf
  doUndos : Nat
  op : Sembuf
  deriving DecidableEq, Repr

inductive SemopEnd (π : Type) where
  | done (s : SemState π) (doWakeup : Bool)
  | error (e : SemErrno) (s : SemState π)
  | sleep (s : SemState π) (w : SemWait)
  /-- `panic("semop - can't undo undos")`. -/
  | panic
  /-- The list of undo structures is read behind its end. -/
  | fault

inductive UndosEnd (π : Type) where
  | ok (s : SemState π)
  | error (e : SemErrno) (s : SemState π)
  | panic
  | fault

/-- A semaphore a thread sleeps on: `semzcnt` or `semncnt` is changed. -/
def countWaiter (op : Sembuf) (diff : BitVec 16) (sems : List Sem) : List Sem :=
  sems.modify op.semNum.toNat fun sem =>
    if op.semOp = 0 then { sem with semzcnt := sem.semzcnt + diff }
    else { sem with semncnt := sem.semncnt + diff }

section Semop

variable {π : Type} [DecidableEq π] (info : Seminfo)

def SemState.setSems (s : SemState π) (ix : Nat) (sems : List Sem) : SemState π :=
  let set := (s.sema ix).map fun ds => { ds with semBase := sems }
  { s with sema := Function.update s.sema ix set }

/-- The rollback of the adjustments, last one first. -/
def unrollUndos (s : SemState π) (pr : π) (suptr : Suptr) (semid : Nat) :
    List Sembuf → UndosEnd π
  | [] => .ok s
  | op :: before =>
    if op.undoes then
      match semundoAdjust info s pr suptr semid op.semNum.toNat op.semOp.toInt with
      | .ok s suptr => unrollUndos s pr suptr semid before
      | .error _ _ _ => .panic
      | .fault => .fault
    else unrollUndos s pr suptr semid before

/-- The loop behind the label `done`; `before` are the operations that were looked at,
    last one first. -/
def applyUndos (s : SemState π) (pr : π) (suptr : Suptr) (semid : Nat) (before : List Sembuf) :
    List Sembuf → UndosEnd π
  | [] => .ok s
  | op :: rest =>
    if op.undoes then
      match semundoAdjust info s pr suptr semid op.semNum.toNat (-op.semOp.toInt) with
      | .ok s suptr => applyUndos s pr suptr semid (op :: before) rest
      | .error e s suptr =>
        match unrollUndos info s pr suptr semid before with
        | .ok s => .error e s
        | r => r
      | .fault => .fault
    else applyUndos s pr suptr semid (op :: before) rest

/-- One round of the loop of `sys_semop`, on the set with the index `ix`. -/
def semTry (s : SemState π) (pr : π) (ix : Nat) (ds : SemidDs) (sops : List Sembuf)
    (doUndos : Nat) : SemopEnd π :=
  match semPass ds.semBase doUndos false 0 sops with
  | .efbig sems => .error .efbig (s.setSems ix sems)
  | .through sems doUndos doWakeup =>
    if semume < doUndos then .error .enospc (s.setSems ix (semRollback sems sops))
    else if doUndos = 0 then .done (s.setSems ix sems) doWakeup
    else
      match applyUndos info (s.setSems ix sems) pr .null ix [] sops with
      | .ok s => .done s doWakeup
      | .error e s => .error e (s.setSems ix (semRollback sems sops))
      | .panic => .panic
      | .fault => .fault
  | .stop sems doUndos i op =>
    let sems := semRollback sems (sops.take i)
    if semume < doUndos then .error .enospc (s.setSems ix sems)
    else if op.semFlg &&& ipcNowait ≠ 0 then .error .eagain (s.setSems ix sems)
    else .sleep (s.setSems ix (countWaiter op 1 sems)) ⟨ix, sops, doUndos, op⟩

def ipcidToIx (semid : BitVec 32) : Nat := (semid &&& 0xffff).toNat

def ipcidToSeq (semid : BitVec 32) : BitVec 16 := ((semid >>> 16) &&& 0xffff).setWidth 16

/-- The set with an identifier. -/
def SemState.find (s : SemState π) (semid : BitVec 32) : Option SemidDs :=
  if info.semmni ≤ ipcidToIx semid then none
  else (s.sema (ipcidToIx semid)).filter (·.seq = ipcidToSeq semid)

/-- The arguments of `semop`, with the answers of `ipcperm` and of `copyin`. -/
structure SemopArgs where
  semid : BitVec 32
  sops : List Sembuf
  perm : Bool
  copied : Bool

/-- `sys_semop`, until it returns or sleeps. -/
def sysSemop (s : SemState π) (pr : π) (a : SemopArgs) : SemopEnd π :=
  match s.find info a.semid with
  | none => .error .einval s
  | some ds =>
    if a.perm = false then .error .eacces s
    else if a.sops.length = 0 then .done s false
    else if info.semopm < a.sops.length then .error .e2big s
    else if a.copied = false then .error .efault s
    else semTry info s pr (ipcidToIx a.semid) ds a.sops 0

/-- `sys_semop` behind `tsleep`; `intr` when the sleep was interrupted. -/
def semResume (s : SemState π) (pr : π) (w : SemWait) (intr : Bool) : SemopEnd π :=
  match s.sema w.ix with
  | none => .error .eidrm s
  | some ds =>
    let ds := { ds with semBase := countWaiter w.op (-1) ds.semBase }
    let s := s.setSems w.ix ds.semBase
    if intr then .error .eintr s else semTry info s pr w.ix ds w.sops w.doUndos

/-! ## Semget, semctl and semexit -/

/-- `semget` for a private key. -/
def sysSemget (s : SemState π) (nsems : Int) : Except SemErrno (SemState π) :=
  if nsems ≤ 0 ∨ (info.semmsl : Int) < nsems then .error .einval
  else if (info.semmns : Int) - s.semtot < nsems then .error .enospc
  else
    match (List.range info.semmni).find? fun ix => (s.sema ix).isNone with
    | none => .error .enospc
    | some ix =>
      let seq := (s.semseqs ix + 1) &&& 0x7fff
      .ok { s with
        sema := Function.update s.sema ix (some ⟨seq, List.replicate nsems.toNat ⟨0, 0, 0⟩⟩)
        semseqs := Function.update s.semseqs ix seq
        semtot := s.semtot + nsems.toNat }

/-- `SETVAL` of `semctl1`, with the answer of `ipcperm`. -/
def semctlSetval (s : SemState π) (semid : BitVec 32) (semnum val : BitVec 32) (perm : Bool) :
    Except SemErrno (SemState π) :=
  match s.find info semid with
  | none => .error .einval
  | some ds =>
    if perm = false then .error .eacces
    else if semnum.toInt < 0 ∨ (ds.semBase.length : Int) ≤ semnum.toInt then .error .einval
    else if (semvmx : Int) < val.toInt then .error .erange
    else
      let n := semnum.toNat
      let sems := ds.semBase.modify n fun sem => { sem with semval := val.setWidth 16 }
      .ok (semundoClear (s.setSems (ipcidToIx semid) sems) (ipcidToIx semid) (some n))

/-- The first loop of `SETALL`; a value that `copyin` cannot read is missing. -/
def setallCheck : Nat → List (BitVec 16) → Except SemErrno (List (BitVec 16))
  | 0, _ => .ok []
  | _ + 1, [] => .error .efault
  | n + 1, val :: vals =>
    if semvmx < val.toNat then .error .erange
    else
      match setallCheck n vals with
      | .error e => .error e
      | .ok rest => .ok (val :: rest)

def semctlSetall (s : SemState π) (semid : BitVec 32) (array : List (BitVec 16)) (perm : Bool) :
    Except SemErrno (SemState π) :=
  match s.find info semid with
  | none => .error .einval
  | some ds =>
    if perm = false then .error .eacces
    else
      match setallCheck ds.semBase.length array with
      | .error e => .error e
      | .ok vals =>
        let sems := ds.semBase.zipWith (fun sem val => { sem with semval := val }) vals
        .ok (semundoClear (s.setSems (ipcidToIx semid) sems) (ipcidToIx semid) none)

/-- What `semexit` does to one value. -/
def exitVal (val adjval : BitVec 16) : BitVec 16 :=
  if adjval.toInt < 0 ∧ (val.toNat : Int) < -adjval.toInt then 0 else val + adjval

/-- The loop of `semexit` over the entries; it stops with a panic, or writes outside of the
    set when `un_num` is negative. -/
def exitLoop (s : SemState π) : List Undo → Option (SemState π)
  | [] => some s
  | u :: us =>
    match s.sema u.unId with
    | none => none
    | some ds =>
      if u.unNum.toInt < 0 ∨ (ds.semBase.length : Int) ≤ u.unNum.toInt then none
      else
        let sems := ds.semBase.modify u.unNum.toNat fun sem =>
          { sem with semval := exitVal sem.semval u.unAdjval }
        exitLoop (s.setSems u.unId sems) us

def semexit (s : SemState π) (pr : π) : Option (SemState π) :=
  match s.semuList.find? (·.unProc = pr) with
  | none => some s
  | some u =>
    (exitLoop s u.unEnt).map fun s =>
      { s with semuList := s.semuList.eraseP (·.unProc = pr), semutot := s.semutot - 1 }

end Semop

/-! ## The system -/

/-- The kernel and the threads that sleep in `semop`. -/
structure SemSystem (τ π : Type) where
  kern : SemState π
  waiting : τ → Option SemWait

inductive SemEvent (τ π : Type) where
  | get (nsems : Int)
  | op (t : τ) (a : SemopArgs)
  | resume (t : τ) (intr : Bool)
  | setval (semid semnum val : BitVec 32) (perm : Bool)
  | setall (semid : BitVec 32) (array : List (BitVec 16)) (perm : Bool)
  | exit (pr : π)

section System

variable {τ π : Type} [DecidableEq τ] [DecidableEq π] (info : Seminfo) (proc : τ → π)

/-- The end of a round of `sys_semop`; nothing comes after a panic or a fault. -/
def semEnd (sys : SemSystem τ π) (t : τ) : SemopEnd π → Option (SemSystem τ π)
  | .done s _ => some ⟨s, Function.update sys.waiting t none⟩
  | .error _ s => some ⟨s, Function.update sys.waiting t none⟩
  | .sleep s w => some ⟨s, Function.update sys.waiting t (some w)⟩
  | .panic => none
  | .fault => none

/-- A call that fails changes nothing. -/
def orSame (sys : SemSystem τ π) : Except SemErrno (SemState π) → SemSystem τ π
  | .ok s => { sys with kern := s }
  | .error _ => sys

/-- One step of the system. A thread that sleeps may be woken at any time. -/
def semStep (sys : SemSystem τ π) : SemEvent τ π → Option (SemSystem τ π)
  | .get nsems => some (orSame sys (sysSemget info sys.kern nsems))
  | .op t a =>
    match sys.waiting t with
    | some _ => none
    | none => semEnd sys t (sysSemop info sys.kern (proc t) a)
  | .resume t intr =>
    match sys.waiting t with
    | none => none
    | some w => semEnd sys t (semResume info sys.kern (proc t) w intr)
  | .setval semid semnum val perm =>
    some (orSame sys (semctlSetval info sys.kern semid semnum val perm))
  | .setall semid array perm => some (orSame sys (semctlSetall info sys.kern semid array perm))
  | .exit pr => (semexit sys.kern pr).map fun s => { sys with kern := s }

def semInit : SemSystem τ π := ⟨⟨fun _ => none, fun _ => 0, 0, [], 0⟩, fun _ => none⟩

end System

end OpenBsd.Kern
