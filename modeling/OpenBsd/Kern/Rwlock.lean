/-
  OpenBsd.Kern.Rwlock

  The readers-writer locks of `kern/kern_rwlock.c`: one word, changed by
  compare-and-swap, and threads that run through the code one load or swap at a
  time.

  `sleep_setup` takes the scheduler lock and `wakeup` needs it, so that no wakeup
  comes between the swap that sets the wait bits and the sleep; going to sleep
  belongs to that swap.  The checks of a `DIAGNOSTIC` kernel only stop the machine
  and are left out.  `struct rwlock` is its `rwl_owner`; an `unsigned long` has 64
  bits.
-/

import OpenBsd.Lib.Run
import Mathlib.Data.Finset.Card
import Mathlib.Tactic.Ring

namespace OpenBsd.Kern

open OpenBsd.Lib

/-! ## The word -/

def rwlockWait : BitVec 64 := 0x01

def rwlockWrlock : BitVec 64 := 0x04

def rwlockMask : BitVec 64 := 0x07

def rwlockReadIncr : BitVec 64 := 1 <<< 3

def rwProc (p : BitVec 64) : BitVec 64 := p &&& ~~~rwlockMask

/-- The operations of `rw_enter`. -/
inductive RwOp where
  | write
  | read
  | downgrade
  deriving DecidableEq, Repr

/-- The columns `inc`, `check`, `wait_set` and `proc_mult` of `rw_ops`. -/
def RwOp.inc : RwOp → BitVec 64
  | .write => rwlockWrlock
  | .read => rwlockReadIncr
  | .downgrade => rwlockReadIncr - rwlockWrlock

def RwOp.check : RwOp → BitVec 64
  | .write => BitVec.allOnes 64
  | .read => rwlockWrlock
  | .downgrade => 0

def RwOp.procMult : RwOp → BitVec 64
  | .write => 1
  | .read => 0
  | .downgrade => -1

/-- `RW_INTR`, `RW_SLEEPFAIL` and `RW_NOSLEEP`. -/
structure RwFlags where
  intr : Bool := false
  sleepfail : Bool := false
  nosleep : Bool := false
  deriving DecidableEq, Repr

/-! ## Threads -/

/-- What a thread holds. -/
inductive Held where
  | nothing
  | read
  | write
  deriving DecidableEq, Repr

/-- Where a thread is in the code, with the local variables it still needs. -/
inductive Stage where
  /-- Outside. -/
  | idle
  /-- `rw_enter_read` after its load. -/
  | enterRead (owner : BitVec 64)
  /-- `rw_enter` before the load of `o`. -/
  | enter (op : RwOp) (flags : RwFlags)
  /-- `rw_enter` before the swap that takes the lock. -/
  | take (op : RwOp) (flags : RwFlags) (o : BitVec 64)
  /-- `rw_enter` before the swap that sets the wait bits. -/
  | setWait (op : RwOp) (flags : RwFlags) (o : BitVec 64)
  /-- Asleep on the lock. -/
  | asleep (op : RwOp) (flags : RwFlags)
  /-- Behind `sleep_finish`. -/
  | woken (op : RwOp) (flags : RwFlags)
  /-- `rw_exit_read` after its load. -/
  | exitRead (owner : BitVec 64)
  /-- `rw_exit_write` after its load. -/
  | exitWrite (owner : BitVec 64)
  /-- `rw_exit` before its first load. -/
  | exit
  /-- `rw_exit` at the start of the loop. -/
  | exitLoad (wrlock : Bool)
  /-- `rw_exit` before the swap. -/
  | exitSwap (wrlock : Bool) (owner : BitVec 64)
  /-- Before `wakeup(rwl)`. -/
  | wakeup
  deriving DecidableEq, Repr

structure RwThread where
  held : Held
  stage : Stage
  deriving DecidableEq, Repr

/-- The lock and the threads. -/
structure RwState (τ : Type) where
  owner : BitVec 64
  threads : τ → RwThread

/-- The addresses of the `struct proc` of the threads.  Two of them are apart by the
    size of the structure, which is more than 8 bytes, and none is `NULL`. -/
structure ProcTable (τ : Type) where
  proc : τ → BitVec 64
  apart : Function.Injective fun t => rwProc (proc t)
  nonnull : ∀ t, rwProc (proc t) ≠ 0

section

variable {τ : Type} [DecidableEq τ] (P : ProcTable τ)

def RwState.setStage (s : RwState τ) (t : τ) (stage : Stage) : RwState τ :=
  { s with threads := Function.update s.threads t { s.threads t with stage := stage } }

def RwState.setThread (s : RwState τ) (t : τ) (held : Held) (stage : Stage) : RwState τ :=
  { s with threads := Function.update s.threads t ⟨held, stage⟩ }

/-- What a thread holds after `rw_enter`. -/
def RwOp.holds : RwOp → Held
  | .write => .write
  | .read => .read
  | .downgrade => .read

/-- `wakeup(rwl)` by the thread `t`: all sleepers go on behind `sleep_finish`. -/
def rwWakeup (s : RwState τ) (t : τ) : RwState τ :=
  { s with threads := fun u =>
      if u = t then { s.threads u with stage := .idle }
      else match (s.threads u).stage with
        | .asleep op flags => { s.threads u with stage := .woken op flags }
        | _ => s.threads u }

def rwInc (t : τ) (op : RwOp) : BitVec 64 := op.inc + rwProc (P.proc t) * op.procMult

def rwInit : RwState τ := ⟨0, fun _ => ⟨.nothing, .idle⟩⟩

end

end OpenBsd.Kern
