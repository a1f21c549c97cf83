/-
  OpenBsd.Kern.Timeout

  The timing wheel of `kern/kern_timeout.c`: 1024 circular queues of timeouts in
  four levels, a worklist, and the calls that move timeouts between them.

  An `int` is a `BitVec 32` and is compared through its signed value; `ticks`
  wraps.  The queues are pointers (`Lib.Links`); `_Q_INVALIDATE` writes nothing
  in a kernel without `QUEUE_MACRO_DEBUG`.  Every call holds `timeout_mutex`, so
  that a call is one step; `softclock` gives the mutex up between two iterations
  of its loop, and one iteration is one step.
-/

import OpenBsd.Lib.Circq

namespace OpenBsd.Kern

open OpenBsd.Lib

/-! ## Data -/

/-- The queues: `timeout_todo` and the entries of `timeout_wheel`. -/
inductive Circq where
  | todo
  | wheel (b : Fin 1024)
  deriving DecidableEq, Repr

/-- `struct timeout` without its links, with the bits of `to_flags`. -/
structure Timeout where
  toFunc : Nat
  toArg : Nat
  toTime : BitVec 32
  onqueue : Bool
  initialized : Bool
  triggered : Bool
  deriving DecidableEq, Repr

/-- The links of the queues, the timeouts and the clock. -/
structure TimeoutState (τ : Type) where
  links : Links (Node Circq τ)
  timeouts : τ → Timeout
  ticks : BitVec 32

section

variable {τ : Type} [DecidableEq τ]

def TimeoutState.setTimeout (s : TimeoutState τ) (t : τ) (e : Timeout) : TimeoutState τ :=
  { s with timeouts := Function.update s.timeouts t e }

def TimeoutState.circqInsert (s : TimeoutState τ) (t : τ) (q : Circq) : TimeoutState τ :=
  { s with links := s.links.insert (.elem t) (.head q) }

def TimeoutState.circqRemove (s : TimeoutState τ) (t : τ) : TimeoutState τ :=
  { s with links := s.links.remove (.elem t) }

/-- `CIRCQ_APPEND(&timeout_todo, &timeout_wheel[b])`. -/
def TimeoutState.circqAppend (s : TimeoutState τ) (b : Fin 1024) : TimeoutState τ :=
  { s with links := s.links.append (.head .todo) (.head (.wheel b)) }

def TimeoutState.circqEmpty (s : TimeoutState τ) (q : Circq) : Bool :=
  s.links.next (.head q) = .head q

/-! ## The wheel -/

def wheelsize : Nat := 256

def wheelmask : BitVec 32 := 255

def wheelbits : Nat := 8

def maskwheel (wheel : Nat) (time : BitVec 32) : Nat :=
  (time.sshiftRight (wheel * wheelbits) &&& wheelmask).toNat

theorem maskwheel_lt (wheel : Nat) (time : BitVec 32) : maskwheel wheel time < 256 := by
  have hle : maskwheel wheel time ≤ wheelmask.toNat := by
    rw [maskwheel, BitVec.toNat_and]
    exact Nat.and_le_right
  exact Nat.lt_of_le_of_lt hle (by decide)

/-- The entry of `timeout_wheel` for a time on one of the four levels. -/
def wheelIndex (wheel : Fin 4) (time : BitVec 32) : Fin 1024 :=
  ⟨maskwheel wheel time + wheel * wheelsize, by
    have hlt := maskwheel_lt wheel time
    have hw := wheel.isLt
    simp only [wheelsize]
    omega⟩

def bucket (rel abs : BitVec 32) : Fin 1024 :=
  if rel.toInt ≤ 1 <<< (2 * wheelbits) then
    if rel.toInt ≤ 1 <<< wheelbits then wheelIndex 0 abs else wheelIndex 1 abs
  else if rel.toInt ≤ 1 <<< (3 * wheelbits) then wheelIndex 2 abs
  else wheelIndex 3 abs

def movebucket (wheel : Fin 4) (time : BitVec 32) (s : TimeoutState τ) : TimeoutState τ :=
  s.circqAppend (wheelIndex wheel time)

/-! ## Calls -/

def timeoutStartup (s : TimeoutState τ) : TimeoutState τ :=
  let links := s.links.init (.head .todo)
  { s with
    links := (List.finRange 1024).foldl (fun g b => g.init (.head (.wheel b))) links }

def timeoutSet (s : TimeoutState τ) (new : τ) (fn arg : Nat) : TimeoutState τ :=
  s.setTimeout new { s.timeouts new with
    toFunc := fn, toArg := arg, onqueue := false, initialized := true, triggered := false }

/-- `timeout_add`; `none` is a `panic`. -/
def timeoutAdd (s : TimeoutState τ) (new : τ) (toTicks : BitVec 32) :
    Option (Bool × TimeoutState τ) :=
  let e := s.timeouts new
  if e.initialized = false then none
  else if toTicks.toInt < 0 then none
  else
    let oldTime := e.toTime
    let toTime := toTicks + s.ticks
    if e.onqueue = true then
      let s := s.setTimeout new { e with toTime := toTime, triggered := false }
      if (toTime - s.ticks).toInt < (oldTime - s.ticks).toInt then
        some (false, (s.circqRemove new).circqInsert new .todo)
      else some (false, s)
    else
      let s := s.setTimeout new
        { e with toTime := toTime, triggered := false, onqueue := true }
      some (true, s.circqInsert new .todo)

def timeoutDel (s : TimeoutState τ) (t : τ) : Bool × TimeoutState τ :=
  let e := s.timeouts t
  if e.onqueue = true then
    (true, (s.circqRemove t).setTimeout t { e with onqueue := false, triggered := false })
  else (false, s.setTimeout t { e with triggered := false })

def timeoutHardclockUpdate (s : TimeoutState τ) : Bool × TimeoutState τ :=
  let ticks := s.ticks + 1
  let s := { s with ticks := ticks }
  let s := movebucket 0 ticks s
  let s :=
    if maskwheel 0 ticks = 0 then
      let s := movebucket 1 ticks s
      if maskwheel 1 ticks = 0 then
        let s := movebucket 2 ticks s
        if maskwheel 2 ticks = 0 then movebucket 3 ticks s else s
      else s
    else s
  (!s.circqEmpty .todo, s)

/-- One iteration of the loop of `softclock`: the call it makes, if any, and the
    state in which the mutex is given up or the next iteration starts.  `none` is
    the end of the loop. -/
def softclockIter (s : TimeoutState τ) : Option (Option (Nat × Nat) × TimeoutState τ) :=
  if s.circqEmpty .todo = true then none
  else
    match s.links.next (.head .todo) with
    | .head _ => none
    | .elem t =>
      let s := s.circqRemove t
      let e := s.timeouts t
      if 0 < (e.toTime - s.ticks).toInt then
        some (none, s.circqInsert t (.wheel (bucket (e.toTime - s.ticks) e.toTime)))
      else
        some (some (e.toFunc, e.toArg),
          s.setTimeout t { e with onqueue := false, triggered := true })

/-- The `while` loop of `timeout_adjust_ticks` over one bucket, from `p` on.  It
    gives no state if the fuel is used up or if it meets the head of another queue,
    which is not a timeout. -/
def adjustBucket (adj newTicks : BitVec 32) (b : Fin 1024) :
    Nat → Node Circq τ → TimeoutState τ → Option (TimeoutState τ)
  | 0, _, _ => none
  | fuel + 1, p, s =>
    match p with
    | .head q => if q = .wheel b then some s else none
    | .elem t =>
      let p := s.links.next p
      let e := s.timeouts t
      let s :=
        if (e.toTime - s.ticks).toInt < adj.toInt then
          s.setTimeout t { e with toTime := newTicks }
        else s
      adjustBucket adj newTicks b fuel p ((s.circqRemove t).circqInsert t .todo)

def timeoutAdjustTicks (fuel : Nat) (adj : BitVec 32) (s : TimeoutState τ) :
    Option (TimeoutState τ) :=
  if adj.toInt ≤ 0 then some s
  else do
    let newTicks := s.ticks + adj
    let s ← (List.finRange 1024).foldlM (fun s b =>
      adjustBucket adj newTicks b fuel (s.links.next (.head (.wheel b))) s) s
    return { s with ticks := newTicks }

end

end OpenBsd.Kern
