/-
  OpenBsd.Kern.Lockf

  The advisory byte-range locks of `kern/vfs_lockf.c`: the list of locks of one
  file and the operations of `lf_advlock` on it.

  As in `OpenBsd.Kern.Extent` the pointer `prev` into the list is a zipper: the
  locks before it in reverse order, and the locks from it on.  Offsets are 64-bit
  signed words that wrap around.  A thread runs up to its return or its `tsleep`;
  the lock structures of the threads asleep are part of the state.
-/

import Mathlib.Data.List.Basic
import Mathlib.Tactic.Ring

namespace OpenBsd.Kern

/-! ## Data -/

inductive LockType where
  | rdlck
  | unlck
  | wrlck
  deriving DecidableEq, Repr

/-- `struct lockf`, with the three bits of `lf_flags`. -/
structure Lockf where
  lfPosix : Bool
  lfFlock : Bool
  lfWait : Bool
  lfType : LockType
  lfStart : Int64
  lfEnd : Int64
  lfId : Nat
  lfUid : Nat
  lfPid : Int
  deriving DecidableEq, Repr

/-- `ui_lockcnt` of every uid. -/
abbrev Lockcnt := Nat → Int

def maxlocksperuid : Int := 1024

def Lockcnt.add (cnt : Lockcnt) (uid : Nat) (n : Int) : Lockcnt :=
  fun u => if u = uid then cnt u + n else cnt u

/-- `lf_alloc`, as far as it counts. -/
def lfAlloc (cnt : Lockcnt) (uid allowfail : Nat) : Option Lockcnt :=
  if uid ≠ 0 ∧ allowfail ≠ 0 ∧
      cnt uid > (if allowfail = 1 then maxlocksperuid else maxlocksperuid * 2) then none
  else some (cnt.add uid 1)

/-- `lf_free`, as far as it counts. -/
def lfFree (cnt : Lockcnt) (lock : Lockf) : Lockcnt := cnt.add lock.lfUid (-1)

/-! ## Overlaps -/

/-- `SELF` and `OTHERS` -/
inductive OverlapType where
  | self
  | others
  deriving DecidableEq, Repr

/-- The cases 1 to 5 of `lf_findoverlap`. -/
inductive OvCase where
  | equal
  | overlapContains
  | lockContains
  | startsBefore
  | endsAfter
  deriving DecidableEq, Repr

def noOverlap (lf lock : Lockf) : Bool :=
  (lf.lfEnd != -1 && lock.lfStart > lf.lfEnd) || (lock.lfEnd != -1 && lf.lfStart > lock.lfEnd)

/-- The other cases in their order; none is the panic behind them. -/
def ovCase (lf lock : Lockf) : Option OvCase :=
  if lf.lfStart == lock.lfStart && lf.lfEnd == lock.lfEnd then some .equal
  else if lf.lfStart ≤ lock.lfStart
      && (lf.lfEnd == -1 || (lock.lfEnd != -1 && lf.lfEnd ≥ lock.lfEnd)) then
    some .overlapContains
  else if lock.lfStart ≤ lf.lfStart
      && (lock.lfEnd == -1 || (lf.lfEnd != -1 && lock.lfEnd ≥ lf.lfEnd)) then
    some .lockContains
  else if lf.lfStart < lock.lfStart && (lf.lfEnd ≥ lock.lfStart || lf.lfEnd == -1) then
    some .startsBefore
  else if lf.lfStart > lock.lfStart && lock.lfEnd != -1
      && (lf.lfEnd > lock.lfEnd || lf.lfEnd == -1) then
    some .endsAfter
  else none

/-- What `lf_findoverlap` returns, with `*prev` and `*overlap` as a zipper. -/
inductive FindOverlap where
  | none (pre rest : List Lockf)
  | hit (ovcase : OvCase) (pre : List Lockf) (overlap : Lockf) (rest : List Lockf)
  | panic

def lfFindoverlap (type : OverlapType) (lock : Lockf) : (pre rest : List Lockf) → FindOverlap
  | pre, [] => .none pre []
  | pre, lf :: rest =>
    if (type == .self && lf.lfId != lock.lfId) || (type == .others && lf.lfId == lock.lfId) then
      lfFindoverlap type lock (lf :: pre) rest
    else if noOverlap lf lock then
      -- the early exit, sound only while the owner's locks are in order
      if type == .self && lock.lfEnd != -1 && lf.lfStart > lock.lfEnd then .none pre (lf :: rest)
      else lfFindoverlap type lock (lf :: pre) rest
    else
      match ovCase lf lock with
      | some ovcase => .hit ovcase pre lf rest
      | none => .panic

theorem lfFindoverlap_length {type : OverlapType} {lock overlap : Lockf}
    {pre rest pre' rest' : List Lockf} {ovcase : OvCase}
    (h : lfFindoverlap type lock pre rest = .hit ovcase pre' overlap rest') :
    rest'.length < rest.length := by
  induction rest generalizing pre with
  | nil => cases h
  | cons lf rest ih =>
    rw [lfFindoverlap] at h
    split at h
    · exact Nat.lt_succ_of_lt (ih h)
    · split at h
      · split at h
        · cases h
        · exact Nat.lt_succ_of_lt (ih h)
      · split at h
        · cases h
          exact Nat.lt_succ_self _
        · cases h

/-- `lf_getblock` from a place in the list on; the outer none is a panic. -/
def lfGetblock (lock : Lockf) (locks : List Lockf) : Option (Option Lockf) :=
  match _h : lfFindoverlap .others lock [] locks with
  | .none _ _ => some none
  | .hit _ _ overlap rest =>
    if lock.lfType == .wrlck || overlap.lfType == .wrlck then some (some overlap)
    else lfGetblock lock rest
  | .panic => none
termination_by locks.length
decreasing_by exact lfFindoverlap_length _h

/-! ## Setting and clearing -/

/-- `lf_split` of `lock1` around `lock2` for different starts, the only way it is
    called: `lock1` itself, and the new lock behind `lock2` if there is one. -/
def lfSplit (lock1 lock2 : Lockf) (cnt : Lockcnt) : Lockf × List Lockf × Lockcnt :=
  if lock1.lfEnd == lock2.lfEnd then ({ lock1 with lfEnd := lock2.lfStart - 1 }, [], cnt)
  else
    ({ lock1 with lfEnd := lock2.lfStart - 1 }, [{ lock1 with lfStart := lock2.lfEnd + 1 }],
      cnt.add lock1.lfUid 1)

/-- The second loop of `lf_setlock`, which adds the lock.  None is a panic of
    `lf_findoverlap`.  Where a lock that is in the list already is linked again, what
    stands between its place and the overlap leaves the list: the walk passes no other
    lock of its range and owner, so its place is the last one with its value. -/
def lfSetLoop (lock : Lockf) (pre rest : List Lockf) (needtolink : Bool) (cnt : Lockcnt) :
    Option (List Lockf × Lockcnt) :=
  match _h : lfFindoverlap .self lock pre rest with
  | .panic => none
  | .none pre rest =>
    if needtolink then some (pre.reverse ++ lock :: rest, cnt)
    else some (pre.reverse ++ rest, cnt)
  | .hit ovcase pre overlap rest' =>
    match ovcase, needtolink with
    | .equal, true =>
      some (pre.reverse ++ { overlap with lfType := lock.lfType } :: rest', lfFree cnt lock)
    | .overlapContains, true =>
      if overlap.lfType == lock.lfType then
        some (pre.reverse ++ overlap :: rest', lfFree cnt lock)
      else if overlap.lfStart == lock.lfStart then
        some (pre.reverse ++ lock :: { overlap with lfStart := lock.lfEnd + 1 } :: rest', cnt)
      else
        let (first, last, cnt) := lfSplit overlap lock cnt
        some (pre.reverse ++ first :: lock :: (last ++ rest'), cnt)
    | .lockContains, true => lfSetLoop lock (lock :: pre) rest' false (lfFree cnt overlap)
    | .lockContains, false => lfSetLoop lock pre rest' false (lfFree cnt overlap)
    | .startsBefore, true =>
      lfSetLoop lock (lock :: { overlap with lfEnd := lock.lfStart - 1 } :: pre) rest' false cnt
    | .endsAfter, true =>
      some (pre.reverse ++ lock :: { overlap with lfStart := lock.lfEnd + 1 } :: rest', cnt)
    | .endsAfter, false =>
      some (pre.reverse ++ { overlap with lfStart := lock.lfEnd + 1 } :: rest', cnt)
    | .equal, false =>
      -- the lock is freed, but stays in the list
      some (pre.reverse ++ { overlap with lfType := lock.lfType } :: rest', lfFree cnt lock)
    | .overlapContains, false =>
      if overlap.lfType == lock.lfType then
        -- freed in the list, as above
        some (pre.reverse ++ overlap :: rest', lfFree cnt lock)
      else if overlap.lfStart == lock.lfStart then
        some ((pre.dropWhile (· ≠ lock)).reverse ++
          { overlap with lfStart := lock.lfEnd + 1 } :: rest', cnt)
      else
        -- the overlap points at the lock, and nothing at the overlap
        let (_, last, cnt) := lfSplit overlap lock cnt
        some ((pre.dropWhile (· ≠ lock)).reverse ++ (last ++ rest'), cnt)
    | .startsBefore, false =>
      lfSetLoop lock (pre.dropWhile (· ≠ lock)) rest' false cnt
termination_by rest.length
decreasing_by all_goals exact lfFindoverlap_length _h

/-- `lf_clearlock` from a place in the list on. -/
def lfClearLoop (lock : Lockf) (pre rest : List Lockf) (cnt : Lockcnt) :
    Option (List Lockf × Lockcnt) :=
  match _h : lfFindoverlap .self lock pre rest with
  | .panic => none
  | .none pre rest => some (pre.reverse ++ rest, cnt)
  | .hit ovcase pre overlap rest' =>
    match ovcase with
    | .equal => some (pre.reverse ++ rest', lfFree cnt overlap)
    | .overlapContains =>
      if overlap.lfStart == lock.lfStart then
        some (pre.reverse ++ { overlap with lfStart := lock.lfEnd + 1 } :: rest', cnt)
      else
        let (first, last, cnt) := lfSplit overlap lock cnt
        some (pre.reverse ++ first :: (last ++ rest'), cnt)
    | .lockContains => lfClearLoop lock pre rest' (lfFree cnt overlap)
    | .startsBefore =>
      lfClearLoop lock ({ overlap with lfEnd := lock.lfStart - 1 } :: pre) rest' cnt
    | .endsAfter => some (pre.reverse ++ { overlap with lfStart := lock.lfEnd + 1 } :: rest', cnt)
termination_by rest.length
decreasing_by all_goals exact lfFindoverlap_length _h

def lfClearlock (lock : Lockf) (locks : List Lockf) (cnt : Lockcnt) :
    Option (List Lockf × Lockcnt) :=
  lfClearLoop lock [] locks cnt

/-! ## Threads -/

/-- The locks of a file, the lock structures of the threads asleep in
    `lf_setlock`, and the accounts. -/
structure LockSys where
  locks : List Lockf
  waiting : List Lockf
  uiLockcnt : Lockcnt

inductive LockError where
  | einval
  | enolck
  | eagain
  | edeadlk
  | eintr
  deriving DecidableEq, Repr

/-- The `struct flock` that `F_GETLK` hands back: the blocking lock's type, start,
    length and pid, or `F_UNLCK`. -/
inductive FlockReply where
  | unlck
  | blocked (lType : LockType) (lStart lLen : Int64) (lPid : Int)
  deriving DecidableEq, Repr

inductive LockOutcome where
  | ret (s : LockSys) (error : Option LockError) (reply : Option FlockReply)
  | sleep (s : LockSys)
  | panic

/-- `lf_setlock` up to its return or its `tsleep`.  `deadlock` is what the walk
    along the wait channels of other processes found; it is made for two POSIX
    locks only. -/
def lfSetlock (s : LockSys) (lock : Lockf) (deadlock : Bool) : LockOutcome :=
  match lfGetblock lock s.locks with
  | none => .panic
  | some (some block) =>
    if !lock.lfWait then
      .ret { s with uiLockcnt := lfFree s.uiLockcnt lock } (some .eagain) none
    else if lock.lfPosix && block.lfPosix && deadlock then
      .ret { s with uiLockcnt := lfFree s.uiLockcnt lock } (some .edeadlk) none
    else if lock.lfFlock && lock.lfType == .wrlck then
      -- shared locks held are given up before sleeping
      match lfClearlock { lock with lfType := .unlck } s.locks s.uiLockcnt with
      | none => .panic
      | some (locks, cnt) => .sleep ⟨locks, s.waiting ++ [lock], cnt⟩
    else .sleep { s with waiting := s.waiting ++ [lock] }
  | some none =>
    match lfSetLoop lock [] s.locks true s.uiLockcnt with
    | none => .panic
    | some (locks, cnt) => .ret { s with locks := locks, uiLockcnt := cnt } none none

def lfGetlock (lock : Lockf) (locks : List Lockf) : Option FlockReply :=
  (lfGetblock lock locks).map fun
    | none => .unlck
    | some block =>
      .blocked block.lfType block.lfStart
        (if block.lfEnd == -1 then 0 else block.lfEnd - block.lfStart + 1) block.lfPid

/-! ## The system call -/

inductive Whence where
  | seekSet
  | seekCur
  | seekEnd
  | other
  deriving DecidableEq, Repr

inductive LockOp where
  | setlk
  | unlck
  | getlk
  | other
  deriving DecidableEq, Repr

/-- A call of `lf_advlock`: the file's size, the owner, the operation, the flock
    structure, the flags and the calling process. -/
structure Advlock where
  size : Int64
  id : Nat
  op : LockOp
  lWhence : Whence
  lStart : Int64
  lLen : Int64
  lType : LockType
  posix : Bool
  flock : Bool
  wait : Bool
  uid : Nat
  pid : Int
  deriving DecidableEq, Repr

/-- The start and end of the flock structure; none where `lf_advlock` returns
    `EINVAL`. -/
def Advlock.range (a : Advlock) : Option (Int64 × Int64) :=
  let start : Option Int64 := match a.lWhence with
    | .seekSet => some a.lStart
    | .seekCur => some a.lStart
    | .seekEnd => some (a.size + a.lStart)
    | .other => none
  match start with
  | none => none
  | some start =>
    if start < 0 then none
    else if a.lLen == 0 then some (start, -1)
    else if start + a.lLen - 1 < start then none
    else some (start, start + a.lLen - 1)

/-- The lock structure of a call on `[start, stop]`. -/
def Advlock.lock (a : Advlock) (start stop : Int64) : Lockf where
  lfPosix := a.posix
  lfFlock := a.flock
  lfWait := a.wait
  lfType := a.lType
  lfStart := start
  lfEnd := stop
  lfId := a.id
  lfUid := a.uid
  lfPid := if a.posix then a.pid else -1

def lfAdvlock (s : LockSys) (a : Advlock) (deadlock : Bool) : LockOutcome :=
  match a.range with
  | none => .ret s (some .einval) none
  | some (start, stop) =>
    if s.locks.isEmpty && a.op != .setlk then .ret s none (some .unlck)
    else
      match lfAlloc s.uiLockcnt a.uid (if a.op == .setlk then 1 else 2) with
      | none => .ret s (some .enolck) none
      | some cnt =>
        let lock := a.lock start stop
        match a.op with
        | .setlk => lfSetlock { s with uiLockcnt := cnt } lock deadlock
        | .unlck =>
          match lfClearlock lock s.locks cnt with
          | none => .panic
          | some (locks, cnt) =>
            .ret { s with locks := locks, uiLockcnt := lfFree cnt lock } none none
        | .getlk =>
          match lfGetlock lock s.locks with
          | none => .panic
          | some reply => .ret { s with uiLockcnt := lfFree cnt lock } none (some reply)
        | .other => .ret { s with uiLockcnt := lfFree cnt lock } (some .einval) none

/-- A process calls `lf_advlock`, or the `i`th thread asleep wakes up, by
    `lf_wakelock` or by a signal. -/
inductive LockEvent where
  | advlock (a : Advlock) (deadlock : Bool)
  | wake (i : Nat) (intr deadlock : Bool)
  deriving DecidableEq, Repr

/-- The thread of `lock` back from `tsleep`. -/
def lfWake (s : LockSys) (lock : Lockf) (intr deadlock : Bool) : LockOutcome :=
  if intr then .ret { s with uiLockcnt := lfFree s.uiLockcnt lock } (some .eintr) none
  else lfSetlock s lock deadlock

/-- The state behind an outcome; none after a panic. -/
def LockOutcome.state : LockOutcome → Option LockSys
  | .ret s _ _ => some s
  | .sleep s => some s
  | .panic => none

def LockSys.step (s : LockSys) : LockEvent → Option LockSys
  | .advlock a deadlock => (lfAdvlock s a deadlock).state
  | .wake i intr deadlock =>
    match s.waiting[i]? with
    | some lock => (lfWake { s with waiting := s.waiting.eraseIdx i } lock intr deadlock).state
    | none => none

end OpenBsd.Kern
