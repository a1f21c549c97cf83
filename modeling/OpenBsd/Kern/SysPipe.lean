/-
  OpenBsd.Kern.SysPipe

  One direction of a pipe, from `kern/sys_pipe.c`: `pipe_read` and `pipe_write` of any
  number of threads.

  A thread runs from one place where it can sleep to the next: `pipelock`, the calls of
  `tsleep`, `km_alloc` in `pipespace`, and every byte that `uiomovei` copies.  The jump to
  `retrywrite` is a step of its own.  All sleepers wait on the pipe, and `wakeup` makes
  them all run.  `pipe_busy` and `PIPE_WANT` are for `pipeclose` and left out, as is
  everything for `select`.  `moved` and `delivered` record the bytes that went in and out.
-/

import OpenBsd.Lib.Run
import OpenBsd.Lib.Ring

namespace OpenBsd.Kern

open OpenBsd.Lib

/-! ## The data -/

def pipeSize : Nat := 16384

def bigPipeSize : Nat := 64 * 1024

def pipeBuf : Nat := 512

def minpipesize : Nat := pipeSize / 3

def limitbigpipes : Int := 32

/-- `struct pipebuf`. -/
structure Pipebuf (α : Type) where
  cnt : Nat
  inPtr : Nat
  outPtr : Nat
  size : Nat
  buffer : Nat → α

/-- Where a thread sleeps, with the local variables it still needs: `uio_resid`, `nread`,
    `orig_resid`, `space`, `size`, the bytes copied so far, and `FNONBLOCK`. -/
inductive PipeStage (α : Type) where
  | idle
  /-- `pipe_read` in `pipelock`; `first` is the call at its start. -/
  | readLock (first nonblock : Bool) (resid : Nat)
  /-- `pipe_read` in `uiomovei`. -/
  | readMove (nonblock : Bool) (resid nread size : Nat) (got : List α)
  /-- `pipe_read` waits for data. -/
  | readWait (nonblock : Bool) (resid : Nat)
  /-- `pipe_write` in `pipelock` before it resizes the pipe. -/
  | resizeLock (nonblock : Bool) (resid : Nat)
  /-- `pipe_write` in `pipespace`. -/
  | resize (nonblock : Bool) (resid : Nat)
  /-- `pipe_write` at `retrywrite`. -/
  | retrywrite (nonblock : Bool) (origResid resid : Nat)
  /-- `pipe_write` in `pipelock`. -/
  | writeLock (nonblock : Bool) (origResid resid space : Nat)
  /-- `pipe_write` in `uiomovei`. -/
  | writeMove (nonblock : Bool) (origResid resid size : Nat) (put : List α)
  /-- `pipe_write` waits for space. -/
  | writeWait (nonblock : Bool) (origResid resid : Nat)

/-- The pipe with its state bits, and the threads. -/
structure PipeState (τ α : Type) where
  pipe : Pipebuf α
  lock : Bool
  lwant : Bool
  wantr : Bool
  wantw : Bool
  eof : Bool
  nbigpipe : Int
  stage : τ → PipeStage α
  asleep : τ → Bool
  moved : List α
  delivered : List α

section

variable {τ α : Type} [DecidableEq τ]

/-! ## Sleeping -/

def PipeState.wakeup (s : PipeState τ α) : PipeState τ α := { s with asleep := fun _ => false }

def PipeState.setStage (s : PipeState τ α) (t : τ) (st : PipeStage α) : PipeState τ α :=
  { s with stage := Function.update s.stage t st }

def PipeState.sleep (s : PipeState τ α) (t : τ) (st : PipeStage α) : PipeState τ α :=
  { s.setStage t st with asleep := Function.update s.asleep t true }

/-- `pipelock`: go on with the lock, or sleep. -/
def pipelock (s : PipeState τ α) (t : τ) (wait : PipeStage α)
    (taken : PipeState τ α → PipeState τ α) : PipeState τ α :=
  if s.lock then ({ s with lwant := true } : PipeState τ α).sleep t wait
  else taken { s with lock := true }

def pipeunlock (s : PipeState τ α) : PipeState τ α :=
  let s := { s with lock := false }
  if s.lwant then ({ s with lwant := false } : PipeState τ α).wakeup else s

/-- The write side, or the read side, is woken when it waits. -/
def PipeState.wakeWriters (s : PipeState τ α) : PipeState τ α :=
  if s.wantw then ({ s with wantw := false } : PipeState τ α).wakeup else s

def PipeState.wakeReaders (s : PipeState τ α) : PipeState τ α :=
  if s.wantr then ({ s with wantr := false } : PipeState τ α).wakeup else s

/-! ## Reading -/

/-- `pipe_read` from `unlocked_error` on. -/
def readExit (s : PipeState τ α) (t : τ) : PipeState τ α :=
  let s := if s.pipe.cnt < minpipesize then s.wakeWriters else s
  s.setStage t .idle

/-- The loop of `pipe_read`, with the lock, up to the next place where it sleeps. -/
def readLoop (t : τ) (nonblock : Bool) (resid nread : Nat) (s : PipeState τ α) :
    PipeState τ α :=
  if resid = 0 then readExit (pipeunlock s) t
  else if 0 < s.pipe.cnt then
    let size := min (min (s.pipe.size - s.pipe.outPtr) s.pipe.cnt) resid
    s.setStage t (.readMove nonblock resid nread size [])
  else if s.eof then readExit (pipeunlock s) t
  else
    let s := s.wakeWriters
    if 0 < nread then readExit (pipeunlock s) t
    else
      let s := pipeunlock s
      if nonblock then readExit s t
      else ({ s with wantr := true } : PipeState τ α).sleep t (.readWait nonblock resid)

/-- The pointers behind a move out of the buffer. -/
def Pipebuf.take (p : Pipebuf α) (size : Nat) : Pipebuf α :=
  let out := if p.size ≤ p.outPtr + size then 0 else p.outPtr + size
  let cnt := p.cnt - size
  if cnt = 0 then { p with cnt := cnt, inPtr := 0, outPtr := 0 }
  else { p with cnt := cnt, outPtr := out }

/-- A reader has got its bytes. -/
def PipeState.deliver (s : PipeState τ α) (size : Nat) (got : List α) : PipeState τ α :=
  { s with pipe := s.pipe.take size, delivered := s.delivered ++ got }

/-- `uiomovei` copies a byte to a reader; the last one ends the move. -/
def readByte (s : PipeState τ α) (t : τ) (nonblock : Bool) (resid nread size : Nat)
    (got : List α) : PipeState τ α :=
  let got := got ++ [s.pipe.buffer (s.pipe.outPtr + got.length)]
  if got.length < size then s.setStage t (.readMove nonblock resid nread size got)
  else readLoop t nonblock (resid - size) (nread + size) (s.deliver size got)

/-! ## Writing -/

/-- `pipe_write` behind its loop. -/
def writeExit (s : PipeState τ α) (t : τ) : PipeState τ α :=
  let s := if 0 < s.pipe.cnt then s.wakeReaders else s
  s.setStage t .idle

/-- The space that a write may use; small writes are atomic. -/
def Pipebuf.space (p : Pipebuf α) (origResid resid : Nat) : Nat :=
  let space := p.size - p.cnt
  if space < resid ∧ origResid ≤ pipeBuf then 0 else space

/-- `pipe_write` with the lock. -/
def writeTake (t : τ) (nonblock : Bool) (origResid resid space : Nat) (s : PipeState τ α) :
    PipeState τ α :=
  if s.pipe.size - s.pipe.cnt < space then
    (pipeunlock s).setStage t (.retrywrite nonblock origResid resid)
  else s.setStage t (.writeMove nonblock origResid resid (min space resid) [])

def writeRetry (s : PipeState τ α) (t : τ) (nonblock : Bool) (origResid resid : Nat) :
    PipeState τ α :=
  if s.eof then writeExit s t
  else
    let space := s.pipe.space origResid resid
    if 0 < space then
      pipelock s t (.writeLock nonblock origResid resid space)
        (writeTake t nonblock origResid resid space)
    else
      let s := s.wakeReaders
      if nonblock then writeExit s t
      else
        ({ s with wantw := true } : PipeState τ α).sleep t (.writeWait nonblock origResid resid)

def writeLoop (s : PipeState τ α) (t : τ) (nonblock : Bool) (origResid resid : Nat) :
    PipeState τ α :=
  if resid = 0 then writeExit s t else writeRetry s t nonblock origResid resid

/-- The pointers behind a move into the buffer. -/
def Pipebuf.give (p : Pipebuf α) (size : Nat) : Pipebuf α :=
  let segsize := min (p.size - p.inPtr) size
  let inPtr := if p.size ≤ p.inPtr + size then size - segsize else p.inPtr + size
  { p with inPtr := inPtr, cnt := p.cnt + size }

/-- The byte number `k` of a move goes into the first segment or the second one. -/
def Pipebuf.store (p : Pipebuf α) (size k : Nat) (b : α) : Pipebuf α :=
  let segsize := min (p.size - p.inPtr) size
  let pos := if k < segsize then p.inPtr + k else k - segsize
  { p with buffer := Function.update p.buffer pos b }

/-- A writer has put its bytes. -/
def PipeState.accept (s : PipeState τ α) (size : Nat) (put : List α) : PipeState τ α :=
  { s with pipe := s.pipe.give size, moved := s.moved ++ put }

/-- `uiomovei` copies a byte from a writer; the last one ends the move. -/
def writeByte (s : PipeState τ α) (t : τ) (nonblock : Bool) (origResid resid size : Nat)
    (put : List α) (b : α) : PipeState τ α :=
  let s := { s with pipe := s.pipe.store size put.length b }
  let put := put ++ [b]
  if put.length < size then s.setStage t (.writeMove nonblock origResid resid size put)
  else
    writeLoop (pipeunlock (s.accept size put)) t nonblock origResid (resid - size)

/-- The end of `pipespace`: a new buffer, or none. -/
def pipespace (s : PipeState τ α) (size : Nat) : Option (Nat → α) → PipeState τ α
  | none => s
  | some buffer =>
    let nbigpipe := if pipeSize < s.pipe.size then s.nbigpipe - 1 else s.nbigpipe
    { s with pipe := ⟨0, 0, 0, size, buffer⟩, nbigpipe := nbigpipe + 1 }

/-! ## Steps -/

inductive PipeEvent (τ α : Type) where
  /-- A thread calls `pipe_read` or `pipe_write`. -/
  | read (t : τ) (nonblock : Bool) (resid : Nat)
  | write (t : τ) (nonblock : Bool) (resid : Nat)
  /-- A thread that was woken goes on. -/
  | run (t : τ)
  /-- A signal ends the sleep. -/
  | signal (t : τ)
  /-- `uiomovei` copies a byte, which is `b` for a writer. -/
  | byte (t : τ) (b : α)
  /-- `uiomovei` fails. -/
  | fault (t : τ)
  /-- `km_alloc` returns. -/
  | alloc (t : τ) (buffer : Option (Nat → α))
  /-- The other side is closed. -/
  | eof
  /-- Other pipes change `nbigpipe`. -/
  | big (n : Int)

/-- `pipe_write` up to its loop. -/
def writeCall (s : PipeState τ α) (t : τ) (nonblock : Bool) (resid : Nat) : PipeState τ α :=
  if s.eof then s
  else if pipeSize < resid ∧ s.nbigpipe < limitbigpipes ∧ s.pipe.size ≤ pipeSize ∧
      s.pipe.cnt = 0 then
    pipelock s t (.resizeLock nonblock resid) fun s => s.setStage t (.resize nonblock resid)
  else writeLoop s t nonblock resid resid

/-- A thread goes on behind a sleep. -/
def pipeRun (s : PipeState τ α) (t : τ) : Option (PipeState τ α) :=
  match s.stage t with
  | .readLock first nonblock resid =>
    some (pipelock s t (.readLock first nonblock resid) (readLoop t nonblock resid 0))
  | .readWait nonblock resid =>
    some (pipelock s t (.readLock false nonblock resid) (readLoop t nonblock resid 0))
  | .resizeLock nonblock resid =>
    some (pipelock s t (.resizeLock nonblock resid) fun s => s.setStage t (.resize nonblock resid))
  | .retrywrite nonblock origResid resid => some (writeRetry s t nonblock origResid resid)
  | .writeLock nonblock origResid resid space =>
    some (pipelock s t (.writeLock nonblock origResid resid space)
      (writeTake t nonblock origResid resid space))
  | .writeWait nonblock origResid resid =>
    if s.eof then some (writeExit s t) else some (writeLoop s t nonblock origResid resid)
  | _ => none

/-- A sleep ends with an error. -/
def pipeSignal (s : PipeState τ α) (t : τ) : Option (PipeState τ α) :=
  match s.stage t with
  | .readLock first _ _ => some (if first then s.setStage t .idle else readExit s t)
  | .readWait _ _ => some (readExit s t)
  | .resizeLock _ _ => some (s.setStage t .idle)
  | .writeLock _ _ _ _ => some (writeExit s t)
  | .writeWait _ _ _ => some (writeExit s t)
  | _ => none

def pipeStep (s : PipeState τ α) : PipeEvent τ α → Option (PipeState τ α)
  | .read t nonblock resid =>
    match s.stage t with
    | .idle => some (pipelock s t (.readLock true nonblock resid) (readLoop t nonblock resid 0))
    | _ => none
  | .write t nonblock resid =>
    match s.stage t with
    | .idle => some (writeCall s t nonblock resid)
    | _ => none
  | .run t => if s.asleep t then none else pipeRun s t
  | .signal t => pipeSignal s t
  | .byte t b =>
    match s.stage t with
    | .readMove nonblock resid nread size got =>
      some (readByte s t nonblock resid nread size got)
    | .writeMove nonblock origResid resid size put =>
      some (writeByte s t nonblock origResid resid size put b)
    | _ => none
  | .fault t =>
    match s.stage t with
    | .readMove _ _ _ _ _ => some (readExit (pipeunlock s) t)
    | .writeMove _ _ _ _ _ => some (writeExit (pipeunlock s) t)
    | _ => none
  | .alloc t buffer =>
    match s.stage t with
    | .resize nonblock resid =>
      some (writeLoop (pipeunlock (pipespace s bigPipeSize buffer)) t nonblock resid resid)
    | _ => none
  | .eof => some ({ s with eof := true } : PipeState τ α).wakeup
  | .big n => some { s with nbigpipe := n }

/-- `pipe_create`; `buffer` is what `km_alloc` returns. -/
def pipeCreate (nbigpipe : Int) (buffer : Nat → α) : PipeState τ α where
  pipe := ⟨0, 0, 0, pipeSize, buffer⟩
  lock := false
  lwant := false
  wantr := false
  wantw := false
  eof := false
  nbigpipe := nbigpipe
  stage _ := .idle
  asleep _ := false
  moved := []
  delivered := []

end

end OpenBsd.Kern
