/-
  OpenBsd.Kern.SysPipeSafe

  The bytes of a pipe of `kern/sys_pipe.c` over all interleavings of its readers and
  writers.

  A thread changes the buffer only while it holds the pipe lock, and then no other thread
  copies bytes; what a thread has copied so far is a window of the ring.  The exception is
  the resize, which was decided before the lock was taken: it throws away what is in the
  buffer by then.
-/

import OpenBsd.Kern.SysPipe

namespace OpenBsd.Kern

open OpenBsd.Lib

variable {size origResid resid : Nat} {nonblock : Bool}

/-! ## The ring -/

section Ring

variable {α : Type} {p : Pipebuf α}

/-- The bytes in the buffer. -/
def Pipebuf.contents (p : Pipebuf α) : List α := window p.buffer p.size p.outPtr p.cnt

/-- The pointers of a ring that is not overfull. -/
structure PipeGeom (p : Pipebuf α) : Prop where
  pos : 0 < p.size
  out_lt : p.outPtr < p.size
  in_eq : p.inPtr = (p.outPtr + p.cnt) % p.size
  cnt_le : p.cnt ≤ p.size

theorem PipeGeom.in_lt (h : PipeGeom p) : p.inPtr < p.size := by
  rw [h.in_eq]
  exact Nat.mod_lt _ h.pos

theorem PipeGeom.pos_eq (h : PipeGeom p) {k : Nat} (hk : k < size) (hroom : p.cnt + size ≤ p.size) :
    (if k < min (p.size - p.inPtr) size then p.inPtr + k
      else k - min (p.size - p.inPtr) size) = (p.outPtr + p.cnt + k) % p.size := by
  have hin := h.in_lt
  have hmod : (p.outPtr + p.cnt + k) % p.size = (p.inPtr + k) % p.size := by
    rw [h.in_eq, Nat.mod_add_mod]
  rw [hmod]
  by_cases hwrap : p.inPtr + k < p.size
  · rw [Nat.mod_eq_of_lt hwrap, if_pos (by omega)]
  · rw [if_neg (by omega), Nat.mod_eq_sub_mod (by omega), Nat.mod_eq_of_lt (by omega)]
    omega

theorem PipeGeom.take (h : PipeGeom p) (hcnt : size ≤ p.cnt) (hseg : p.outPtr + size ≤ p.size) :
    PipeGeom (p.take size) := by
  have hpos := h.pos
  have hout := h.out_lt
  have hle := h.cnt_le
  have hin := h.in_eq
  simp only [Pipebuf.take]
  split
  · exact ⟨hpos, hpos, by simp_all, by simp only; omega⟩
  · split
    · refine ⟨hpos, hpos, ?_, by simp only; omega⟩
      simp only [hin]
      rw [show p.outPtr + p.cnt = p.size + (0 + (p.cnt - size)) by omega, Nat.add_mod_left]
    · refine ⟨hpos, by simp only; omega, ?_, by simp only; omega⟩
      simp only [hin]
      congr 1
      omega

theorem Pipebuf.contents_take (hcnt : size ≤ p.cnt) (hseg : p.outPtr + size ≤ p.size) :
    p.contents = window p.buffer p.size p.outPtr size ++ (p.take size).contents := by
  have hsplit : p.contents = window p.buffer p.size p.outPtr size ++
      window p.buffer p.size ((p.outPtr + size) % p.size) (p.cnt - size) := by
    rw [← window_add, Nat.add_sub_cancel' hcnt]
    rfl
  rw [hsplit]
  simp only [Pipebuf.take]
  congr 1
  split
  · rename_i hzero
    simp [Pipebuf.contents, hzero]
  · split
    · rw [show p.outPtr + size = p.size by omega, Nat.mod_self]
      rfl
    · rw [Nat.mod_eq_of_lt (by omega)]
      rfl

theorem PipeGeom.give (h : PipeGeom p) (hroom : p.cnt + size ≤ p.size) :
    PipeGeom (p.give size) := by
  have hin := h.in_lt
  refine ⟨h.pos, h.out_lt, ?_, hroom⟩
  simp only [Pipebuf.give]
  rw [← Nat.add_assoc, ← Nat.mod_add_mod, ← h.in_eq]
  split
  · rw [Nat.mod_eq_sub_mod (by omega), Nat.mod_eq_of_lt (by omega)]
    omega
  · rw [Nat.mod_eq_of_lt (by omega)]

theorem PipeGeom.contents_give (h : PipeGeom p) (size : Nat) :
    (p.give size).contents = p.contents ++ window p.buffer p.size p.inPtr size := by
  rw [h.in_eq]
  exact window_add p.cnt size

end Ring

/-! ## The invariant -/

section Invariant

variable {τ α : Type} {s s' : PipeState τ α} {t : τ}

def PipeStage.Holds : PipeStage α → Prop
  | .readMove _ _ _ _ _ => True
  | .resize _ _ => True
  | .writeMove _ _ _ _ _ => True
  | _ => False

/-- What is known about a thread from where it sleeps: what it has copied so far is a
    window of the ring. -/
def PipeStage.Ok (p : Pipebuf α) : PipeStage α → Prop
  | .readMove _ _ _ size got => got.length < size ∧ size ≤ p.cnt ∧ p.outPtr + size ≤ p.size ∧
      got = window p.buffer p.size p.outPtr got.length
  | .writeMove _ _ _ size put => put.length < size ∧ p.cnt + size ≤ p.size ∧
      put = window p.buffer p.size p.inPtr put.length
  | .retrywrite _ _ resid => 0 < resid
  | .writeLock _ _ resid space => 0 < resid ∧ 0 < space
  | .writeWait _ _ resid => 0 < resid
  | _ => True

variable {st : PipeStage α}

theorem PipeStage.Ok.of_not_holds {p p' : Pipebuf α} (h : st.Ok p)
    (hno : ¬ st.Holds) : st.Ok p' := by
  cases st with
  | readMove nonblock resid nread size got => exact absurd trivial hno
  | writeMove nonblock origResid resid size put => exact absurd trivial hno
  | _ => exact h

/-- The bytes that went out and those in the buffer are those that went in. -/
structure Flow (s : PipeState τ α) : Prop where
  geom : PipeGeom s.pipe
  data : s.delivered ++ s.pipe.contents = s.moved

/-- The threads other than `t`. -/
structure OthersOk (t : τ) (s : PipeState τ α) : Prop where
  ok : ∀ u ≠ t, (s.stage u).Ok s.pipe
  alone : ∀ u ≠ t, ∀ v ≠ t, (s.stage u).Holds → (s.stage v).Holds → u = v
  locked : ∀ u ≠ t, (s.stage u).Holds → s.lock = true

/-- No other thread holds the lock. -/
def Alone (t : τ) (s : PipeState τ α) : Prop := ∀ u ≠ t, ¬ (s.stage u).Holds

structure PipeInv (s : PipeState τ α) : Prop where
  flow : Flow s
  ok : ∀ t, (s.stage t).Ok s.pipe
  alone : ∀ t u, (s.stage t).Holds → (s.stage u).Holds → t = u
  locked : ∀ t, (s.stage t).Holds → s.lock = true

theorem PipeInv.others (h : PipeInv s) (t : τ) : OthersOk t s :=
  ⟨fun u _ => h.ok u, fun u _ v _ => h.alone u v, fun u _ => h.locked u⟩

theorem PipeInv.alone_of_holds (h : PipeInv s) (ht : (s.stage t).Holds) : Alone t s := by
  intro u hu hholds
  exact hu (h.alone u t hholds ht)

theorem OthersOk.alone_of_unlocked (h : OthersOk t s) (hlock : s.lock = false) : Alone t s := by
  intro u hu hholds
  rw [h.locked u hu hholds] at hlock
  cases hlock

/-- The thread `t` goes to another place and leaves the bytes as they are. -/
structure Goes (t : τ) (s s' : PipeState τ α) : Prop where
  pipe : s'.pipe = s.pipe
  moved : s'.moved = s.moved
  delivered : s'.delivered = s.delivered
  others : ∀ u ≠ t, s'.stage u = s.stage u
  ok : (s'.stage t).Ok s.pipe
  locked : (s'.stage t).Holds → s'.lock = true
  keeps : ∀ u ≠ t, (s.stage u).Holds → s'.lock = true ∧ ¬ (s'.stage t).Holds

theorem PipeInv.of_goes (hflow : Flow s) (hothers : OthersOk t s) (hg : Goes t s s') :
    PipeInv s' := by
  refine ⟨⟨?_, ?_⟩, ?_, ?_, ?_⟩
  · rw [hg.pipe]
    exact hflow.geom
  · rw [hg.pipe, hg.moved, hg.delivered]
    exact hflow.data
  · intro u
    rw [hg.pipe]
    by_cases hu : u = t
    · rw [hu]
      exact hg.ok
    · rw [hg.others u hu]
      exact hothers.ok u hu
  · intro u v hhu hhv
    by_cases hu : u = t
    · by_cases hv : v = t
      · rw [hu, hv]
      · rw [hg.others v hv] at hhv
        rw [hu] at hhu
        exact absurd hhu (hg.keeps v hv hhv).2
    · rw [hg.others u hu] at hhu
      by_cases hv : v = t
      · rw [hv] at hhv
        exact absurd hhv (hg.keeps u hu hhu).2
      · rw [hg.others v hv] at hhv
        exact hothers.alone u hu v hv hhu hhv
  · intro u hhu
    by_cases hu : u = t
    · rw [hu] at hhu
      exact hg.locked hhu
    · rw [hg.others u hu] at hhu
      exact (hg.keeps u hu hhu).1

/-- Only flags and sleepers change. -/
structure Same (s s' : PipeState τ α) : Prop where
  pipe : s'.pipe = s.pipe
  moved : s'.moved = s.moved
  delivered : s'.delivered = s.delivered
  stage : s'.stage = s.stage

theorem Same.alone (h : Same s s') (ha : Alone t s) : Alone t s' := by
  intro u hu
  rw [h.stage]
  exact ha u hu

variable {s₁ : PipeState τ α}

theorem Goes.of_same (hg : Goes t s₁ s') (h : Same s s₁) : Goes t s s' := by
  refine ⟨hg.pipe.trans h.pipe, hg.moved.trans h.moved, hg.delivered.trans h.delivered, ?_, ?_,
    hg.locked, ?_⟩
  · intro u hu
    rw [hg.others u hu, h.stage]
  · rw [← h.pipe]
    exact hg.ok
  · intro u hu hholds
    rw [← h.stage] at hholds
    exact hg.keeps u hu hholds

theorem same_pipeunlock (s : PipeState τ α) : Same s (pipeunlock s) := by
  rw [pipeunlock]
  simp only
  split <;> exact ⟨rfl, rfl, rfl, rfl⟩

theorem same_wakeWriters (s : PipeState τ α) : Same s s.wakeWriters := by
  rw [PipeState.wakeWriters]
  split <;> exact ⟨rfl, rfl, rfl, rfl⟩

theorem same_wakeReaders (s : PipeState τ α) : Same s s.wakeReaders := by
  rw [PipeState.wakeReaders]
  split <;> exact ⟨rfl, rfl, rfl, rfl⟩

@[simp] theorem lock_wakeWriters (s : PipeState τ α) : s.wakeWriters.lock = s.lock := by
  rw [PipeState.wakeWriters]
  split <;> rfl

@[simp] theorem lock_wakeReaders (s : PipeState τ α) : s.wakeReaders.lock = s.lock := by
  rw [PipeState.wakeReaders]
  split <;> rfl

variable [DecidableEq τ]

theorem goes_setStage (hguard : ∀ u ≠ t, (s.stage u).Holds → s.lock = true)
    (hok : st.Ok s.pipe) (hno : ¬ st.Holds) : Goes t s (s.setStage t st) := by
  have hself : (s.setStage t st).stage t = st := Function.update_self _ _ _
  refine ⟨rfl, rfl, rfl, fun u hu => Function.update_of_ne hu _ _, ?_, ?_, ?_⟩
  · rw [hself]
    exact hok
  · rw [hself]
    exact fun h => absurd h hno
  · rw [hself]
    exact fun u hu hholds => ⟨hguard u hu hholds, hno⟩

theorem goes_setStage_holds (ha : Alone t s) (hlock : s.lock = true)
    (hok : st.Ok s.pipe) : Goes t s (s.setStage t st) := by
  have hself : (s.setStage t st).stage t = st := Function.update_self _ _ _
  refine ⟨rfl, rfl, rfl, fun u hu => Function.update_of_ne hu _ _, ?_, fun _ => hlock, ?_⟩
  · rw [hself]
    exact hok
  · exact fun u hu hholds => absurd hholds (ha u hu)

theorem goes_sleep (hguard : ∀ u ≠ t, (s.stage u).Holds → s.lock = true)
    (hok : st.Ok s.pipe) (hno : ¬ st.Holds) : Goes t s (s.sleep t st) := by
  have h := goes_setStage hguard hok hno
  exact ⟨h.pipe, h.moved, h.delivered, h.others, h.ok, h.locked, h.keeps⟩

/-! ## Reading -/

theorem readExit_goes (hguard : ∀ u ≠ t, (s.stage u).Holds → s.lock = true) :
    Goes t s (readExit s t) := by
  rw [readExit]
  split
  · refine Goes.of_same (goes_setStage ?_ trivial id) (same_wakeWriters s)
    rw [(same_wakeWriters s).stage, lock_wakeWriters]
    exact hguard
  · exact goes_setStage hguard trivial id

omit [DecidableEq τ] in
theorem Alone.guard (ha : Alone t s) {b : Bool} : ∀ u ≠ t, (s.stage u).Holds → s.lock = b :=
  fun u hu hholds => absurd hholds (ha u hu)

theorem readExit_unlock_goes (ha : Alone t s) : Goes t s (readExit (pipeunlock s) t) :=
  Goes.of_same (readExit_goes ((same_pipeunlock s).alone ha).guard) (same_pipeunlock s)

theorem readLoop_goes (ha : Alone t s) (hlock : s.lock = true) (hgeom : PipeGeom s.pipe)
    (nonblock : Bool) (resid nread : Nat) : Goes t s (readLoop t nonblock resid nread s) := by
  rw [readLoop]
  split
  · exact readExit_unlock_goes ha
  · rename_i hresid
    split
    · rename_i hcnt
      have hout := hgeom.out_lt
      refine goes_setStage_holds ha hlock ⟨?_, ?_, ?_, rfl⟩
      · simp only [List.length_nil]
        omega
      · omega
      · omega
    · split
      · exact readExit_unlock_goes ha
      · refine Goes.of_same ?_ (same_wakeWriters s)
        have ha' := (same_wakeWriters s).alone ha
        simp only
        split
        · exact readExit_unlock_goes ha'
        · have ha'' := (same_pipeunlock _).alone ha'
          refine Goes.of_same ?_ (same_pipeunlock _)
          split
          · exact readExit_goes ha''.guard
          · have hsleep : Goes t { pipeunlock s.wakeWriters with wantr := true }
                (({ pipeunlock s.wakeWriters with wantr := true } : PipeState τ α).sleep t
                  (.readWait nonblock resid)) := goes_sleep ha''.guard trivial id
            exact hsleep.of_same ⟨rfl, rfl, rfl, rfl⟩

theorem pipelock_goes (hothers : OthersOk t s) {wait : PipeStage α}
    {taken : PipeState τ α → PipeState τ α} (hok : wait.Ok s.pipe) (hno : ¬ wait.Holds)
    (htaken : Alone t { s with lock := true } → Goes t { s with lock := true } (taken { s with lock := true })) :
    Goes t s (pipelock s t wait taken) := by
  rw [pipelock]
  split
  · have hsleep : Goes t { s with lwant := true }
        (({ s with lwant := true } : PipeState τ α).sleep t wait) :=
      goes_sleep hothers.locked hok hno
    exact hsleep.of_same ⟨rfl, rfl, rfl, rfl⟩
  · rename_i hlock
    have ha := hothers.alone_of_unlocked (by simpa using hlock)
    exact (htaken ha).of_same ⟨rfl, rfl, rfl, rfl⟩

theorem pipelock_read_goes (hothers : OthersOk t s) (hgeom : PipeGeom s.pipe)
    (first nonblock : Bool) (resid : Nat) :
    Goes t s (pipelock s t (.readLock first nonblock resid) (readLoop t nonblock resid 0)) :=
  pipelock_goes hothers trivial id fun ha => readLoop_goes ha rfl hgeom nonblock resid 0

/-! ## Writing -/

theorem writeExit_goes (hguard : ∀ u ≠ t, (s.stage u).Holds → s.lock = true) :
    Goes t s (writeExit s t) := by
  rw [writeExit]
  split
  · refine Goes.of_same (goes_setStage ?_ trivial id) (same_wakeReaders s)
    rw [(same_wakeReaders s).stage, lock_wakeReaders]
    exact hguard
  · exact goes_setStage hguard trivial id

theorem writeTake_goes (ha : Alone t s) (hlock : s.lock = true) (hgeom : PipeGeom s.pipe)
    (nonblock : Bool) {space : Nat} (hresid : 0 < resid) (hspace : 0 < space) :
    Goes t s (writeTake t nonblock origResid resid space s) := by
  have hle := hgeom.cnt_le
  rw [writeTake]
  split
  · refine Goes.of_same (goes_setStage ?_ hresid id) (same_pipeunlock s)
    exact ((same_pipeunlock s).alone ha).guard
  · refine goes_setStage_holds ha hlock ⟨?_, ?_, rfl⟩
    · simp only [List.length_nil]
      omega
    · omega

section

variable (hothers : OthersOk t s) (hgeom : PipeGeom s.pipe)
include hothers hgeom

theorem pipelock_write_goes (nonblock : Bool) {space : Nat} (hresid : 0 < resid)
    (hspace : 0 < space) :
    Goes t s (pipelock s t (.writeLock nonblock origResid resid space)
      (writeTake t nonblock origResid resid space)) :=
  pipelock_goes hothers ⟨hresid, hspace⟩ id fun ha => writeTake_goes ha rfl hgeom nonblock hresid hspace

theorem writeRetry_goes (nonblock : Bool) (hresid : 0 < resid) :
    Goes t s (writeRetry s t nonblock origResid resid) := by
  rw [writeRetry]
  split
  · exact writeExit_goes hothers.locked
  · simp only
    split
    · rename_i hspace
      exact pipelock_write_goes hothers hgeom nonblock hresid hspace
    · have hguard : ∀ u ≠ t, (s.wakeReaders.stage u).Holds → s.wakeReaders.lock = true := by
        rw [(same_wakeReaders s).stage, lock_wakeReaders]
        exact hothers.locked
      refine Goes.of_same ?_ (same_wakeReaders s)
      split
      · exact writeExit_goes hguard
      · have hsleep : Goes t { s.wakeReaders with wantw := true }
            (({ s.wakeReaders with wantw := true } : PipeState τ α).sleep t
              (.writeWait nonblock origResid resid)) := goes_sleep hguard hresid id
        exact hsleep.of_same ⟨rfl, rfl, rfl, rfl⟩

theorem writeLoop_goes (nonblock : Bool) (origResid resid : Nat) :
    Goes t s (writeLoop s t nonblock origResid resid) := by
  rw [writeLoop]
  split
  · exact writeExit_goes hothers.locked
  · rename_i hresid
    exact writeRetry_goes hothers hgeom nonblock (Nat.pos_of_ne_zero hresid)

theorem writeCall_goes (hidle : s.stage t = .idle) (nonblock : Bool) (resid : Nat) :
    Goes t s (writeCall s t nonblock resid) := by
  rw [writeCall]
  split
  · refine ⟨rfl, rfl, rfl, fun _ _ => rfl, ?_, ?_, ?_⟩
    · rw [hidle]
      exact trivial
    · rw [hidle]
      exact False.elim
    · intro u hu hholds
      rw [hidle]
      exact ⟨hothers.locked u hu hholds, id⟩
  · split
    · exact pipelock_goes hothers trivial id fun ha => goes_setStage_holds ha rfl trivial
    · exact writeLoop_goes hothers hgeom nonblock resid resid

end

/-! ## Bytes -/

omit [DecidableEq τ] in
theorem Alone.others (ha : Alone t s) (hothers : OthersOk t s)
    (hstage : s₁.stage = s.stage) : OthersOk t s₁ := by
  refine ⟨?_, ?_, ?_⟩
  · intro u hu
    rw [hstage]
    exact (hothers.ok u hu).of_not_holds (ha u hu)
  · intro u hu v hv hhu
    rw [hstage] at hhu
    exact absurd hhu (ha u hu)
  · intro u hu hhu
    rw [hstage] at hhu
    exact absurd hhu (ha u hu)

theorem readByte_inv (h : PipeInv s) {nread : Nat} {got : List α}
    (hst : s.stage t = .readMove nonblock resid nread size got) :
    PipeInv (readByte s t nonblock resid nread size got) := by
  have hholds : (s.stage t).Holds := by
    rw [hst]
    exact trivial
  have hok := h.ok t
  rw [hst] at hok
  obtain ⟨hlt, hcnt, hseg, hgot⟩ := hok
  have ha := h.alone_of_holds hholds
  have hlock := h.locked t hholds
  -- one byte more is a longer window
  have hnext : got ++ [s.pipe.buffer (s.pipe.outPtr + got.length)] =
      window s.pipe.buffer s.pipe.size s.pipe.outPtr (got.length + 1) := by
    rw [window_add, ← hgot]
    simp [window, Nat.mod_eq_of_lt (show s.pipe.outPtr + got.length < s.pipe.size by omega)]
  simp only [readByte]
  split
  · rename_i hmore
    refine PipeInv.of_goes h.flow (h.others t) (goes_setStage_holds ha hlock ⟨hmore, hcnt, hseg, ?_⟩)
    rw [List.length_append, List.length_singleton]
    exact hnext
  · rename_i hdone
    have hlast : got.length + 1 = size := by
      rw [List.length_append, List.length_singleton] at hdone
      omega
    rw [hlast] at hnext
    have hgeom := h.flow.geom.take hcnt hseg
    have hflow : Flow (s.deliver size (got ++ [s.pipe.buffer (s.pipe.outPtr + got.length)])) := by
      refine ⟨hgeom, ?_⟩
      rw [PipeState.deliver, hnext, List.append_assoc, ← Pipebuf.contents_take hcnt hseg]
      exact h.flow.data
    refine PipeInv.of_goes hflow (ha.others (h.others t) rfl) ?_
    exact readLoop_goes (show Alone t (s.deliver size _) from ha) hlock hgeom nonblock (resid - size)
      (nread + size)

/-- A byte is put behind the bytes in the buffer and those that the writer has put there. -/
def Pipebuf.put (p : Pipebuf α) (k : Nat) (b : α) : Pipebuf α :=
  { p with buffer := Function.update p.buffer ((p.outPtr + p.cnt + k) % p.size) b }

theorem PipeGeom.put {p : Pipebuf α} (h : PipeGeom p) (k : Nat) (b : α) : PipeGeom (p.put k b) :=
  ⟨h.pos, h.out_lt, h.in_eq, h.cnt_le⟩

theorem contents_put {p : Pipebuf α} {k : Nat} (hk : p.cnt + k < p.size) (b : α) :
    (p.put k b).contents = p.contents := window_update hk b

theorem window_put {p : Pipebuf α} (h : PipeGeom p) {put : List α}
    (hput : put = window p.buffer p.size p.inPtr put.length) (hk : put.length < p.size) (b : α) :
    put ++ [b] = window (p.put put.length b).buffer p.size p.inPtr (put.length + 1) := by
  have hpos : (p.outPtr + p.cnt + put.length) % p.size = (p.inPtr + put.length + 0) % p.size := by
    rw [h.in_eq, Nat.add_zero, Nat.mod_add_mod]
  have hold : window (p.put put.length b).buffer p.size p.inPtr put.length = put := by
    rw [Pipebuf.put, hpos, window_update (by omega) b]
    exact hput.symm
  rw [window_add, hold]
  congr 1
  simp [window, Pipebuf.put, hpos]

theorem accept_inv (hflow : Flow s) (hothers : OthersOk t s) (ha : Alone t s)
    (hroom : s.pipe.cnt + size ≤ s.pipe.size) {put : List α}
    (hput : put = window s.pipe.buffer s.pipe.size s.pipe.inPtr size) (nonblock : Bool)
    (origResid resid : Nat) :
    PipeInv (writeLoop (pipeunlock (s.accept size put)) t nonblock origResid resid) := by
  have hgive : PipeGeom (s.pipe.give size) := hflow.geom.give hroom
  have hunlock := same_pipeunlock (s.accept size put)
  have hgoes := writeLoop_goes (ha.others hothers hunlock.stage)
    (by rw [hunlock.pipe]; exact hgive) nonblock origResid resid
  have hflow' : Flow (s.accept size put) := by
    refine ⟨hgive, ?_⟩
    rw [PipeState.accept, hflow.geom.contents_give size, ← List.append_assoc, hflow.data, hput]
  exact PipeInv.of_goes hflow' (ha.others hothers rfl) (hgoes.of_same hunlock)

theorem writeByte_inv (h : PipeInv s) {put : List α}
    (hst : s.stage t = .writeMove nonblock origResid resid size put) (b : α) :
    PipeInv (writeByte s t nonblock origResid resid size put b) := by
  have hholds : (s.stage t).Holds := by
    rw [hst]
    exact trivial
  have hok := h.ok t
  rw [hst] at hok
  obtain ⟨hlt, hroom, hput⟩ := hok
  have ha := h.alone_of_holds hholds
  have hlock := h.locked t hholds
  have hgeom := h.flow.geom
  have hcontents := contents_put (p := s.pipe) (k := put.length) (by omega) b
  have hnext := window_put hgeom hput (by omega) b
  have hstore : s.pipe.store size put.length b = s.pipe.put put.length b := by
    simp only [Pipebuf.store, hgeom.pos_eq hlt hroom]
    rfl
  simp only [writeByte, hstore]
  have hothers : OthersOk t { s with pipe := s.pipe.put put.length b } :=
    ha.others (h.others t) rfl
  have hflow : Flow { s with pipe := s.pipe.put put.length b } := by
    refine ⟨hgeom.put _ _, ?_⟩
    rw [hcontents]
    exact h.flow.data
  split
  · rename_i hmore
    refine PipeInv.of_goes hflow hothers (goes_setStage_holds ha hlock ⟨hmore, hroom, ?_⟩)
    rw [List.length_append, List.length_singleton]
    exact hnext
  · rename_i hdone
    have hlast : put.length + 1 = size := by
      rw [List.length_append, List.length_singleton] at hdone
      omega
    rw [hlast] at hnext
    exact accept_inv hflow hothers ha hroom hnext nonblock origResid (resid - size)

theorem alloc_inv (h : PipeInv s) (hst : s.stage t = .resize nonblock resid)
    {buffer : Option (Nat → α)} (hempty : buffer.isSome = true → s.pipe.cnt = 0) :
    PipeInv (writeLoop (pipeunlock (pipespace s bigPipeSize buffer)) t nonblock resid resid) := by
  have hholds : (s.stage t).Holds := by
    rw [hst]
    exact trivial
  have ha := h.alone_of_holds hholds
  have hstage : (pipespace s bigPipeSize buffer).stage = s.stage := by
    cases buffer <;> rfl
  have hflow : Flow (pipespace s bigPipeSize buffer) := by
    cases buffer with
    | none => exact h.flow
    | some buffer =>
      have hdata := h.flow.data
      rw [Pipebuf.contents, hempty rfl, window_zero] at hdata
      refine ⟨⟨?_, ?_, rfl, Nat.zero_le _⟩, hdata⟩
      · exact Nat.succ_pos _
      · exact Nat.succ_pos _
  have hunlock := same_pipeunlock (pipespace s bigPipeSize buffer)
  have hgoes := writeLoop_goes (ha.others (h.others t) (hunlock.stage.trans hstage))
    (by rw [hunlock.pipe]; exact hflow.geom) nonblock resid resid
  exact PipeInv.of_goes hflow (ha.others (h.others t) hstage) (hgoes.of_same hunlock)

/-! ## Steps and runs -/

theorem fault_inv (h : PipeInv s) (hholds : (s.stage t).Holds) :
    PipeInv (readExit (pipeunlock s) t) ∧ PipeInv (writeExit (pipeunlock s) t) := by
  have ha := h.alone_of_holds hholds
  have hguard := ((same_pipeunlock s).alone ha).guard (b := true)
  exact ⟨PipeInv.of_goes h.flow (h.others t) (readExit_unlock_goes ha),
    PipeInv.of_goes h.flow (h.others t) ((writeExit_goes hguard).of_same (same_pipeunlock s))⟩

theorem pipeRun_inv (h : PipeInv s) (hs : pipeRun s t = some s') : PipeInv s' := by
  have hothers := h.others t
  have hgeom := h.flow.geom
  have hok := h.ok t
  refine PipeInv.of_goes h.flow hothers ?_
  rw [pipeRun] at hs
  cases hst : s.stage t with
  | readLock first nonblock resid =>
    simp only [hst, Option.some.injEq] at hs
    subst hs
    exact pipelock_read_goes hothers hgeom first nonblock resid
  | readWait nonblock resid =>
    simp only [hst, Option.some.injEq] at hs
    subst hs
    exact pipelock_read_goes hothers hgeom false nonblock resid
  | resizeLock nonblock resid =>
    simp only [hst, Option.some.injEq] at hs
    subst hs
    exact pipelock_goes hothers trivial id fun ha => goes_setStage_holds ha rfl trivial
  | retrywrite nonblock origResid resid =>
    simp only [hst, Option.some.injEq] at hs
    subst hs
    rw [hst] at hok
    exact writeRetry_goes hothers hgeom nonblock hok
  | writeLock nonblock origResid resid space =>
    simp only [hst, Option.some.injEq] at hs
    subst hs
    rw [hst] at hok
    exact pipelock_write_goes hothers hgeom nonblock hok.1 hok.2
  | writeWait nonblock origResid resid =>
    simp only [hst] at hs
    split at hs
    · cases hs
      exact writeExit_goes hothers.locked
    · cases hs
      exact writeLoop_goes hothers hgeom nonblock origResid resid
  | idle => simp [hst] at hs
  | readMove nonblock resid nread size got => simp [hst] at hs
  | resize nonblock resid => simp [hst] at hs
  | writeMove nonblock origResid resid size put => simp [hst] at hs

theorem pipeSignal_inv (h : PipeInv s) (hs : pipeSignal s t = some s') : PipeInv s' := by
  have hguard := (h.others t).locked
  refine PipeInv.of_goes h.flow (h.others t) ?_
  rw [pipeSignal] at hs
  split at hs
  · cases hs
    split
    · exact goes_setStage hguard trivial id
    · exact readExit_goes hguard
  · cases hs
    exact readExit_goes hguard
  · cases hs
    exact goes_setStage hguard trivial id
  · cases hs
    exact writeExit_goes hguard
  · cases hs
    exact writeExit_goes hguard
  · cases hs

/-- A resize finds the pipe empty. -/
def ResizesEmpty (s : PipeState τ α) : PipeEvent τ α → Prop
  | .alloc _ buffer => buffer.isSome = true → s.pipe.cnt = 0
  | _ => True

theorem pipeStep_inv (h : PipeInv s) {ev : PipeEvent τ α} (hev : ResizesEmpty s ev)
    (hs : pipeStep s ev = some s') : PipeInv s' := by
  cases ev with
  | read t nonblock resid =>
    rw [pipeStep] at hs
    split at hs
    · cases hs
      exact PipeInv.of_goes h.flow (h.others t)
        (pipelock_read_goes (h.others t) h.flow.geom true nonblock resid)
    · cases hs
  | write t nonblock resid =>
    rw [pipeStep] at hs
    split at hs
    · rename_i hidle
      cases hs
      exact PipeInv.of_goes h.flow (h.others t)
        (writeCall_goes (h.others t) h.flow.geom hidle nonblock resid)
    · cases hs
  | run t =>
    rw [pipeStep] at hs
    split at hs
    · cases hs
    · exact pipeRun_inv h hs
  | signal t => exact pipeSignal_inv h hs
  | byte t b =>
    rw [pipeStep] at hs
    split at hs
    · rename_i hst
      cases hs
      exact readByte_inv h hst
    · rename_i hst
      cases hs
      exact writeByte_inv h hst b
    · cases hs
  | fault t =>
    rw [pipeStep] at hs
    split at hs
    · rename_i hst
      cases hs
      exact (fault_inv h (by rw [hst]; exact trivial)).1
    · rename_i hst
      cases hs
      exact (fault_inv h (by rw [hst]; exact trivial)).2
    · cases hs
  | alloc t buffer =>
    rw [pipeStep] at hs
    split at hs
    · rename_i hst
      cases hs
      exact alloc_inv h hst hev
    · cases hs
  | eof =>
    cases hs
    exact ⟨⟨h.flow.geom, h.flow.data⟩, h.ok, h.alone, h.locked⟩
  | big n =>
    cases hs
    exact ⟨⟨h.flow.geom, h.flow.data⟩, h.ok, h.alone, h.locked⟩

omit [DecidableEq τ] in
theorem pipeCreate_inv (nbigpipe : Int) (buffer : Nat → α) :
    PipeInv (pipeCreate nbigpipe buffer : PipeState τ α) :=
  ⟨⟨⟨Nat.succ_pos _, Nat.succ_pos _, rfl, Nat.zero_le _⟩, rfl⟩, fun _ => trivial,
    fun _ _ h => h.elim, fun _ h => h.elim⟩

/-- **No byte is lost, duplicated or reordered**, and the buffer is never overfull, in every
    run in which a resize finds the pipe empty. -/
theorem pipe_bytes_run {nbigpipe : Int} {buffer : Nat → α} {es : List (PipeEvent τ α)}
    (h : Run pipeStep ResizesEmpty (pipeCreate nbigpipe buffer) es s) :
    s.delivered ++ s.pipe.contents = s.moved ∧ s.pipe.cnt ≤ s.pipe.size := by
  have hstep : ∀ (s : PipeState τ α) (e : PipeEvent τ α) (s' : PipeState τ α), PipeInv s →
      ResizesEmpty s e → pipeStep s e = some s' → PipeInv s' := fun s e s' hs he => pipeStep_inv hs he
  have hinv := h.invariant hstep (pipeCreate_inv nbigpipe buffer)
  exact ⟨hinv.flow.data, hinv.flow.geom.cnt_le⟩

end Invariant

/-- A byte goes through the pipe. -/
theorem pipe_bytes_run_one : ∃ s : PipeState Bool Nat,
    Run pipeStep ResizesEmpty (pipeCreate 0 fun _ => 0)
      [.write true false 1, .byte true 7, .read false false 1, .byte false 0] s ∧
      s.delivered = [7] ∧ s.delivered ++ s.pipe.contents = s.moved := by
  have hrun : Run pipeStep ResizesEmpty (pipeCreate 0 fun _ => 0)
      [.write true false 1, .byte true 7, .read false false 1, .byte false 0] _ :=
    .cons trivial rfl (.cons trivial rfl (.cons trivial rfl (.cons trivial rfl (.nil _))))
  exact ⟨_, hrun, rfl, (pipe_bytes_run hrun).1⟩

/-- A writer of one byte sleeps in `uiomovei`; a writer of many finds the pipe empty, waits
    for the lock, and throws the byte away. -/
theorem resize_loses_byte : ∃ es, ∃ s : PipeState Bool Nat,
    Run pipeStep (fun _ _ => True) (pipeCreate 0 fun _ => 0) es s ∧
      s.moved = [7] ∧ s.delivered ++ s.pipe.contents ≠ s.moved := by
  have hrun : Run pipeStep (fun _ _ => True) (pipeCreate 0 fun _ => 0)
      [.write true false 1, .write false false 20000, .byte true 7, .run false,
        .alloc false (some fun _ => 0)] _ :=
    .cons trivial rfl (.cons trivial rfl (.cons trivial rfl (.cons trivial rfl
      (.cons trivial rfl (.nil _)))))
  refine ⟨_, _, hrun, rfl, ?_⟩
  intro h
  exact absurd (congrArg List.length h) (by decide)

end OpenBsd.Kern
