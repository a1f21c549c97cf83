/-
  OpenBsd.Kern.LockfSafe

  Runs of `lf_advlock` calls and wake-ups on one file: the lock list refines the
  map from owners and bytes to lock types, and no two owners ever hold
  conflicting locks, as long as no call cuts a lock to the end of the file at the
  largest offset.
-/

import OpenBsd.Lib.Run
import OpenBsd.Kern.LockfMap

namespace OpenBsd.Kern

open OpenBsd.Lib List

/-! ## The abstract map -/

/-- Lock types by owner and byte. -/
abbrev LockMap := Nat → Nat → Option LockType

/-- The request gets the value `v` for its owner on its bytes. -/
def LockMap.update (m : LockMap) (lock : Lockf) (v : Option LockType) : LockMap :=
  fun o b => if o = lock.lfId ∧ lock.Covers b then v else m o b

section

variable {lock : Lockf} {l l' : List Lockf}

theorem Edit.lockMap_eq (h : Edit lock l l') (hok : ListOk l) (hok' : ListOk l') {o b : Nat}
    (hout : ¬ (o = lock.lfId ∧ lock.Covers b)) : lockMap l' o b = lockMap l o b := by
  have hholds : ∀ t, Holds l' o b t ↔ Holds l o b t := by
    intro t
    by_cases ho : o = lock.lfId
    · rw [ho]
      exact h.off b t fun hb => hout ⟨ho, hb⟩
    · constructor
      · rintro ⟨x, hx, hid, hrest⟩
        exact ⟨x, (h.mem_other (hid.trans_ne ho)).mp hx, hid, hrest⟩
      · rintro ⟨x, hx, hid, hrest⟩
        exact ⟨x, (h.mem_other (hid.trans_ne ho)).mpr hx, hid, hrest⟩
  apply Option.ext
  intro t
  rw [lockMap_eq_some hok'.ordered, lockMap_eq_some hok.ordered, hholds t]

theorem SetSpec.lockMap_eq (h : SetSpec lock l l') (hok : ListOk l) :
    lockMap l' = LockMap.update (lockMap l) lock (some lock.lfType) := by
  funext o b
  unfold LockMap.update
  split
  · rename_i hin
    rw [hin.1]
    exact (lockMap_eq_some h.ok.ordered).mpr (h.held b hin.2)
  · rename_i hout
    exact h.edit.lockMap_eq hok h.ok hout

theorem ClearSpec.lockMap_eq (h : ClearSpec lock l l') (hok : ListOk l) :
    lockMap l' = LockMap.update (lockMap l) lock none := by
  funext o b
  unfold LockMap.update
  split
  · rename_i hin
    rw [Option.eq_none_iff_forall_ne_some]
    intro t ht
    obtain ⟨x, hx, hid, hcov, -⟩ := (lockMap_eq_some h.ok.ordered).mp ht
    rcases h.gone x hx (hid.trans hin.1) with hb | hb
    · exact hb.not_covers hcov hin.2
    · exact hb.not_covers hin.2 hcov
  · rename_i hout
    exact h.edit.lockMap_eq hok h.ok hout

end

/-! ## Conflicts -/

/-- No byte is covered by locks of two owners of which one is exclusive. -/
def NoConflict (locks : List Lockf) : Prop :=
  ∀ x ∈ locks, ∀ y ∈ locks, x.lfId ≠ y.lfId → ∀ b, x.Covers b → y.Covers b →
    x.lfType ≠ .wrlck ∧ y.lfType ≠ .wrlck

section

variable {lock : Lockf} {l l' : List Lockf}

theorem Edit.held_before (h : Edit lock l l') {x : Lockf} (hx : x ∈ l') {b : Nat}
    (hb : x.Covers b) (hout : x.lfId = lock.lfId → ¬ lock.Covers b) :
    ∃ x' ∈ l, x'.lfId = x.lfId ∧ x'.Covers b ∧ x'.lfType = x.lfType := by
  by_cases hid : x.lfId = lock.lfId
  · obtain ⟨x', hx', hid', hcov, htype⟩ := (h.off b x.lfType (hout hid)).mp ⟨x, hx, hid, hb, rfl⟩
    exact ⟨x', hx', hid'.trans hid.symm, hcov, htype⟩
  · exact ⟨x, (h.mem_other hid).mp hx, rfl, hb, rfl⟩

theorem ClearSpec.noConflict (h : ClearSpec lock l l') (hno : NoConflict l) : NoConflict l' := by
  have hout : ∀ x ∈ l', ∀ b, x.Covers b → x.lfId = lock.lfId → ¬ lock.Covers b := by
    intro x hx b hcov hid hb
    rcases h.gone x hx hid with hbef | hbef
    · exact hbef.not_covers hcov hb
    · exact hbef.not_covers hb hcov
  intro x hx y hy hne b hxb hyb
  obtain ⟨x', hx', hxid, hxb', hxt⟩ := h.edit.held_before hx hxb (hout x hx b hxb)
  obtain ⟨y', hy', hyid, hyb', hyt⟩ := h.edit.held_before hy hyb (hout y hy b hyb)
  have hold := hno x' hx' y' hy' (by rw [hxid, hyid]; exact hne) b hxb' hyb'
  rwa [hxt, hyt] at hold

theorem SetSpec.type_eq (h : SetSpec lock l l') {x : Lockf} (hx : x ∈ l')
    (hid : x.lfId = lock.lfId) {b : Nat} (hxb : x.Covers b) (hb : lock.Covers b) :
    x.lfType = lock.lfType := by
  obtain ⟨z, hz, hzid, hzb, hzt⟩ := h.held b hb
  rw [h.ok.ordered.unique hx hz (hid.trans hzid.symm) hxb hzb]
  exact hzt

theorem SetSpec.noConflict (h : SetSpec lock l l') (hno : NoConflict l)
    (hfree : ∀ x ∈ l, ¬ Blocks lock x) : NoConflict l' := by
  -- a byte of the request that another owner's lock covers too
  have hshared : ∀ x ∈ l', ∀ y ∈ l', x.lfId = lock.lfId → x.lfId ≠ y.lfId → ∀ b, x.Covers b →
      y.Covers b → lock.Covers b → x.lfType ≠ .wrlck ∧ y.lfType ≠ .wrlck := by
    intro x hx y hy hid hne b hxb hyb hb
    have hyother : y.lfId ≠ lock.lfId := fun hy => hne (hid.trans hy.symm)
    have hy' := (h.edit.mem_other hyother).mp hy
    rw [h.type_eq hx hid hxb hb]
    constructor
    · exact fun hwr => hfree y hy' ⟨hyother, ⟨b, hyb, hb⟩, Or.inl hwr⟩
    · exact fun hwr => hfree y hy' ⟨hyother, ⟨b, hyb, hb⟩, Or.inr hwr⟩
  intro x hx y hy hne b hxb hyb
  by_cases hxin : x.lfId = lock.lfId ∧ lock.Covers b
  · exact hshared x hx y hy hxin.1 hne b hxb hyb hxin.2
  by_cases hyin : y.lfId = lock.lfId ∧ lock.Covers b
  · exact (hshared y hy x hx hyin.1 hne.symm b hyb hxb hyin.2).symm
  obtain ⟨x', hx', hxid, hxb', hxt⟩ := h.edit.held_before hx hxb fun hid hb => hxin ⟨hid, hb⟩
  obtain ⟨y', hy', hyid, hyb', hyt⟩ := h.edit.held_before hy hyb fun hid hb => hyin ⟨hid, hb⟩
  have hold := hno x' hx' y' hy' (by rw [hxid, hyid]; exact hne) b hxb' hyb'
  rwa [hxt, hyt] at hold

end

/-! ## Steps -/

/-- The locks are in order and without conflict, and the requests asleep are
    well-formed. -/
structure LockSys.Inv (s : LockSys) : Prop where
  list : ListOk s.locks
  noConflict : NoConflict s.locks
  waiting : ∀ l ∈ s.waiting, l.Wf

/-- An attempt to set `lock` does not cut a lock to the end of the file at the
    largest offset, neither by setting it nor, before it sleeps, by giving up what a
    flock-style owner holds. -/
structure AttemptOk (lock : Lockf) (locks : List Lockf) : Prop where
  set : lfGetblock lock locks = some none → SetSafe lock locks
  giveUp : lfGetblock lock locks ≠ some none → lock.lfFlock = true → lock.lfType = .wrlck →
    ClearSafe lock locks

/-- No call of the event cuts a lock to the end of the file at the largest offset. -/
def LockSys.EventOk (s : LockSys) : LockEvent → Prop
  | .advlock a _ => ∀ start stop, a.range = some (start, stop) →
      (a.op = .setlk → AttemptOk (a.lock start stop) s.locks) ∧
        (a.op = .unlck → ClearSafe (a.lock start stop) s.locks)
  | .wake i _ _ => ∀ lock, s.waiting[i]? = some lock → AttemptOk lock s.locks

theorem Advlock.wf_of_range {a : Advlock} {start stop : Int64} (h : a.range = some (start, stop)) :
    (a.lock start stop).Wf := by
  unfold Advlock.range at h
  dsimp only at h
  split at h
  · cases h
  rename_i start' _
  split at h
  · cases h
  rename_i hneg
  have hnonneg : 0 ≤ start'.toInt := by
    rw [Int64.lt_iff_toInt_lt] at hneg
    exact Int.not_lt.mp hneg
  split at h
  · -- l_len 0: up to the end of the file
    obtain ⟨rfl, rfl⟩ := Prod.mk.inj (Option.some.inj h)
    exact ⟨hnonneg, Or.inl rfl⟩
  split at h
  · cases h
  · rename_i hge
    obtain ⟨rfl, rfl⟩ := Prod.mk.inj (Option.some.inj h)
    rw [Int64.lt_iff_toInt_lt] at hge
    exact ⟨hnonneg, Or.inr (Int.not_lt.mp hge)⟩

theorem clearlock_spec {lock : Lockf} {locks : List Lockf} (hlock : lock.Wf) (hok : ListOk locks)
    (hsafe : ClearSafe lock locks) (cnt : Lockcnt) :
    ∃ locks' cnt', lfClearlock lock locks cnt = some (locks', cnt') ∧
      ClearSpec lock locks locks' :=
  clearLoop_spec hlock (show ListOk ([].reverse ++ locks) from hok) (passed_nil lock) hsafe cnt

/-- The state after a call: in order and without conflict, and the requests asleep
    are old ones and `lock`. -/
def LockOutcome.Ok (s : LockSys) (lock : Lockf) : LockOutcome → Prop
  | .ret s' _ _ => ListOk s'.locks ∧ NoConflict s'.locks ∧ s'.waiting = s.waiting
  | .sleep s' => ListOk s'.locks ∧ NoConflict s'.locks ∧ s'.waiting = s.waiting ++ [lock]
  | .panic => False

theorem setlock_ok {s : LockSys} {lock : Lockf} (hlist : ListOk s.locks)
    (hno : NoConflict s.locks) (hlock : lock.Wf) (hattempt : AttemptOk lock s.locks)
    (deadlock : Bool) : (lfSetlock s lock deadlock).Ok s lock := by
  obtain ⟨r, hr⟩ := getblock_isSome hlock hlist.wf
  unfold lfSetlock
  rw [hr]
  cases r with
  | none =>
    -- nobody is in the way
    obtain ⟨locks', cnt', hrun, hspec⟩ := setLoop_spec hlock hlist (hattempt.set hr) s.uiLockcnt
    simp only [hrun]
    exact ⟨hspec.ok, hspec.noConflict hno (getblock_none hr), rfl⟩
  | some block =>
    dsimp only
    -- no wait asked for, a deadlock, or a sleep that gives up an flock first
    split
    · exact ⟨hlist, hno, rfl⟩
    split
    · exact ⟨hlist, hno, rfl⟩
    split
    · rename_i hflock
      rw [Bool.and_eq_true, beq_iff_eq] at hflock
      have hsafe := hattempt.giveUp (by rw [hr]; exact fun h => by cases h) hflock.1 hflock.2
      have hwf : Lockf.Wf { lock with lfType := .unlck } := ⟨hlock.nonneg, hlock.range⟩
      obtain ⟨locks', cnt', hrun, hspec⟩ := clearlock_spec hwf hlist hsafe s.uiLockcnt
      simp only [hrun]
      exact ⟨hspec.ok, hspec.noConflict hno, rfl⟩
    · exact ⟨hlist, hno, rfl⟩

variable {s s' : LockSys}

theorem LockOutcome.Ok.inv {lock : Lockf} {o : LockOutcome} (ho : o.Ok s lock)
    (hlock : lock.Wf) (hwait : ∀ l ∈ s.waiting, l.Wf) (h : o.state = some s') : s'.Inv := by
  cases o with
  | ret t error reply =>
    cases h
    obtain ⟨hlist, hno, hw⟩ := ho
    exact ⟨hlist, hno, hw ▸ hwait⟩
  | sleep t =>
    cases h
    obtain ⟨hlist, hno, hw⟩ := ho
    refine ⟨hlist, hno, fun l hl => ?_⟩
    rw [hw] at hl
    -- the thread that falls asleep joins the others
    rcases mem_append.mp hl with hl | hl
    · exact hwait l hl
    · rw [mem_singleton.mp hl]
      exact hlock
  | panic => cases h

/-- `lf_advlock` keeps the list in order and without conflict. -/
theorem advlock_ok (hinv : s.Inv) {a : Advlock} {deadlock : Bool}
    (hevent : s.EventOk (.advlock a deadlock)) {s' : LockSys}
    (h : (lfAdvlock s a deadlock).state = some s') : s'.Inv := by
  unfold lfAdvlock at h
  split at h
  · cases h
    exact ⟨hinv.list, hinv.noConflict, hinv.waiting⟩
  -- the range is sound; what follows depends on the operation
  rename_i start stop hrange
  have hlock := Advlock.wf_of_range hrange
  obtain ⟨hset, hclear⟩ := hevent start stop hrange
  split at h
  · cases h
    exact ⟨hinv.list, hinv.noConflict, hinv.waiting⟩
  split at h
  · cases h
    exact ⟨hinv.list, hinv.noConflict, hinv.waiting⟩
  rename_i cnt _
  dsimp only at h
  split at h
  · rename_i hop
    have hok := @setlock_ok { s with uiLockcnt := cnt } (a.lock start stop) hinv.list
      hinv.noConflict hlock (hset hop) deadlock
    exact hok.inv hlock hinv.waiting h
  · rename_i hop
    obtain ⟨locks', cnt', hrun, hspec⟩ := clearlock_spec hlock hinv.list (hclear hop) cnt
    rw [hrun] at h
    cases h
    exact ⟨hspec.ok, hspec.noConflict hinv.noConflict, hinv.waiting⟩
  · split at h
    · cases h
    · cases h
      exact ⟨hinv.list, hinv.noConflict, hinv.waiting⟩
  · cases h
    exact ⟨hinv.list, hinv.noConflict, hinv.waiting⟩

theorem lockStep_inv (s : LockSys) (e : LockEvent) (s' : LockSys) (hinv : s.Inv)
    (hevent : s.EventOk e) (h : s.step e = some s') : s'.Inv := by
  cases e with
  | advlock a deadlock => exact advlock_ok hinv hevent h
  | wake i intr deadlock =>
    rw [LockSys.step] at h
    split at h
    · rename_i lock hlock
      have hwf := hinv.waiting lock (mem_of_getElem? hlock)
      have hwait : ∀ l ∈ s.waiting.eraseIdx i, l.Wf :=
        fun l hl => hinv.waiting l (mem_of_mem_eraseIdx hl)
      unfold lfWake at h
      split at h
      · cases h
        exact ⟨hinv.list, hinv.noConflict, hwait⟩
      · -- whoever wakes up tries from the start
        have hok := @setlock_ok { s with waiting := s.waiting.eraseIdx i } lock hinv.list
          hinv.noConflict hwf (hevent lock hlock) deadlock
        exact hok.inv hwf hwait h
    · cases h

theorem inv_of_run {cnt : Lockcnt} {events : List LockEvent}
    (hrun : Run LockSys.step LockSys.EventOk ⟨[], [], cnt⟩ events s) : s.Inv := by
  have hnone : ∀ l ∈ ([] : List Lockf), l.Wf := fun l hl => absurd hl not_mem_nil
  have hinit : LockSys.Inv ⟨[], [], cnt⟩ :=
    ⟨⟨hnone, .nil⟩, fun x hx => absurd hx not_mem_nil, hnone⟩
  exact hrun.invariant lockStep_inv hinit

theorem setlock_success {lock : Lockf} {deadlock : Bool} {reply : Option FlockReply} (h : lfSetlock s lock deadlock = .ret s' none reply) :
    ∃ cnt', lfSetLoop lock [] s.locks true s.uiLockcnt = some (s'.locks, cnt') := by
  unfold lfSetlock at h
  split at h
  · cases h
  · -- with a lock in the way no branch returns 0
    split at h
    · cases h
    split at h
    · cases h
    split at h
    · split at h <;> cases h
    · cases h
  · split at h
    · cases h
    · rename_i locks cnt hloop
      cases h
      exact ⟨cnt, hloop⟩

/-! ## Runs -/

/-- A POSIX call of the superuser that does not wait. -/
def posixCall (id : Nat) (op : LockOp) (lStart lLen : Int64) (lType : LockType) : Advlock :=
  ⟨0, id, op, .seekSet, lStart, lLen, lType, true, false, false, 0, 1⟩

theorem step_first (id : Nat) (lStart : Int64) (lType : LockType) (hstart : ¬ lStart < 0) :
    LockSys.step ⟨[], [], fun _ => 0⟩ (.advlock (posixCall id .setlk lStart 0 lType) false)
      = some ⟨[(posixCall id .setlk lStart 0 lType).lock lStart (-1)], [],
          Lockcnt.add (fun _ => 0) 0 1⟩ := by
  simp [LockSys.step, lfAdvlock, Advlock.range, hstart, lfAlloc, posixCall, lfSetlock, lfGetblock,
    lfFindoverlap, lfSetLoop, LockOutcome.state]

theorem eventOk_first (cnt : Lockcnt) (a : Advlock) (deadlock : Bool) :
    LockSys.EventOk ⟨[], [], cnt⟩ (.advlock a deadlock) := by
  intro start stop _
  exact ⟨fun _ => ⟨fun _ _ x hx => absurd hx not_mem_nil,
    fun _ _ _ _ x hx => absurd hx not_mem_nil⟩, fun _ _ x hx => absurd hx not_mem_nil⟩

/-- In every run whose calls do not cut a lock to the end of the file at the largest
    offset, a successful `lf_setlock` and a `lf_clearlock` of any admitted range that
    do not either are the updates of the abstract map. -/
theorem lockMap_refines {cnt : Lockcnt} {events : List LockEvent} {s : LockSys}
    (hrun : Run LockSys.step LockSys.EventOk ⟨[], [], cnt⟩ events s)
    {a : Advlock} {start stop : Int64} (hrange : a.range = some (start, stop)) :
    (SetSafe (a.lock start stop) s.locks → ∀ deadlock s' reply,
      lfSetlock s (a.lock start stop) deadlock = .ret s' none reply →
        lockMap s'.locks
          = LockMap.update (lockMap s.locks) (a.lock start stop) (some a.lType)) ∧
    (ClearSafe (a.lock start stop) s.locks → ∀ cnt', ∃ locks' cnt'',
      lfClearlock (a.lock start stop) s.locks cnt' = some (locks', cnt'') ∧
        lockMap locks' = LockMap.update (lockMap s.locks) (a.lock start stop) none) := by
  have hinv := inv_of_run hrun
  have hlock := Advlock.wf_of_range hrange
  constructor
  · intro hsafe deadlock s' reply h
    -- success means that the loop ran
    obtain ⟨cnt', hloop⟩ := setlock_success h
    obtain ⟨locks', cnt'', hloop', hspec⟩ := setLoop_spec hlock hinv.list hsafe s.uiLockcnt
    rw [hloop, Option.some.injEq, Prod.mk.injEq] at hloop'
    rw [hloop'.1]
    exact hspec.lockMap_eq hinv.list
  · intro hsafe cnt'
    obtain ⟨locks', cnt'', hclear, hspec⟩ := clearlock_spec hlock hinv.list hsafe cnt'
    exact ⟨locks', cnt'', hclear, hspec.lockMap_eq hinv.list⟩

/-- An owner with a shared lock on the whole file that takes bytes 10 to 19
    exclusively, and gives them up. -/
theorem lockMap_refines_split : ∃ s s' : LockSys, ∃ locks' cnt',
    Run LockSys.step LockSys.EventOk ⟨[], [], fun _ => 0⟩
      [.advlock (posixCall 1 .setlk 0 0 .rdlck) false] s ∧
    lfSetlock s ((posixCall 1 .setlk 10 10 .wrlck).lock 10 19) false = .ret s' none none ∧
    lockMap s'.locks = LockMap.update (lockMap s.locks)
      ((posixCall 1 .setlk 10 10 .wrlck).lock 10 19) (some .wrlck) ∧
    lfClearlock ((posixCall 1 .setlk 10 10 .wrlck).lock 10 19) s.locks s.uiLockcnt
      = some (locks', cnt') ∧
    lockMap locks' = LockMap.update (lockMap s.locks)
      ((posixCall 1 .setlk 10 10 .wrlck).lock 10 19) none := by
  have hrun := Run.cons (eventOk_first (fun _ => 0) (posixCall 1 .setlk 0 0 .rdlck) false)
    (step_first 1 0 .rdlck (by decide)) (.nil _)
  obtain ⟨hset, hclear⟩ := lockMap_refines hrun
    (show (posixCall 1 .setlk 10 10 .wrlck).range = some (10, 19) by decide)
  have hend : ((posixCall 1 .setlk 10 10 .wrlck).lock 10 19).last ≠ 2 ^ 63 - 1 := by decide
  obtain ⟨locks', cnt', hcleared, hmap⟩ := hclear (fun hmax => absurd hmax hend) _
  have hsucc : ∃ s', lfSetlock ⟨[(posixCall 1 .setlk 0 0 .rdlck).lock 0 (-1)], [],
      Lockcnt.add (fun _ => 0) 0 1⟩ ((posixCall 1 .setlk 10 10 .wrlck).lock 10 19) false
      = .ret s' none none := by
    simp [lfSetlock, lfGetblock, lfFindoverlap, posixCall, Advlock.lock, lfSetLoop, noOverlap,
      ovCase, lfSplit]
  obtain ⟨s', hs'⟩ := hsucc
  exact ⟨_, s', locks', cnt', hrun, hs', hset (fun hmax => absurd hmax hend) _ _ _ hs', hcleared,
    hmap⟩

/-- The end of a request for `OFF_MAX` bytes from byte 1 on is the largest offset:
    the owner of a lock on the whole file who clears it keeps byte 1. -/
theorem cleared_byte_stays : ∃ s : LockSys, ∃ locks' cnt',
    Run LockSys.step (fun _ _ => True) ⟨[], [], fun _ => 0⟩
      [.advlock (posixCall 1 .setlk 0 0 .wrlck) false] s ∧
    (posixCall 1 .unlck 1 0x7fffffffffffffff .unlck).range = some (1, 0x7fffffffffffffff) ∧
    lfClearlock ((posixCall 1 .unlck 1 0x7fffffffffffffff .unlck).lock 1 0x7fffffffffffffff)
      s.locks s.uiLockcnt = some (locks', cnt') ∧
    lockMap locks' ≠ LockMap.update (lockMap s.locks)
      ((posixCall 1 .unlck 1 0x7fffffffffffffff .unlck).lock 1 0x7fffffffffffffff) none := by
  have hclear : lfClearlock ((posixCall 1 .unlck 1 0x7fffffffffffffff .unlck).lock 1
      0x7fffffffffffffff) [(posixCall 1 .setlk 0 0 .wrlck).lock 0 (-1)]
      (Lockcnt.add (fun _ => 0) 0 1)
      = some ([(posixCall 1 .setlk 0 0 .wrlck).lock 0 0,
          (posixCall 1 .setlk 0 0 .wrlck).lock (-0x8000000000000000) (-1)],
        Lockcnt.add (Lockcnt.add (fun _ => 0) 0 1) 0 1) := by
    simp [lfClearlock, lfClearLoop, lfFindoverlap, posixCall, Advlock.lock, noOverlap, ovCase,
      lfSplit]
  refine ⟨_, _, _, .cons trivial (step_first 1 0 .wrlck (by decide)) (.nil _), by decide, hclear,
    fun heq => ?_⟩
  -- byte 1 is in the range, and still held by the lock that starts below 0
  have hbyte := congrFun (congrFun heq 1) 1
  exact absurd hbyte (by decide)

/-- In every state of such a run no two owners hold conflicting locks, and the locks
    of each owner are in strictly increasing, disjoint order. -/
theorem noConflict_of_run {cnt : Lockcnt} {events : List LockEvent} {s : LockSys}
    (hrun : Run LockSys.step LockSys.EventOk ⟨[], [], cnt⟩ events s) :
    NoConflict s.locks ∧ Ordered s.locks ∧ ∀ l ∈ s.locks, l.Wf := by
  have hinv := inv_of_run hrun
  exact ⟨hinv.noConflict, hinv.list.ordered, hinv.list.wf⟩

theorem step_second (lType : LockType) :
    LockSys.step ⟨[(posixCall 1 .setlk 5 0 lType).lock 5 (-1)], [],
        Lockcnt.add (fun _ => 0) 0 1⟩ (.advlock (posixCall 2 .setlk 0 5 lType) false)
      = some ⟨[(posixCall 1 .setlk 5 0 lType).lock 5 (-1),
          (posixCall 2 .setlk 0 5 lType).lock 0 4], [],
        Lockcnt.add (Lockcnt.add (fun _ => 0) 0 1) 0 1⟩ := by
  simp [LockSys.step, lfAdvlock, Advlock.range, lfAlloc, posixCall, Advlock.lock, lfSetlock,
    lfGetblock, lfFindoverlap, noOverlap, lfSetLoop, LockOutcome.state]

/-- Two owners with exclusive locks next to each other. -/
theorem noConflict_of_run_two : ∃ s, Run LockSys.step LockSys.EventOk ⟨[], [], fun _ => 0⟩
      [.advlock (posixCall 1 .setlk 5 0 .wrlck) false,
        .advlock (posixCall 2 .setlk 0 5 .wrlck) false] s ∧
    NoConflict s.locks ∧ Ordered s.locks ∧ ∀ l ∈ s.locks, l.Wf := by
  have hsecond : LockSys.EventOk ⟨[(posixCall 1 .setlk 5 0 .wrlck).lock 5 (-1)], [],
      Lockcnt.add (fun _ => 0) 0 1⟩ (.advlock (posixCall 2 .setlk 0 5 .wrlck) false) := by
    intro start stop hrange
    have hend : ((posixCall 2 .setlk 0 5 .wrlck).lock 0 4).last ≠ 2 ^ 63 - 1 := by decide
    have heq : some ((0 : Int64), (4 : Int64)) = some (start, stop) := hrange
    obtain ⟨rfl, rfl⟩ := Prod.mk.inj (Option.some.inj heq)
    exact ⟨fun _ => ⟨fun _ hmax => absurd hmax hend, fun _ _ _ hmax => absurd hmax hend⟩,
      fun _ hmax => absurd hmax hend⟩
  have hrun := Run.cons (eventOk_first (fun _ => 0) (posixCall 1 .setlk 5 0 .wrlck) false)
    (step_first 1 5 .wrlck (by decide)) (.cons hsecond (step_second .wrlck) (.nil _))
  exact ⟨_, hrun, noConflict_of_run hrun⟩

/-- The first owner then clears all but byte 5 of its lock, by a request that ends at
    the largest offset.  What is left behind it starts at the smallest offset and
    covers the second owner's bytes. -/
theorem conflict_after_clear : ∃ s, Run LockSys.step (fun _ _ => True) ⟨[], [], fun _ => 0⟩
      [.advlock (posixCall 1 .setlk 5 0 .wrlck) false,
        .advlock (posixCall 2 .setlk 0 5 .wrlck) false,
        .advlock (posixCall 1 .unlck 6 0x7ffffffffffffffa .unlck) false] s ∧
    ¬ NoConflict s.locks ∧ ¬ Ordered s.locks := by
  have hclear : (LockSys.step ⟨[(posixCall 1 .setlk 5 0 .wrlck).lock 5 (-1),
        (posixCall 2 .setlk 0 5 .wrlck).lock 0 4], [],
        Lockcnt.add (Lockcnt.add (fun _ => 0) 0 1) 0 1⟩
      (.advlock (posixCall 1 .unlck 6 0x7ffffffffffffffa .unlck) false)).map (·.locks)
      = some [(posixCall 1 .setlk 5 0 .wrlck).lock 5 5,
          (posixCall 1 .setlk 5 0 .wrlck).lock (-0x8000000000000000) (-1),
          (posixCall 2 .setlk 0 5 .wrlck).lock 0 4] := by
    simp [LockSys.step, lfAdvlock, Advlock.range, lfAlloc, posixCall, Advlock.lock, lfClearlock,
      lfClearLoop, lfFindoverlap, noOverlap, ovCase, lfSplit, LockOutcome.state]
  obtain ⟨s, hs, hlocks⟩ := Option.map_eq_some_iff.mp hclear
  refine ⟨s, .cons trivial (step_first 1 5 .wrlck (by decide)) (.cons trivial (step_second .wrlck)
    (.cons trivial hs (.nil _))), fun hno => ?_, fun hord => ?_⟩
  · -- the second and the third lock at byte 0
    rw [hlocks] at hno
    have hboth := hno _ (mem_of_getElem? (i := 1) rfl) _ (mem_of_getElem? (i := 2) rfl)
      (by decide) 0 (by decide) (by decide)
    exact hboth.1 rfl
  · -- the two locks of process 1 are out of order as well
    rw [hlocks] at hord
    have hbefore := (pairwise_cons.mp hord).1 _ (mem_cons_self ..) rfl
    exact absurd hbefore.2 (by decide)

end OpenBsd.Kern
