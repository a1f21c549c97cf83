/-
  OpenBsd.Kern.LockfCount

  The accounts of lock structures: `lf_alloc` and `lf_free` count them by uid, over the
  lists and the sleepers of all files together.  Every path of `lf_advlock` keeps the
  accounts but one: the second loop of `lf_setlock`, once its lock is linked, takes the
  next overlap as if it were not, and frees or links the lock again.
-/

import Mathlib.Algebra.Order.BigOperators.Group.Finset
import OpenBsd.Lib.Account
import OpenBsd.Kern.LockfSafe

namespace OpenBsd.Kern

open OpenBsd.Lib

variable {cnt cnt' : Lockcnt} {locks' locks : List Lockf} {s s' : LockSys} {a : Advlock}

/-! ## One structure -/

section

variable {lock : Lockf}

theorem lfFree_apply (cnt : Lockcnt) (lock : Lockf) (u : Nat) :
    lfFree cnt lock u = cnt u - share u lock.lfUid := by
  simp only [lfFree, Lockcnt.add, share, eq_comm (a := u)]
  split
  · rfl
  · rw [Int.sub_zero]

theorem add_one_apply (cnt : Lockcnt) (uid u : Nat) : cnt.add uid 1 u = cnt u + share u uid := by
  simp only [Lockcnt.add, share, eq_comm (a := u)]
  split
  · rfl
  · rw [Int.add_zero]

theorem lfAlloc_some {uid allowfail : Nat} (h : lfAlloc cnt uid allowfail = some cnt') :
    cnt' = cnt.add uid 1 := by
  obtain ⟨-, h⟩ := Option.ite_none_left_eq_some.1 h
  exact (Option.some.inj h).symm

/-! ## The walk -/

/-- What a walk returns is the list it walked. -/
def FindOverlap.Splits (l : List Lockf) : FindOverlap → Prop
  | .none pre rest => pre.reverse ++ rest = l
  | .hit _ pre overlap rest => pre.reverse ++ overlap :: rest = l
  | .panic => True

theorem findoverlap_splits (type : OverlapType) (lock : Lockf) (pre rest : List Lockf) :
    (lfFindoverlap type lock pre rest).Splits (pre.reverse ++ rest) := by
  induction rest generalizing pre with
  | nil => rfl
  | cons lf rest ih =>
    have hnext := ih (lf :: pre)
    rw [List.reverse_cons, List.append_assoc, List.singleton_append] at hnext
    rw [lfFindoverlap]
    split
    · exact hnext
    · split
      · split
        · rfl
        · exact hnext
      · split
        · rfl
        · trivial

theorem lfSplit_tally {lock1 lock2 first : Lockf} {last : List Lockf}
    (h : lfSplit lock1 lock2 cnt = (first, last, cnt')) :
    first.lfUid = lock1.lfUid ∧ ∀ u, cnt' u = cnt u + tally Lockf.lfUid u last := by
  unfold lfSplit at h
  split at h
  · cases h
    exact ⟨rfl, fun u => (Int.add_zero _).symm⟩
  · cases h
    refine ⟨rfl, fun u => ?_⟩
    simp only [add_one_apply, tally_cons, tally_nil, Int.zero_add]

/-! ## Clearing -/

variable {pre rest : List Lockf}

theorem clearLoop_keeps (h : lfClearLoop lock pre rest cnt = some (locks', cnt')) :
    Keeps Lockf.lfUid cnt (pre.reverse ++ rest) cnt' locks' := by
  induction hlen : rest.length using Nat.strongRecOn generalizing pre rest cnt with
  | ind n ih =>
    have hsplits := findoverlap_splits .self lock pre rest
    rw [lfClearLoop] at h
    split at h
    · cases h
    · rename_i pre' rest' hscan
      rw [hscan] at hsplits
      cases h
      rw [← hsplits]
      exact Keeps.refl _ _
    · rename_i c pre' overlap rest' hscan
      have hshort := lfFindoverlap_length hscan
      rw [hscan] at hsplits
      rw [← hsplits]
      -- the walk goes on behind the overlap in cases 3 and 4 only
      cases c with
      | equal =>
        cases h
        intro u
        simp only [tally_append, tally_cons, lfFree_apply]
        omega
      | overlapContains =>
        dsimp only at h
        split at h
        · cases h
          intro u
          simp only [tally_append, tally_cons]
        · rcases hsplit : lfSplit overlap lock cnt with ⟨first, last, cnt₁⟩
          obtain ⟨huid, hcnt⟩ := lfSplit_tally hsplit
          rw [hsplit] at h
          cases h
          intro u
          simp only [tally_append, tally_cons, huid, hcnt]
          omega
      | lockContains =>
        have hrest := ih rest'.length (hlen ▸ hshort) h rfl
        refine Keeps.trans (fun u => ?_) hrest
        simp only [tally_append, tally_cons, lfFree_apply]
        omega
      | startsBefore =>
        have hrest := ih rest'.length (hlen ▸ hshort) h rfl
        refine Keeps.trans (fun u => ?_) hrest
        simp only [tally_append, tally_cons, tally_reverse]
        omega
      | endsAfter =>
        cases h
        intro u
        simp only [tally_append, tally_cons]

/-! ## Setting -/

/-- The second loop of `lf_setlock`, with its lock in the list, frees it or links it
    again with other locks in between.  In case 2 a lock that stands right before an
    overlap of the same start stays where it is. -/
def LinksAgain (lock : Lockf) (pre : List Lockf) (overlap : Lockf) : OvCase → Prop
  | .equal => True
  | .overlapContains =>
    overlap.lfType = lock.lfType ∨ overlap.lfStart ≠ lock.lfStart ∨ pre.head? ≠ some lock
  | .lockContains => False
  | .startsBefore => True
  | .endsAfter => False

/-- The rest of the loop, once its lock is in the list, comes to such an overlap. -/
inductive Relinks (lock : Lockf) : (pre rest : List Lockf) → Prop where
  | again {c : OvCase} {pre rest pre' rest' : List Lockf} {overlap : Lockf} :
      lfFindoverlap .self lock pre rest = .hit c pre' overlap rest' →
      LinksAgain lock pre' overlap c → Relinks lock pre rest
  | next {pre rest pre' rest' : List Lockf} {overlap : Lockf} :
      lfFindoverlap .self lock pre rest = .hit .lockContains pre' overlap rest' →
      Relinks lock pre' rest' → Relinks lock pre rest

/-- The loop comes to such an overlap behind the one that makes it link its lock. -/
def SetRelinks (lock : Lockf) (locks : List Lockf) : Prop :=
  match lfFindoverlap .self lock [] locks with
  | .hit .lockContains pre _ rest => Relinks lock (lock :: pre) rest
  | .hit .startsBefore pre overlap rest =>
    Relinks lock (lock :: { overlap with lfEnd := lock.lfStart - 1 } :: pre) rest
  | _ => False

/-- The rest of the loop keeps the accounts, unless the lock is linked again. -/
theorem setLoop_linked_keeps
    (h : lfSetLoop lock pre rest false cnt = some (locks', cnt')) (hnot : ¬ Relinks lock pre rest) :
    Keeps Lockf.lfUid cnt (pre.reverse ++ rest) cnt' locks' := by
  induction hlen : rest.length using Nat.strongRecOn generalizing pre rest cnt with
  | ind n ih =>
    have hsplits := findoverlap_splits .self lock pre rest
    rw [lfSetLoop] at h
    split at h
    · cases h
    · rename_i pre' rest' hscan
      rw [hscan] at hsplits
      cases h
      rw [← hsplits]
      exact Keeps.refl _ _
    · rename_i c pre' overlap rest' hscan
      have hshort := lfFindoverlap_length hscan
      have hagain : ¬ LinksAgain lock pre' overlap c := fun hc => hnot (.again hscan hc)
      rw [hscan] at hsplits
      rw [← hsplits]
      cases c with
      | equal => exact absurd trivial hagain
      | overlapContains =>
        -- all that is left is to link the lock where it is
        rw [LinksAgain, not_or, not_or, not_not, not_not] at hagain
        obtain ⟨htype, hstart, hhead⟩ := hagain
        obtain ⟨init, rfl⟩ : ∃ init, pre' = lock :: init := List.head?_eq_some_iff.1 hhead
        simp only [beq_eq_false_iff_ne.2 htype, hstart, beq_self_eq_true, if_true,
          Bool.false_eq_true, if_false] at h
        cases h
        intro u
        simp
      | lockContains =>
        have hrest := ih rest'.length (hlen ▸ hshort) h (fun hr => hnot (.next hscan hr)) rfl
        refine Keeps.trans (fun u => ?_) hrest
        simp only [tally_append, tally_cons, lfFree_apply]
        omega
      | startsBefore => exact absurd trivial hagain
      | endsAfter =>
        cases h
        intro u
        simp only [tally_append, tally_cons]

/-- The second loop of `lf_setlock` keeps the accounts with its lock among the
    structures, unless it links it again. -/
theorem setLoop_keeps (h : lfSetLoop lock [] locks true cnt = some (locks', cnt'))
    (hnot : ¬ SetRelinks lock locks) : Keeps Lockf.lfUid cnt (lock :: locks) cnt' locks' := by
  have hsplits := findoverlap_splits .self lock [] locks
  rw [List.reverse_nil, List.nil_append] at hsplits
  rw [SetRelinks] at hnot
  rw [lfSetLoop] at h
  split at h
  · cases h
  · rename_i pre rest hscan
    rw [hscan] at hsplits
    cases h
    rw [← hsplits]
    intro u
    simp only [tally_append, tally_cons]
    omega
  · rename_i c pre overlap rest hscan
    rw [hscan] at hsplits hnot
    rw [← hsplits]
    cases c with
    | equal =>
      -- the overlap stays in the place of the lock
      cases h
      intro u
      simp only [tally_append, tally_cons, lfFree_apply]
      omega
    | overlapContains =>
      dsimp only at h
      split at h
      · cases h
        intro u
        simp only [tally_append, tally_cons, lfFree_apply]
        omega
      · split at h
        · cases h
          intro u
          simp only [tally_append, tally_cons]
          omega
        · rcases hsplit : lfSplit overlap lock cnt with ⟨first, last, cnt₁⟩
          obtain ⟨huid, hcnt⟩ := lfSplit_tally hsplit
          rw [hsplit] at h
          cases h
          intro u
          simp only [tally_append, tally_cons, huid, hcnt]
          omega
    | lockContains =>
      have hrest := setLoop_linked_keeps h hnot
      refine Keeps.trans (fun u => ?_) hrest
      simp only [tally_append, tally_cons, tally_reverse, lfFree_apply]
      omega
    | startsBefore =>
      have hrest := setLoop_linked_keeps h hnot
      refine Keeps.trans (fun u => ?_) hrest
      simp only [tally_append, tally_cons, tally_reverse]
      omega
    | endsAfter =>
      cases h
      intro u
      simp only [tally_append, tally_cons]
      omega

end

/-! ## Steps -/

/-- The lock structures of a file: those on its list and those of its sleepers. -/
def LockSys.structs (s : LockSys) : List Lockf := s.locks ++ s.waiting

/-- `lf_setlock` of `lock` comes to its second loop, which links the lock again. -/
def AttemptRelinks (lock : Lockf) (locks : List Lockf) : Prop :=
  lfGetblock lock locks = some none ∧ SetRelinks lock locks

/-- The event makes `lf_setlock` link a lock again. -/
def LockSys.Relinks (s : LockSys) : LockEvent → Prop
  | .advlock a _ => a.op = .setlk ∧ (lfAlloc s.uiLockcnt a.uid 1).isSome ∧
      ∃ start stop, a.range = some (start, stop) ∧ AttemptRelinks (a.lock start stop) s.locks
  | .wake i intr _ => intr = false ∧ ∃ lock, s.waiting[i]? = some lock ∧
      AttemptRelinks lock s.locks

/-- `lf_setlock` keeps the accounts with its lock among the structures. -/
theorem setlock_keeps {lock : Lockf} {deadlock : Bool}
    (h : (lfSetlock s lock deadlock).state = some s') (hnot : ¬ AttemptRelinks lock s.locks) :
    Keeps Lockf.lfUid s.uiLockcnt (lock :: s.structs) s'.uiLockcnt s'.structs := by
  -- a lock that is refused is freed
  have hfreed : Keeps Lockf.lfUid s.uiLockcnt (lock :: s.structs) (lfFree s.uiLockcnt lock)
      s.structs := by
    intro u
    simp only [tally_cons, lfFree_apply]
    omega
  unfold lfSetlock at h
  split at h
  · cases h
  · -- somebody is in the way
    split at h
    · cases h
      exact hfreed
    split at h
    · cases h
      exact hfreed
    split at h
    · -- what an flock-style owner gives up goes off the accounts
      split at h
      · cases h
      · rename_i locks cnt hclear
        have hkeep := clearLoop_keeps hclear
        cases h
        intro u
        have hu := hkeep u
        simp only [LockSys.structs, tally_append, tally_cons, tally_nil, List.reverse_nil] at hu ⊢
        omega
    · cases h
      intro u
      simp only [LockSys.structs, tally_append, tally_cons, tally_nil]
      omega
  · rename_i hblock
    split at h
    · cases h
    · rename_i locks cnt hloop
      have hkeep := setLoop_keeps hloop fun hr => hnot ⟨hblock, hr⟩
      cases h
      intro u
      have hu := hkeep u
      simp only [LockSys.structs, tally_append, tally_cons] at hu ⊢
      omega

theorem advlock_keeps {deadlock : Bool} (h : (lfAdvlock s a deadlock).state = some s')
    (hnot : ¬ s.Relinks (.advlock a deadlock)) :
    Keeps Lockf.lfUid s.uiLockcnt s.structs s'.uiLockcnt s'.structs := by
  unfold lfAdvlock at h
  split at h
  · cases h
    exact Keeps.refl _ _
  rename_i start stop hrange
  split at h
  · cases h
    exact Keeps.refl _ _
  split at h
  · cases h
    exact Keeps.refl _ _
  rename_i cnt halloc
  have hcnt := lfAlloc_some halloc
  -- the structure that lf_alloc counts is the one at hand
  have hnew : Keeps Lockf.lfUid s.uiLockcnt s.structs cnt (a.lock start stop :: s.structs) := by
    intro u
    have huid : (a.lock start stop).lfUid = a.uid := rfl
    rw [hcnt, add_one_apply, tally_cons, huid]
    omega
  have hback : Keeps Lockf.lfUid cnt (a.lock start stop :: s.structs)
      (lfFree cnt (a.lock start stop)) s.structs := by
    intro u
    simp only [tally_cons, lfFree_apply]
    omega
  dsimp only at h
  split at h
  · rename_i hop
    have halloc' : (lfAlloc s.uiLockcnt a.uid 1).isSome := by
      rw [hop] at halloc
      exact Option.isSome_of_mem halloc
    have hset := setlock_keeps h fun hr => hnot ⟨hop, halloc', start, stop, hrange, hr⟩
    exact hnew.trans hset
  · split at h
    · cases h
    · rename_i locks cnt' hclear
      have hkeep := clearLoop_keeps hclear
      cases h
      refine hnew.trans fun u => ?_
      have hu := hkeep u
      simp only [LockSys.structs, tally_append, tally_cons, tally_nil, List.reverse_nil,
        lfFree_apply] at hu ⊢
      omega
  · split at h
    · cases h
    · cases h
      exact hnew.trans hback
  · cases h
    exact hnew.trans hback

theorem lockStep_keeps {e : LockEvent} (h : s.step e = some s') (hnot : ¬ s.Relinks e) :
    Keeps Lockf.lfUid s.uiLockcnt s.structs s'.uiLockcnt s'.structs := by
  cases e with
  | advlock a deadlock => exact advlock_keeps h hnot
  | wake i intr deadlock =>
    rw [LockSys.step] at h
    split at h
    · rename_i lock hlock
      -- the lock of the thread that wakes up is at hand
      have htaken : Keeps Lockf.lfUid s.uiLockcnt s.structs s.uiLockcnt
          (lock :: (s.locks ++ s.waiting.eraseIdx i)) := by
        intro u
        simp only [LockSys.structs, tally_append, tally_cons, tally_eraseIdx hlock]
        omega
      refine htaken.trans ?_
      unfold lfWake at h
      split at h
      · cases h
        intro u
        simp only [LockSys.structs, tally_cons, lfFree_apply]
        omega
      · rename_i hintr
        rw [Bool.not_eq_true] at hintr
        exact setlock_keeps h fun hr => hnot ⟨hintr, lock, hlock, hr⟩
    · cases h

/-! ## Calls of a user -/

/-- A POSIX call that does not wait. -/
def userCall (id uid : Nat) (op : LockOp) (lStart lLen : Int64) (lType : LockType) : Advlock :=
  { posixCall id op lStart lLen lType with uid := uid }

variable {start stop : Int64}

theorem step_set (hop : a.op = .setlk) (hrange : a.range = some (start, stop))
    (halloc : lfAlloc s.uiLockcnt a.uid 1 = some cnt)
    (hblock : lfGetblock (a.lock start stop) s.locks = some none)
    (hloop : lfSetLoop (a.lock start stop) [] s.locks true cnt = some (locks, cnt'))
    (deadlock : Bool) : s.step (.advlock a deadlock) = some ⟨locks, s.waiting, cnt'⟩ := by
  simp [LockSys.step, lfAdvlock, hrange, hop, halloc, lfSetlock, hblock, hloop, LockOutcome.state]

theorem step_clear (hop : a.op = .unlck)
    (hrange : a.range = some (start, stop)) (hlocks : s.locks ≠ [])
    (halloc : lfAlloc s.uiLockcnt a.uid 2 = some cnt)
    (hclear : lfClearlock (a.lock start stop) s.locks cnt = some (locks, cnt')) (deadlock : Bool) :
    s.step (.advlock a deadlock)
      = some ⟨locks, s.waiting, lfFree cnt' (a.lock start stop)⟩ := by
  simp [LockSys.step, lfAdvlock, hrange, hop, hlocks, halloc, hclear, LockOutcome.state]

/-! ## All files -/

/-- The files: the lock list and the sleepers of each, and the accounts they share. -/
structure LockFiles (ι : Type) where
  files : ι → List Lockf × List Lockf
  uiLockcnt : Lockcnt

section

variable {ι : Type}

def LockFiles.file (s : LockFiles ι) (i : ι) : LockSys :=
  ⟨(s.files i).1, (s.files i).2, s.uiLockcnt⟩

def LockFiles.init : LockFiles ι := ⟨fun _ => ([], []), fun _ => 0⟩

section

variable [Fintype ι]

/-- Every account shows the number of lock structures of its uid. -/
def LockFiles.Accounted (s : LockFiles ι) : Prop :=
  ∀ u, s.uiLockcnt u = ∑ i, tally Lockf.lfUid u (s.file i).structs

theorem LockFiles.accounted_init : (LockFiles.init : LockFiles ι).Accounted := by
  intro u
  exact (Finset.sum_eq_zero fun _ _ => rfl).symm

end

variable [DecidableEq ι]

/-- A call or a wake-up on one of the files. -/
def LockFiles.step (s : LockFiles ι) (e : ι × LockEvent) : Option (LockFiles ι) :=
  ((s.file e.1).step e.2).map fun t =>
    ⟨Function.update s.files e.1 (t.locks, t.waiting), t.uiLockcnt⟩

theorem LockFiles.step_of {s : LockFiles ι} {i : ι} {e : LockEvent} {f t : LockSys}
    (hf : s.file i = f) (h : f.step e = some t) :
    s.step (i, e) = some ⟨Function.update s.files i (t.locks, t.waiting), t.uiLockcnt⟩ := by
  rw [LockFiles.step, hf, h]
  rfl

variable {e : ι × LockEvent}

theorem LockFiles.step_cases {s s' : LockFiles ι} (h : s.step e = some s') :
    ∃ t, (s.file e.1).step e.2 = some t ∧ s'.uiLockcnt = t.uiLockcnt ∧ s'.file e.1 = t ∧
      ∀ j, j ≠ e.1 → s'.files j = s.files j := by
  obtain ⟨t, ht, rfl⟩ := Option.map_eq_some_iff.1 h
  refine ⟨t, ht, rfl, ?_, fun j hj => ?_⟩
  · simp only [LockFiles.file, Function.update_self]
  · exact Function.update_of_ne hj ..

variable [Fintype ι]

theorem LockFiles.step_accounted {s s' : LockFiles ι} (h : s.step e = some s')
    (hnot : ¬ (s.file e.1).Relinks e.2) (hacc : s.Accounted) : s'.Accounted := by
  obtain ⟨t, ht, hcnt, hfile, hother⟩ := LockFiles.step_cases h
  have hkeep := lockStep_keeps ht hnot
  have hstructs : ∀ j, Function.update (fun j => (s.file j).structs) e.1 t.structs j
      = (s'.file j).structs := by
    intro j
    by_cases hj : j = e.1
    · rw [hj, Function.update_self, hfile]
    · rw [Function.update_of_ne hj]
      simp only [LockFiles.file, LockSys.structs, hother j hj]
  intro u
  have hsum := Keeps.sum_eq (fun j => (s.file j).structs) hkeep hacc u
  simp only [hstructs] at hsum
  rw [hcnt]
  exact hsum

/-- From files without locks, in every state of a run in which no `lf_setlock` links its
    lock again, `ui_lockcnt` of every uid is the number of its lock structures. -/
theorem lockcnt_of_run {events : List (ι × LockEvent)} {s : LockFiles ι}
    (hrun : Run LockFiles.step (fun s e => ¬ (s.file e.1).Relinks e.2) LockFiles.init events s)
    (u : Nat) :
    s.uiLockcnt u = ∑ i, tally Lockf.lfUid u ((s.file i).locks ++ (s.file i).waiting) ∧
      0 ≤ s.uiLockcnt u := by
  have hacc : s.Accounted :=
    hrun.invariant (fun _ _ _ hacc hnot h => LockFiles.step_accounted h hnot hacc)
      LockFiles.accounted_init
  have hu := hacc u
  refine ⟨hu, ?_⟩
  rw [hu]
  exact Finset.sum_nonneg fun i _ => tally_nonneg _

end

/-- Two files and two uids.  A process locks the whole of the first file, changes its uid
    and relocks a part of it: the rest behind that part is counted on the old uid. -/
theorem lockcnt_of_run_setuid : ∃ s : LockFiles Bool,
    Run LockFiles.step (fun s e => ¬ (s.file e.1).Relinks e.2) LockFiles.init
      [(false, .advlock (userCall 1 1000 .setlk 0 0 .rdlck) false),
        (false, .advlock (userCall 1 1001 .setlk 10 10 .wrlck) false),
        (true, .advlock (userCall 2 1001 .setlk 5 0 .rdlck) false)] s ∧
      s.uiLockcnt 1000
        = ∑ i, tally Lockf.lfUid 1000 ((s.file i).locks ++ (s.file i).waiting) ∧
      0 ≤ s.uiLockcnt 1000 := by
  -- the first call finds an empty list
  have hfirst : LockSys.step ⟨[], [], fun _ => 0⟩
        (.advlock (userCall 1 1000 .setlk 0 0 .rdlck) false)
      = some ⟨[(userCall 1 1000 .setlk 0 0 .rdlck).lock 0 (-1)], [],
          Lockcnt.add (fun _ => 0) 1000 1⟩ :=
    step_set rfl rfl rfl (by rw [lfGetblock]; rfl) (by rw [lfSetLoop]; rfl) _
  -- the second one splits the first lock
  have hsecond : LockSys.step ⟨[(userCall 1 1000 .setlk 0 0 .rdlck).lock 0 (-1)], [],
          Lockcnt.add (fun _ => 0) 1000 1⟩
        (.advlock (userCall 1 1001 .setlk 10 10 .wrlck) false)
      = some ⟨[(userCall 1 1000 .setlk 0 0 .rdlck).lock 0 9,
            (userCall 1 1001 .setlk 10 10 .wrlck).lock 10 19,
            (userCall 1 1000 .setlk 0 0 .rdlck).lock 20 (-1)], [],
          ((Lockcnt.add (fun _ => 0) 1000 1).add 1001 1).add 1000 1⟩ :=
    step_set rfl rfl rfl (by rw [lfGetblock]; rfl) (by rw [lfSetLoop]; rfl) _
  have hthird : LockSys.step ⟨[], [], ((Lockcnt.add (fun _ => 0) 1000 1).add 1001 1).add 1000 1⟩
        (.advlock (userCall 2 1001 .setlk 5 0 .rdlck) false)
      = some ⟨[(userCall 2 1001 .setlk 5 0 .rdlck).lock 5 (-1)], [],
          (((Lockcnt.add (fun _ => 0) 1000 1).add 1001 1).add 1000 1).add 1001 1⟩ :=
    step_set rfl rfl rfl (by rw [lfGetblock]; rfl) (by rw [lfSetLoop]; rfl) _
  have hrun : ∃ s : LockFiles Bool, Run LockFiles.step (fun s e => ¬ (s.file e.1).Relinks e.2)
      LockFiles.init [(false, .advlock (userCall 1 1000 .setlk 0 0 .rdlck) false),
        (false, .advlock (userCall 1 1001 .setlk 10 10 .wrlck) false),
        (true, .advlock (userCall 2 1001 .setlk 5 0 .rdlck) false)] s := by
    refine ⟨_, .cons ?_ (LockFiles.step_of rfl hfirst) (.cons ?_ (LockFiles.step_of rfl hsecond)
      (.cons ?_ (LockFiles.step_of rfl hthird) (.nil _)))⟩
    · rintro ⟨-, -, start, stop, -, -, hset⟩
      exact hset
    · -- the walk stops at the lock on the whole file
      rintro ⟨-, -, start, stop, hrange, -, hset⟩
      cases hrange
      exact hset
    · rintro ⟨-, -, start, stop, -, -, hset⟩
      exact hset
  obtain ⟨s, hrun⟩ := hrun
  exact ⟨s, hrun, lockcnt_of_run hrun 1000⟩

/-- A process locks a file from byte 5 on and unlocks all but byte 5, by a request that ends
    at the largest offset: what is left behind it starts at the smallest one.  Its next
    lock, on bytes 0 to 9, takes the place of byte 5, and the second lock contains it as
    well: it is freed in the list. -/
theorem lockcnt_below_structs : ∃ s : LockFiles Unit,
    Run LockFiles.step (fun _ _ => True) LockFiles.init
      [((), .advlock (userCall 1 1000 .setlk 5 0 .wrlck) false),
        ((), .advlock (userCall 1 1000 .unlck 6 0x7ffffffffffffffa .unlck) false),
        ((), .advlock (userCall 1 1000 .setlk 0 10 .wrlck) false)] s ∧
      s.uiLockcnt 1000 = 1 ∧
      ∑ i, tally Lockf.lfUid 1000 ((s.file i).locks ++ (s.file i).waiting) = 2 := by
  have hfirst : LockSys.step ⟨[], [], fun _ => 0⟩
        (.advlock (userCall 1 1000 .setlk 5 0 .wrlck) false)
      = some ⟨[(userCall 1 1000 .setlk 5 0 .wrlck).lock 5 (-1)], [],
          Lockcnt.add (fun _ => 0) 1000 1⟩ :=
    step_set rfl rfl rfl (by rw [lfGetblock]; rfl) (by rw [lfSetLoop]; rfl) _
  -- the unlock is counted while it lasts, and the split for good
  have hsecond : LockSys.step ⟨[(userCall 1 1000 .setlk 5 0 .wrlck).lock 5 (-1)], [],
          Lockcnt.add (fun _ => 0) 1000 1⟩
        (.advlock (userCall 1 1000 .unlck 6 0x7ffffffffffffffa .unlck) false)
      = some ⟨[(userCall 1 1000 .setlk 5 0 .wrlck).lock 5 5,
            (userCall 1 1000 .setlk 5 0 .wrlck).lock (-0x8000000000000000) (-1)], [],
          (((Lockcnt.add (fun _ => 0) 1000 1).add 1000 1).add 1000 1).add 1000 (-1)⟩ :=
    step_clear rfl rfl (List.cons_ne_nil _ _) rfl (by rw [lfClearlock, lfClearLoop]; rfl) _
  have hthird : LockSys.step ⟨[(userCall 1 1000 .setlk 5 0 .wrlck).lock 5 5,
            (userCall 1 1000 .setlk 5 0 .wrlck).lock (-0x8000000000000000) (-1)], [],
          (((Lockcnt.add (fun _ => 0) 1000 1).add 1000 1).add 1000 1).add 1000 (-1)⟩
        (.advlock (userCall 1 1000 .setlk 0 10 .wrlck) false)
      = some ⟨[(userCall 1 1000 .setlk 0 10 .wrlck).lock 0 9,
            (userCall 1 1000 .setlk 5 0 .wrlck).lock (-0x8000000000000000) (-1)], [],
          ((((((Lockcnt.add (fun _ => 0) 1000 1).add 1000 1).add 1000 1).add 1000 (-1)).add
            1000 1).add 1000 (-1)).add 1000 (-1)⟩ := by
    apply step_set rfl rfl rfl
    · rw [lfGetblock]
      rfl
    · -- first byte 5 goes, then the lock itself
      rw [lfSetLoop]
      show lfSetLoop _ _ _ false _ = _
      rw [lfSetLoop]
      rfl
  refine ⟨_, .cons trivial (LockFiles.step_of rfl hfirst) (.cons trivial
    (LockFiles.step_of rfl hsecond) (.cons trivial (LockFiles.step_of rfl hthird) (.nil _))),
    rfl, ?_⟩
  rw [Fintype.sum_unique]
  rfl

end OpenBsd.Kern
