/-
  OpenBsd.Kern.UipcUsrreq

  The garbage collector of descriptors in flight, of `kern/uipc_usrreq.c`: `unp_gc` from the mark loop
  on, `unp_scan`, `unp_mark` and `unp_discard`.

  Sockets and files are numbers.  A rights message is the list of its pointers, `none` for one that
  was zeroed.
-/

import Mathlib.Data.List.Nodup
import Mathlib.Tactic.Ring

namespace OpenBsd.Kern

open List Function

/-- An mbuf of a receive buffer, as `unp_scan` sees it. -/
inductive UnpMbuf where
  /-- `MT_CONTROL` with `SCM_RIGHTS` -/
  | rights (rp : List (Option Nat))
  /-- any other control message, data, or an address -/
  | other
  deriving DecidableEq

/-- The sockets of `unp_head`, in the order of the list, with what `unp_gc` reads of them and of the
files.  Every socket that a file leads to is on the list. -/
structure UnpHead where
  head : List Nat
  nodup : head.Nodup
  unpFile : Nat → Option Nat
  unpMsgcount : Nat → Int
  fCount : Nat → Nat
  fptounp : Nat → Option Nat
  /-- the records of `so_rcv` -/
  rcv : Nat → List (List UnpMbuf)
  fptounp_mem : ∀ fp unp, fptounp fp = some unp → unp ∈ head

/-- `UNP_GCMARK`, `UNP_GCDEFER` and `UNP_GCDEAD`. -/
structure UnpFlags where
  gcMark : Bool
  gcDefer : Bool
  gcDead : Bool
  deriving DecidableEq

/-- The flags, and the variable `unp_defer`. -/
structure UnpGc where
  flags : Nat → UnpFlags
  unpDefer : Int

/-- The receive buffer of the socket has a rights message with a file of the other socket. -/
def UnpHead.Refers (w : UnpHead) (unp unp' : Nat) : Prop :=
  ∃ ms ∈ w.rcv unp, ∃ rp, UnpMbuf.rights rp ∈ ms ∧ ∃ fp, some fp ∈ rp ∧ w.fptounp fp = some unp'

/-- The socket can only be reached through messages: it has a file, with references, and all of them
are from messages. -/
def UnpHead.Passed (w : UnpHead) (unp : Nat) : Prop :=
  ∃ fp, w.unpFile unp = some fp ∧ 0 < w.fCount fp ∧ (w.fCount fp : Int) = w.unpMsgcount unp

/-- The socket can be reached from one that is not only passed in messages. -/
def UnpHead.Live (w : UnpHead) (unp : Nat) : Prop :=
  ∃ root ∈ w.head, ¬ w.Passed root ∧ Relation.ReflTransGen w.Refers root unp

variable {w : UnpHead} {s s' s'' : UnpGc}

/-- How many sockets are deferred. -/
def UnpHead.deferred (w : UnpHead) (s : UnpGc) : Nat := w.head.countP fun unp => (s.flags unp).gcDefer

/-- What `unp_mark` does with some pointers: their sockets are marked or deferred afterwards. -/
structure Scanned (w : UnpHead) (s s' : UnpGc) (ptrs : List (Option Nat)) : Prop where
  mark : ∀ v, (s'.flags v).gcMark = (s.flags v).gcMark
  kept : ∀ v, (s.flags v).gcDefer = true → (s'.flags v).gcDefer = true
  fresh : ∀ v, (s'.flags v).gcDefer = true → (s.flags v).gcDefer = true ∨
    ((s.flags v).gcMark = false ∧ ∃ fp, some fp ∈ ptrs ∧ w.fptounp fp = some v)
  found : ∀ fp v, some fp ∈ ptrs → w.fptounp fp = some v →
    (s'.flags v).gcMark = true ∨ (s'.flags v).gcDefer = true
  dead : ∀ v, (s'.flags v).gcDead = true → (s.flags v).gcDead = true ∧
    ((s'.flags v).gcDefer = true → (s.flags v).gcDefer = true)
  spared : ∀ v, (s.flags v).gcDead = true → (s'.flags v).gcDead = true ∨ (s'.flags v).gcDefer = true
  count : s'.unpDefer - w.deferred s' = s.unpDefer - w.deferred s

theorem Scanned.refl (w : UnpHead) (s : UnpGc) : Scanned w s s [] :=
  ⟨fun _ => rfl, fun _ h => h, fun _ h => .inl h, fun _ _ h => (not_mem_nil h).elim,
    fun _ h => ⟨h, fun h' => h'⟩, fun _ h => .inl h, rfl⟩

theorem Scanned.append {ptrs ptrs' : List (Option Nat)} (h : Scanned w s s' ptrs) (h' : Scanned w s' s'' ptrs') :
    Scanned w s s'' (ptrs ++ ptrs') := by
  refine ⟨fun v => (h'.mark v).trans (h.mark v), fun v hv => h'.kept v (h.kept v hv), ?_, ?_, ?_, ?_,
    h'.count.trans h.count⟩
  · intro v hv
    rcases h'.fresh v hv with hold | ⟨hmark, fp, hfp, hunp⟩
    · rcases h.fresh v hold with hold | ⟨hmark, fp, hfp, hunp⟩
      · exact .inl hold
      · exact .inr ⟨hmark, fp, mem_append_left _ hfp, hunp⟩
    · rw [h.mark v] at hmark
      exact .inr ⟨hmark, fp, mem_append_right _ hfp, hunp⟩
  · intro fp v hfp hunp
    rcases mem_append.1 hfp with hfp | hfp
    · rcases h.found fp v hfp hunp with hmark | hdefer
      · rw [h'.mark v]
        exact .inl hmark
      · exact .inr (h'.kept v hdefer)
    · exact h'.found fp v hfp hunp
  · intro v hv
    obtain ⟨hdead', hnew'⟩ := h'.dead v hv
    obtain ⟨hdead, hnew⟩ := h.dead v hdead'
    exact ⟨hdead, fun hdefer => hnew (hnew' hdefer)⟩
  · intro v hv
    rcases h.spared v hv with hdead | hdefer
    · exact h'.spared v hdead
    · exact .inr (h'.kept v hdefer)

theorem deferred_update {unp : Nat} (hunp : unp ∈ w.head) (f : UnpFlags) (n : Int) :
    (w.deferred { flags := update s.flags unp f, unpDefer := n } : Int) + (s.flags unp).gcDefer.toNat =
      w.deferred s + f.gcDefer.toNat := by
  have hperm := perm_cons_erase hunp
  have hrest : (w.head.erase unp).countP (fun x => (update s.flags unp f x).gcDefer) =
      (w.head.erase unp).countP fun x => (s.flags x).gcDefer := by
    apply countP_congr
    intro x hx
    have hne : x ≠ unp := (w.nodup.mem_erase_iff.1 hx).1
    rw [update_of_ne hne]
  have hnew : w.deferred { flags := update s.flags unp f, unpDefer := n } =
      (w.head.erase unp).countP (fun x => (s.flags x).gcDefer) + f.gcDefer.toNat := by
    unfold UnpHead.deferred
    dsimp only
    rw [hperm.countP_eq, countP_cons, hrest, update_self]
    cases f.gcDefer <;> rfl
  have hold : w.deferred s =
      (w.head.erase unp).countP (fun x => (s.flags x).gcDefer) + (s.flags unp).gcDefer.toNat := by
    unfold UnpHead.deferred
    rw [hperm.countP_eq, countP_cons]
    cases (s.flags unp).gcDefer <;> rfl
  rw [hnew, hold]
  push_cast
  omega

end OpenBsd.Kern
