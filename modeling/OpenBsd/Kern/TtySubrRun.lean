/-
  OpenBsd.Kern.TtySubrRun

  Any number of character lists, and a caller that goes through one of them with `firstc`
  and `nextc`.

  `nextc` counts in a variable that all lists share.  A caller goes on with the list it
  began with, and not after characters were taken from it, as the comment on `nextc` asks;
  everything may be done to the other lists in between.
-/

import OpenBsd.Kern.TtySubrQueue
import OpenBsd.Lib.Run

namespace OpenBsd.Kern

open OpenBsd.Lib Function

/-! ## Calls and answers -/

inductive TtyCall (ι : Type) where
  | getc (i : ι)
  | qToB (i : ι) (count : Int)
  | ndflush (i : ι) (count : Int)
  | unputc (i : ι)
  | putc (c : BitVec 32) (i : ι)
  | bToQ (cp : List (BitVec 8)) (i : ι)
  | catq (src dst : ι)
  | firstc (i : ι)
  | nextc (i : ι)

inductive TtyAnswer where
  /-- The character that `getc` or `unputc` returns. -/
  | char (c : BitVec 32)
  /-- The bytes that `q_to_b` copies. -/
  | bytes (p : List (BitVec 8))
  /-- What `putc` returns. -/
  | status (r : Int)
  /-- The bytes that `b_to_q` does not transfer. -/
  | left (p : List (BitVec 8))
  /-- The character of `firstc` or `nextc`, unless they return `NULL`. -/
  | next (c : Option (BitVec 32))
  | done
  deriving DecidableEq, Repr

/-! ## The lists -/

/-- The lists, the variable `cc`, and the pointer of the caller that goes through a list. -/
structure TtyLists (ι : Type) where
  lists : ι → Clist
  cc : Nat
  cp : Option Nat

section

variable {ι : Type} [DecidableEq ι]

def TtyLists.set (t : TtyLists ι) (i : ι) (clp : Clist) : TtyLists ι :=
  { t with lists := Function.update t.lists i clp }

def ttyStep (t : TtyLists ι) : TtyCall ι → Option (TtyAnswer × TtyLists ι)
  | .getc i => (getc (t.lists i)).map fun r => (.char r.1, t.set i r.2)
  | .qToB i count => (qToB (t.lists i) count).map fun r => (.bytes r.1, t.set i r.2)
  | .ndflush i count => (ndflush (t.lists i) count).map fun r => (.done, t.set i r)
  | .unputc i => (unputc (t.lists i)).map fun r => (.char r.1, t.set i r.2)
  | .putc c i => (putc c (t.lists i)).map fun r => (.status r.1, t.set i r.2)
  | .bToQ cp i => (bToQ cp (t.lists i)).map fun r => (.left r.1, t.set i r.2)
  | .catq src dst =>
    if src = dst then none
    else (catq (t.lists src) (t.lists dst)).map fun r => (.done, (t.set src r.1).set dst r.2)
  | .firstc i =>
    (firstc (t.lists i)).map fun r =>
      (.next (r.1.map Prod.snd), { t with cc := r.2, cp := r.1.map Prod.fst })
  | .nextc i =>
    (nextc (t.lists i) t.cp t.cc).map fun r =>
      (.next (r.1.map Prod.snd), { t with cc := r.2, cp := r.1.map Prod.fst })

/-! ## The queues -/

/-- Where the caller is: `pos` is the index of its character, and it stops at `total`. -/
structure TtyCursor (ι : Type) where
  list : ι
  pos : Nat
  total : Nat

structure TtyQueues (ι : Type) where
  queues : ι → TtyQueue
  cursor : Option (TtyCursor ι)

def TtyQueues.set (t : TtyQueues ι) (i : ι) (q : TtyQueue) : TtyQueues ι :=
  { t with queues := Function.update t.queues i q }

/-- The place in a list is lost. -/
def TtyQueues.forget (t : TtyQueues ι) (i : ι) : TtyQueues ι :=
  { t with cursor := t.cursor.filter (·.list ≠ i) }

/-- The character at an index, which is a place for the caller. -/
def TtyQueues.look (t : TtyQueues ι) (i : ι) (pos total : Nat) : TtyAnswer × TtyQueues ι :=
  if pos < total then
    (.next ((t.queues i).chars.items[pos]?.map fun c => ttyChar c.1 c.2),
      { t with cursor := some ⟨i, pos, total⟩ })
  else (.next none, { t with cursor := none })

/-- The calls as operations on queues; the calls that a caller does not make are `none`. -/
def ttyQueueStep (t : TtyQueues ι) : TtyCall ι → Option (TtyAnswer × TtyQueues ι)
  | .getc i => some (.char (t.queues i).getc.1, (t.set i (t.queues i).getc.2).forget i)
  | .qToB i count =>
    some (.bytes ((t.queues i).qToB count).1, (t.set i ((t.queues i).qToB count).2).forget i)
  | .ndflush i count => some (.done, (t.set i ((t.queues i).ndflush count)).forget i)
  | .unputc i => some (.char (t.queues i).unputc.1, (t.set i (t.queues i).unputc.2).forget i)
  | .putc c i => some (.status ((t.queues i).putc c).1, t.set i ((t.queues i).putc c).2)
  | .bToQ cp i => some (.left ((t.queues i).bToQ cp).1, t.set i ((t.queues i).bToQ cp).2)
  | .catq src dst =>
    if src = dst then none
    else
      let r := (t.queues src).catq (t.queues dst)
      some (.done, (((t.set src r.1).set dst r.2).forget src).forget dst)
  | .firstc i => some (t.look i 0 (t.queues i).chars.items.length)
  | .nextc i =>
    match t.cursor with
    | none => none
    | some cur =>
      if cur.list = i then
        let total := if cur.pos = 0 then (t.queues i).chars.items.length else cur.total
        some (t.look i (cur.pos + 1) total)
      else none

/-! ## The lists are queues -/

/-- The pointer and the variable `cc` are those of a place in a list. -/
structure TtyCursor.At (t : TtyLists ι) (cur : TtyCursor ι) : Prop where
  lt : cur.pos < cur.total
  le : cur.total ≤ (t.lists cur.list).cCc
  cp : ∃ f, (t.lists cur.list).cCf = some f ∧
    t.cp = some ((f + cur.pos) % (t.lists cur.list).cCn)
  cc : cur.pos = 0 ∨ t.cc = cur.total - cur.pos

structure TtyRep (q : TtyQueues ι) (t : TtyLists ι) : Prop where
  lists : ∀ i, (t.lists i).Rep (q.queues i)
  cursor : ∀ cur, q.cursor = some cur → cur.At t

variable {q q' : TtyQueues ι} {t : TtyLists ι} {i : ι}

theorem TtyRep.update_lists (h : TtyRep q t) {clp : Clist} {qi : TtyQueue} (hrep : clp.Rep qi)
    (j : ι) : (update t.lists i clp j).Rep (update q.queues i qi j) := by
  by_cases hj : j = i
  · subst hj
    rw [update_self, update_self]
    exact hrep
  · rw [update_of_ne hj, update_of_ne hj]
    exact h.lists j

omit [DecidableEq ι] in
theorem TtyCursor.At.congr {t' : TtyLists ι} {cur : TtyCursor ι} (h : cur.At t)
    (hlist : t'.lists cur.list = t.lists cur.list) (hcp : t'.cp = t.cp) (hcc : t'.cc = t.cc) :
    cur.At t' :=
  ⟨h.lt, hlist ▸ h.le, by rw [hlist, hcp]; exact h.cp, by rw [hcc]; exact h.cc⟩

theorem TtyRep.set_forget (h : TtyRep q t) {clp : Clist} {qi : TtyQueue} (hrep : clp.Rep qi) :
    TtyRep ((q.set i qi).forget i) (t.set i clp) := by
  refine ⟨h.update_lists hrep, ?_⟩
  intro cur hcur
  obtain ⟨hold, hne⟩ := Option.filter_eq_some_iff.1 hcur
  refine (h.cursor cur hold).congr ?_ rfl rfl
  exact update_of_ne (of_decide_eq_true hne) _ _

theorem TtyRep.set_keep (h : TtyRep q t) {clp : Clist} {qi : TtyQueue} (hrep : clp.Rep qi)
    (hcap : qi.chars.cap = (q.queues i).chars.cap)
    (hgrow : (q.queues i).chars.items.length ≤ qi.chars.items.length)
    (hfirst : ∀ f, (t.lists i).cCf = some f → clp.cCf = some f) :
    TtyRep (q.set i qi) (t.set i clp) := by
  refine ⟨h.update_lists hrep, ?_⟩
  intro cur hcur
  have hold := h.cursor cur hcur
  by_cases hi : cur.list = i
  · subst hi
    have hclp : (t.set cur.list clp).lists cur.list = clp := update_self _ _ _
    obtain ⟨f, hcf, hcp⟩ := hold.cp
    have hcn : clp.cCn = (t.lists cur.list).cCn := by
      rw [← hrep.cap, hcap, (h.lists cur.list).cap]
    have hcc : (t.lists cur.list).cCc ≤ clp.cCc := by
      rw [← hrep.length, ← (h.lists cur.list).length]
      exact hgrow
    refine ⟨hold.lt, ?_, ⟨f, ?_, ?_⟩, hold.cc⟩
    · rw [hclp]
      exact hold.le.trans hcc
    · rw [hclp]
      exact hfirst f hcf
    · rw [hclp, hcn]
      exact hcp
  · exact hold.congr (update_of_ne hi _ _) rfl rfl

theorem length_pushAll_ge (q : BoundedQueue (BitVec 8 × Bool)) (xs : List (BitVec 8 × Bool)) :
    q.items.length ≤ (q.pushAll xs).items.length := by
  change _ ≤ (q.items ++ xs.take q.room).length
  rw [List.length_append]
  exact Nat.le_add_right _ _

/-! ## Through a list -/

omit [DecidableEq ι] in
theorem TtyRep.look (h : TtyRep q t) {f pos total : Nat} (hcf : (t.lists i).cCf = some f)
    (hlt : pos < total) (hle : total ≤ (t.lists i).cCc) (cc : Nat)
    (hcc : pos = 0 ∨ cc = total - pos) :
    let p := (f + pos) % (t.lists i).cCn
    (q.queues i).chars.items[pos]? = some ((t.lists i).cell p) ∧
      TtyRep { q with cursor := some ⟨i, pos, total⟩ } { t with cc := cc, cp := some p } := by
  have hchars : (t.lists i).chars = window (t.lists i).cell (t.lists i).cCn f (t.lists i).cCc := by
    rw [Clist.chars, hcf]
    rfl
  refine ⟨?_, h.lists, ?_⟩
  · rw [(h.lists i).chars, hchars, getElem?_window (by omega)]
  · intro cur hcur
    obtain rfl := Option.some.inj hcur
    exact ⟨hlt, hle, ⟨f, hcf, rfl⟩, hcc⟩

omit [DecidableEq ι] in
theorem TtyRep.lookEnd (h : TtyRep q t) (cc : Nat) :
    TtyRep { q with cursor := none } { t with cc := cc, cp := none } :=
  ⟨h.lists, fun _ hcur => absurd hcur nofun⟩

theorem firstc_rep (h : TtyRep q t) :
    ∃ t', ttyStep t (.firstc i) = some ((q.look i 0 (q.queues i).chars.items.length).1, t') ∧
      TtyRep (q.look i 0 (q.queues i).chars.items.length).2 t' := by
  rw [(h.lists i).length, TtyQueues.look, ttyStep, firstc]
  rcases (h.lists i).ptrs with ⟨hzero, -, -⟩ | ⟨hpos, f, hring⟩
  · rw [if_pos hzero, if_neg (by omega)]
    exact ⟨_, rfl, h.lookEnd _⟩
  · obtain ⟨hitem, hrep⟩ := h.look hring.cf hpos (Nat.le_refl _) (t.lists i).cCc (.inl rfl)
    rw [Nat.add_zero, Nat.mod_eq_of_lt hring.lt] at hitem hrep
    rw [if_neg (Nat.pos_iff_ne_zero.1 hpos), if_pos hpos, hitem]
    simp only [hring.cs, hring.cf, Option.bind_eq_bind, Option.bind_some, Option.map_some]
    exact ⟨_, rfl, hrep⟩

theorem nextc_rep (h : TtyRep q t) {cur : TtyCursor ι} (hcur : q.cursor = some cur) {total : Nat}
    (htotal : (if cur.pos = 0 then (q.queues cur.list).chars.items.length else cur.total) = total) :
    ∃ t', ttyStep t (.nextc cur.list) = some ((q.look cur.list (cur.pos + 1) total).1, t') ∧
      TtyRep (q.look cur.list (cur.pos + 1) total).2 t' := by
  have hat := h.cursor cur hcur
  obtain ⟨f, hcf, hcp⟩ := hat.cp
  have hlt := hat.lt
  have hle := hat.le
  obtain ⟨g, hring⟩ : ∃ g, (t.lists cur.list).Ring g := by
    rcases (h.lists cur.list).ptrs with ⟨hzero, -, -⟩ | ⟨-, hring⟩
    · omega
    · exact hring
  obtain rfl : g = f := Option.some.inj (hring.cf.symm.trans hcf)
  have hcn := hring.le
  -- the count is that of the characters from this place on
  have hcount : (if (t.lists cur.list).cCf = t.cp then (t.lists cur.list).cCc else t.cc) =
      total - cur.pos ∧ cur.pos < total ∧ total ≤ (t.lists cur.list).cCc := by
    rw [hcf, hcp]
    by_cases hzero : cur.pos = 0
    · rw [if_pos hzero, (h.lists cur.list).length] at htotal
      rw [hzero, Nat.add_zero, Nat.mod_eq_of_lt hring.lt, if_pos rfl]
      omega
    · rw [if_neg hzero] at htotal
      have hne := @cell_ne (t.lists cur.list).cCn g 0 cur.pos (Nat.pos_of_ne_zero hzero) (by omega)
      rw [Nat.add_zero, Nat.mod_eq_of_lt hring.lt] at hne
      rw [if_neg fun e => hne (Option.some.inj e), hat.cc.resolve_left hzero]
      omega
  obtain ⟨hcc, hpos, htotal'⟩ := hcount
  rw [TtyQueues.look, ttyStep, nextc, hcc]
  dsimp only
  rw [if_neg (by rw [hcp]; exact not_or.2 ⟨by omega, nofun⟩)]
  by_cases hend : cur.pos + 1 < total
  · obtain ⟨hitem, hrep⟩ := h.look hring.cf hend htotal' (total - cur.pos - 1) (.inr (by omega))
    have hwrap : (t.lists cur.list).wrap ((g + cur.pos) % (t.lists cur.list).cCn + 1) =
        (g + (cur.pos + 1)) % (t.lists cur.list).cCn := by
      have hnext : (g + cur.pos) % (t.lists cur.list).cCn + 1 ≤ (t.lists cur.list).cCn :=
        Nat.mod_lt _ (by omega)
      rw [Clist.wrap_eq_mod hnext, Nat.mod_add_mod, Nat.add_assoc]
    rw [if_neg (by omega), if_pos hend, hitem]
    simp only [hring.cs, hcp, Option.bind_eq_bind, Option.bind_some, Option.map_some, hwrap]
    exact ⟨_, rfl, hrep⟩
  · rw [if_pos (by omega), if_neg hend]
    exact ⟨_, rfl, h.lookEnd _⟩

/-! ## Any sequence of calls -/

/-- A call does to the lists what it does to the queues. -/
theorem ttyStep_rep (q : TtyQueues ι) (t : TtyLists ι) (e : TtyCall ι) (o : TtyAnswer)
    (q' : TtyQueues ι) (h : TtyRep q t) (hstep : ttyQueueStep q e = some (o, q')) :
    ∃ t', ttyStep t e = some (o, t') ∧ TtyRep q' t' := by
  cases e with
  | getc i =>
    obtain ⟨clp, hclp, hrep⟩ := Clist.getc_rep (h.lists i)
    obtain ⟨rfl, rfl⟩ := Prod.mk.inj (Option.some.inj hstep)
    exact ⟨_, by rw [ttyStep, hclp]; rfl, h.set_forget hrep⟩
  | qToB i count =>
    obtain ⟨clp, hclp, hrep⟩ := Clist.qToB_rep (h.lists i) count
    obtain ⟨rfl, rfl⟩ := Prod.mk.inj (Option.some.inj hstep)
    exact ⟨_, by rw [ttyStep, hclp]; rfl, h.set_forget hrep⟩
  | ndflush i count =>
    obtain ⟨clp, hclp, hrep⟩ := Clist.ndflush_rep (h.lists i) count
    obtain ⟨rfl, rfl⟩ := Prod.mk.inj (Option.some.inj hstep)
    exact ⟨_, by rw [ttyStep, hclp]; rfl, h.set_forget hrep⟩
  | unputc i =>
    obtain ⟨clp, hclp, hrep⟩ := Clist.unputc_rep (h.lists i)
    obtain ⟨rfl, rfl⟩ := Prod.mk.inj (Option.some.inj hstep)
    exact ⟨_, by rw [ttyStep, hclp]; rfl, h.set_forget hrep⟩
  | putc c i =>
    obtain ⟨clp, hclp, hrep, hfirst⟩ := Clist.putc_rep (h.lists i) c
    obtain ⟨rfl, rfl⟩ := Prod.mk.inj (Option.some.inj hstep)
    exact ⟨_, by rw [ttyStep, hclp]; rfl, h.set_keep hrep rfl (length_pushAll_ge _ _) hfirst⟩
  | bToQ cp i =>
    obtain ⟨clp, hclp, hrep, hfirst⟩ := Clist.bToQ_rep (h.lists i) cp
    obtain ⟨rfl, rfl⟩ := Prod.mk.inj (Option.some.inj hstep)
    exact ⟨_, by rw [ttyStep, hclp]; rfl, h.set_keep hrep rfl (length_pushAll_ge _ _) hfirst⟩
  | catq src dst =>
    rw [ttyQueueStep] at hstep
    split at hstep
    · cases hstep
    · rename_i hne
      obtain ⟨srcp, dstp, hclp, hs, hd⟩ := catq_rep (h.lists src) (h.lists dst)
      obtain ⟨rfl, rfl⟩ := Prod.mk.inj (Option.some.inj hstep)
      exact ⟨_, by rw [ttyStep, if_neg hne, hclp]; rfl, (h.set_forget hs).set_forget hd⟩
  | firstc i =>
    obtain ⟨t', ht', hrep⟩ := firstc_rep h
    obtain ⟨rfl, rfl⟩ := Prod.mk.inj (Option.some.inj hstep)
    exact ⟨t', ht', hrep⟩
  | nextc i =>
    rw [ttyQueueStep] at hstep
    split at hstep
    · cases hstep
    · rename_i cur hcur
      split at hstep
      · rename_i hi
        subst hi
        obtain ⟨t', ht', hrep⟩ := nextc_rep h hcur rfl
        obtain ⟨rfl, rfl⟩ := Prod.mk.inj (Option.some.inj hstep)
        exact ⟨t', ht', hrep⟩
      · cases hstep

/-- Lists behind `clalloc`. -/
def ttyLists (size : ι → Nat) (quot : ι → Bool) : TtyLists ι where
  lists i := Clist.clalloc (size i) (quot i)
  cc := 0
  cp := none

def ttyQueues (size : ι → Nat) (quot : ι → Bool) : TtyQueues ι where
  queues i := .empty (size i) (quot i)
  cursor := none

omit [DecidableEq ι] in
theorem ttyRep_start (size : ι → Nat) (quot : ι → Bool) :
    TtyRep (ttyQueues size quot) (ttyLists size quot) :=
  ⟨fun i => Clist.rep_clalloc (size i) (quot i), fun _ hcur => absurd hcur nofun⟩

/-- The answers of a caller that goes through a list to its end. -/
def TtyQueue.enumeration (q : TtyQueue) : List TtyAnswer :=
  (q.chars.items.map fun c => .next (some (ttyChar c.1 c.2))) ++ [.next none]

variable {pos : Nat}

theorem ttyQueueStep_nextc (hcur : q.cursor = some ⟨i, pos, (q.queues i).chars.items.length⟩) :
    ttyQueueStep q (.nextc i) = some (q.look i (pos + 1) (q.queues i).chars.items.length) := by
  simp only [ttyQueueStep, hcur, if_true, ite_self]

omit [DecidableEq ι] in
theorem TtyQueues.look_lt {c : BitVec 8 × Bool} {rest : List (BitVec 8 × Bool)} (hdrop : (q.queues i).chars.items.drop pos = c :: rest) :
    q.look i pos (q.queues i).chars.items.length =
      (.next (some (ttyChar c.1 c.2)),
        { q with cursor := some ⟨i, pos, (q.queues i).chars.items.length⟩ }) := by
  have hitem : (q.queues i).chars.items[pos]? = some c := by
    rw [← List.head?_drop, hdrop]
    rfl
  have hlt : pos < (q.queues i).chars.items.length := (List.getElem?_eq_some_iff.1 hitem).1
  rw [TtyQueues.look, if_pos hlt, hitem]
  rfl

omit [DecidableEq ι] in
theorem TtyQueues.look_end (hdrop : (q.queues i).chars.items.drop pos = []) :
    q.look i pos (q.queues i).chars.items.length = (.next none, { q with cursor := none }) := by
  rw [TtyQueues.look, if_neg (Nat.not_lt.2 (List.drop_eq_nil_iff.1 hdrop))]

theorem answers_nextc {i : ι} (rest : List (BitVec 8 × Bool)) {q : TtyQueues ι} {pos : Nat}
    (hcur : q.cursor = some ⟨i, pos, (q.queues i).chars.items.length⟩)
    (hrest : (q.queues i).chars.items.drop (pos + 1) = rest) :
    ∃ q', answers ttyQueueStep q (List.replicate (rest.length + 1) (.nextc i)) =
      some ((rest.map fun c => .next (some (ttyChar c.1 c.2))) ++ [.next none], q') := by
  induction rest generalizing q pos with
  | nil =>
    have hstep := ttyQueueStep_nextc hcur
    rw [TtyQueues.look_end hrest] at hstep
    exact ⟨_, answers_cons hstep []⟩
  | cons c rest ih =>
    have hstep := ttyQueueStep_nextc hcur
    rw [TtyQueues.look_lt hrest] at hstep
    have hnext : (q.queues i).chars.items.drop (pos + 1 + 1) = rest := by
      rw [← List.drop_drop, hrest]
      rfl
    obtain ⟨q', hq'⟩ := @ih { q with cursor := some ⟨i, pos + 1, (q.queues i).chars.items.length⟩ }
      (pos + 1) rfl hnext
    refine ⟨q', ?_⟩
    rw [List.length_cons, List.replicate_succ, answers_cons hstep, hq']
    rfl

theorem answers_enumeration (q : TtyQueues ι) (i : ι) :
    ∃ q', answers ttyQueueStep q
        (.firstc i :: List.replicate (q.queues i).chars.items.length (.nextc i)) =
      some ((q.queues i).enumeration, q') := by
  rw [TtyQueue.enumeration]
  have hstep : ttyQueueStep q (.firstc i) = some (q.look i 0 (q.queues i).chars.items.length) := rfl
  cases hitems : (q.queues i).chars.items with
  | nil =>
    have hdrop : (q.queues i).chars.items.drop 0 = [] := hitems
    rw [TtyQueues.look_end hdrop] at hstep
    exact ⟨_, answers_cons hstep []⟩
  | cons c rest =>
    have hdrop : (q.queues i).chars.items.drop 0 = c :: rest := hitems
    rw [TtyQueues.look_lt hdrop] at hstep
    have hnext : (q.queues i).chars.items.drop 1 = rest := by rw [hitems]; rfl
    obtain ⟨q', hq'⟩ :=
      @answers_nextc ι _ i rest { q with cursor := some ⟨i, 0, (q.queues i).chars.items.length⟩ } 0
        rfl hnext
    refine ⟨q', ?_⟩
    rw [answers_cons hstep, List.length_cons, hq']
    rfl

/-- Whatever is called in whatever order, the lists answer as queues of their capacity do, and
    in the end each of them holds what its queue holds, in the order in which `firstc` and
    `nextc` go through it. -/
theorem clists_are_queues (size : ι → Nat) (quot : ι → Bool) {es : List (TtyCall ι)}
    {os : List TtyAnswer} {q' : TtyQueues ι}
    (h : answers ttyQueueStep (ttyQueues size quot) es = some (os, q')) :
    ∃ t', answers ttyStep (ttyLists size quot) es = some (os, t') ∧
      (∀ i, (t'.lists i).Rep (q'.queues i)) ∧
      ∀ i, ∃ t'', answers ttyStep t'
          (.firstc i :: List.replicate (q'.queues i).chars.items.length (.nextc i)) =
        some ((q'.queues i).enumeration, t'') := by
  obtain ⟨t', ht', hrep⟩ := answers_follow ttyStep_rep (ttyRep_start size quot) h
  refine ⟨t', ht', hrep.lists, ?_⟩
  intro i
  obtain ⟨q'', hq''⟩ := answers_enumeration q' i
  obtain ⟨t'', ht'', -⟩ := answers_follow ttyStep_rep hrep hq''
  exact ⟨t'', ht''⟩

/-- Four characters go into a list of three cells, around its end; one is refused. -/
theorem clists_three_cells :
    ∃ q' : TtyQueues Unit, answers ttyQueueStep (ttyQueues (fun _ => 3) fun _ => true)
        [.bToQ [1, 2, 3, 4] (), .getc (), .putc 0x105 (), .firstc (), .nextc (), .nextc (),
          .unputc ()] =
      some ([.left [4], .char 1, .status 0, .next (some 2), .next (some 3), .next (some 0x105),
        .char 0x105], q') ∧
    ∃ t', answers ttyStep (ttyLists (fun _ => 3) fun _ => true)
        [.bToQ [1, 2, 3, 4] (), .getc (), .putc 0x105 (), .firstc (), .nextc (), .nextc (),
          .unputc ()] =
      some ([.left [4], .char 1, .status 0, .next (some 2), .next (some 3), .next (some 0x105),
        .char 0x105], t') := by
  have hq : ∃ q' : TtyQueues Unit, answers ttyQueueStep (ttyQueues (fun _ => 3) fun _ => true)
        [.bToQ [1, 2, 3, 4] (), .getc (), .putc 0x105 (), .firstc (), .nextc (), .nextc (),
          .unputc ()] =
      some ([.left [4], .char 1, .status 0, .next (some 2), .next (some 3), .next (some 0x105),
        .char 0x105], q') := ⟨_, rfl⟩
  obtain ⟨q', hq'⟩ := hq
  obtain ⟨t', ht', -⟩ := clists_are_queues (fun _ => 3) (fun _ => true) hq'
  exact ⟨q', hq', t', ht'⟩

end

end OpenBsd.Kern
