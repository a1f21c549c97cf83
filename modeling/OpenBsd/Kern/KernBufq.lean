/-
  OpenBsd.Kern.KernBufq

  The disk queues of `kern/kern_bufq.c`: the fifo, nscan, and the switch from one to the
  other.  Every call of `impl_queue` gives the buf the next ticket, in the order in which
  bufs were queued.
-/

import Mathlib.Data.List.Perm.Basic
import Mathlib.Data.List.Count

namespace OpenBsd.Kern

open List

/-- A buf with the ticket of the call that queued it. -/
abbrev Ticketed (β : Type) := Nat × β

/-- `struct bufq_nscan_data` -/
structure NscanData (β : Type) where
  sorted : List (Ticketed β)
  fifo : List (Ticketed β)
  leftoverroom : Nat

inductive BufqData (β : Type) where
  | fifo (head : List (Ticketed β))
  | nscan (data : NscanData β)

inductive BufqType where
  | fifo | nscan
  deriving DecidableEq

def bufqNscanN : Nat := 128

variable {β : Type} (blkno : β → Int)

/-! ## nscan -/

def bufqSimpleNscan (bp : Ticketed β) : List (Ticketed β) → List (Ticketed β)
  | [] => [bp]
  | cur :: rest =>
    if blkno bp.2 < blkno cur.2 then bp :: cur :: rest else cur :: bufqSimpleNscan bp rest

def bufqNscanQueue (data : NscanData β) (bp : Ticketed β) : NscanData β :=
  match data.sorted with
  | next :: _ =>
    if data.leftoverroom ≠ 0 ∧ blkno next.2 < blkno bp.2 then
      ⟨bufqSimpleNscan blkno bp data.sorted, data.fifo, data.leftoverroom - 1⟩
    else { data with fifo := data.fifo ++ [bp] }
  | [] => { data with fifo := data.fifo ++ [bp] }

namespace BufqData

def type : BufqData β → BufqType
  | fifo _ => .fifo
  | nscan _ => .nscan

def create : BufqType → BufqData β
  | .fifo => fifo []
  | .nscan => nscan ⟨[], [], 0⟩

def implQueue (bp : Ticketed β) : BufqData β → BufqData β
  | fifo head => fifo (head ++ [bp])
  | nscan data => nscan (bufqNscanQueue blkno data bp)

def bufs : BufqData β → List (Ticketed β)
  | fifo head => head
  | nscan data => data.sorted ++ data.fifo

end BufqData

variable {bp : Ticketed β} {rest : List (Ticketed β)}
  {data : NscanData β} {q q' : BufqData β}

theorem bufqSimpleNscan_perm (bp : Ticketed β) (l : List (Ticketed β)) :
    (bufqSimpleNscan blkno bp l).Perm (bp :: l) := by
  induction l with
  | nil => exact .refl _
  | cons cur rest ih =>
    rw [bufqSimpleNscan]
    split
    · exact .refl _
    · exact (ih.cons cur).trans (.swap bp cur rest)

theorem BufqData.implQueue_perm (bp : Ticketed β) (q : BufqData β) :
    (q.implQueue blkno bp).bufs.Perm (bp :: q.bufs) := by
  cases q with
  | fifo head => exact perm_append_singleton bp head
  | nscan data =>
    have htail : (data.sorted ++ (data.fifo ++ [bp])).Perm (bp :: (data.sorted ++ data.fifo)) := by
      rw [← List.append_assoc]
      exact perm_append_singleton bp _
    simp only [implQueue, bufs, bufqNscanQueue]
    split
    · split
      · exact (bufqSimpleNscan_perm blkno bp data.sorted).append_right data.fifo
      · exact htail
    · exact htail

def tickets (l : List (Ticketed β)) : List Nat := l.map Prod.fst

/-- How many of these were queued after the buf with the ticket `t`. -/
def later (t : Nat) (l : List Nat) : Nat := l.countP (t < ·)

theorem later_append (t : Nat) (l l' : List Nat) : later t (l ++ l') = later t l + later t l' :=
  countP_append

theorem later_perm (t : Nat) {l l' : List (Ticketed β)} (h : l.Perm l') :
    later t (tickets l) = later t (tickets l') :=
  (h.map Prod.fst).countP_eq _

variable {l : List Nat} {t : Nat}

theorem later_eq_zero (h : ∀ t' ∈ l, t' ≤ t) : later t l = 0 := by
  refine countP_eq_zero.2 fun t' ht' => ?_
  simpa using h t' ht'

/-- The room is counted once for a buf in the fifo, before its own segment is made, and once
    in its own segment. -/
structure NscanFair (data : NscanData β) (out : List Nat) : Prop where
  room : data.sorted ≠ [] → data.leftoverroom < bufqNscanN
  order : (tickets data.fifo).Pairwise (· < ·)
  waiting : ∀ t ∈ tickets data.fifo, later t out + later t (tickets data.sorted) +
    (if data.sorted = [] then 0 else data.leftoverroom) < bufqNscanN
  served : ∀ t ∈ tickets data.sorted, later t out + later t (tickets data.sorted) +
    data.leftoverroom + 1 < 2 * bufqNscanN

variable {out : List Nat} {ticket : Nat}

/-- The first buf of the segment goes: for the others it is counted as gone from now on. -/
theorem NscanFair.pop (h : NscanFair data out) (hs : data.sorted = bp :: rest) :
    NscanFair { data with sorted := rest } (out ++ [bp.1]) ∧
      later bp.1 out + 1 < 2 * bufqNscanN := by
  obtain ⟨hroom, horder, hwait, hserve⟩ := h
  have hmoved : ∀ t, later t (out ++ [bp.1]) + later t (tickets rest) =
      later t out + later t (tickets data.sorted) := fun t => by
    have hcons : tickets data.sorted = [bp.1] ++ tickets rest := by rw [hs]; rfl
    rw [hcons, later_append, later_append, Nat.add_assoc]
  have hne : data.sorted ≠ [] := hs ▸ cons_ne_nil _ _
  refine ⟨⟨fun _ => hroom hne, horder, fun t ht => ?_, fun t ht => ?_⟩, ?_⟩
  · have := hwait t ht
    rw [if_neg hne] at this
    simp only [hmoved]
    split <;> omega
  · have hmem : t ∈ tickets data.sorted := by
      rw [hs]
      exact mem_cons_of_mem _ ht
    simp only [hmoved]
    exact hserve t hmem
  · have hmem : bp.1 ∈ tickets data.sorted := by
      rw [hs]
      exact mem_cons_self
    have := hserve _ hmem
    omega

/-- A buf is queued with a new ticket. -/
theorem NscanFair.queue (h : NscanFair data out)
    (bp : Ticketed β) (hnew : ∀ t ∈ tickets (data.sorted ++ data.fifo) ++ out, t < bp.1) :
    NscanFair (bufqNscanQueue blkno data bp) out := by
  obtain ⟨hroom, horder, hwait, hserve⟩ := h
  simp only [tickets, map_append, mem_append] at hnew
  have hout : later bp.1 out = 0 := later_eq_zero fun t ht => Nat.le_of_lt (hnew t (.inr ht))
  have hsorted : later bp.1 (tickets data.sorted) = 0 :=
    later_eq_zero fun t ht => Nat.le_of_lt (hnew t (.inl (.inl ht)))
  have htail : NscanFair { data with fifo := data.fifo ++ [bp] } out := by
    refine ⟨hroom, ?_, fun t ht => ?_, hserve⟩
    · simp only [tickets, map_append]
      refine pairwise_append.2 ⟨horder, pairwise_singleton _ _, fun t ht t' ht' => ?_⟩
      rw [mem_singleton.1 ht']
      exact hnew t (.inl (.inr ht))
    · simp only [tickets, map_append, mem_append] at ht
      rcases ht with ht | ht
      · exact hwait t ht
      · rw [mem_singleton.1 ht, hout, hsorted]
        split
        · decide
        · next hne => simpa using hroom hne
  rw [bufqNscanQueue]
  split
  · next next rest hs =>
    split
    · next hin =>
      have hne : data.sorted ≠ [] := hs ▸ cons_ne_nil _ _
      have hperm := bufqSimpleNscan_perm blkno bp data.sorted
      have hcount : ∀ t, t < bp.1 → later t (tickets (bufqSimpleNscan blkno bp data.sorted)) =
          later t (tickets data.sorted) + 1 := fun t ht => by
        rw [later_perm t hperm]
        simp [later, tickets, ht]
      have hlt := hroom hne
      refine ⟨fun _ => by simp only; omega, horder, fun t ht => ?_, fun t ht => ?_⟩
      · have := hwait t ht
        rw [if_neg hne] at this
        rw [hcount t (hnew t (.inl (.inr ht)))]
        simp only
        split <;> omega
      · rcases mem_cons.1 ((hperm.map Prod.fst).mem_iff.1 ht) with rfl | ht
        · have hself : later bp.1 (tickets (bufqSimpleNscan blkno bp data.sorted)) = 0 := by
            rw [later_perm _ hperm, ← hsorted]
            simp [later, tickets]
          rw [hout, hself]
          simp only [bufqNscanN] at hlt ⊢
          omega
        · have := hserve t ht
          rw [hcount t (hnew t (.inl (.inl ht)))]
          simp only
          omega
    · exact htail
  · exact htail

/-- A fifo is a queue of nscan that never made a segment. -/
def BufqData.asNscan : BufqData β → NscanData β
  | .fifo head => ⟨[], head, 0⟩
  | .nscan data => data

/-- What holds of a queue, the tickets gone from it and the next ticket. -/
structure BufqFair (q : BufqData β) (out : List Nat) (ticket : Nat) : Prop where
  fair : NscanFair q.asNscan out
  issued : ∀ t ∈ tickets q.bufs ++ out, t < ticket
  past : ∀ pre t post, out = pre ++ t :: post → later t pre < 2 * bufqNscanN

theorem BufqData.asNscan_bufs (q : BufqData β) : q.asNscan.sorted ++ q.asNscan.fifo = q.bufs := by
  cases q <;> rfl

theorem BufqFair.queue (h : BufqFair q out ticket) (b : β) :
    BufqFair (q.implQueue blkno (ticket, b)) out (ticket + 1) := by
  have hnew : ∀ t ∈ tickets (q.asNscan.sorted ++ q.asNscan.fifo) ++ out, t < ticket :=
    q.asNscan_bufs ▸ h.issued
  have hq := h.fair.queue blkno (ticket, b) hnew
  refine ⟨?_, fun t ht => ?_, h.past⟩
  · cases q <;> exact hq
  · have hperm := (BufqData.implQueue_perm blkno (ticket, b) q).map Prod.fst
    have hmem := ((hperm.append_right out).mem_iff.1 ht : t ∈ ticket :: (tickets q.bufs ++ out))
    rcases mem_cons.1 hmem with rfl | hmem
    · exact Nat.lt_succ_self _
    · exact Nat.lt_succ_of_lt (h.issued t hmem)

end OpenBsd.Kern
