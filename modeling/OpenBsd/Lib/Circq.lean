/-
  OpenBsd.Lib.Circq

  Circular doubly linked queues with heads, in a memory of `next` and `prev`
  pointers.

  `Queues` says that the pointers of the memory hold the given lists, one for
  every head.  The operations are written as their pointer writes; one lemma for
  each says what it does to the lists.
-/

import Mathlib.Data.List.Nodup
import Mathlib.Tactic.Ring

namespace OpenBsd.Lib

open List Function

/-! ## Pointers -/

/-- A queue head or an element of a queue. -/
inductive Node (κ τ : Type) where
  | head (q : κ)
  | elem (t : τ)
  deriving DecidableEq, Repr

/-- The two pointers of every node. -/
structure Links (ν : Type) where
  next : ν → ν
  prev : ν → ν

section Writes

variable {ν : Type} [DecidableEq ν]

def Links.setNext (g : Links ν) (x y : ν) : Links ν :=
  { g with next := fun z => if z = x then y else g.next z }

def Links.setPrev (g : Links ν) (x y : ν) : Links ν :=
  { g with prev := fun z => if z = x then y else g.prev z }

@[simp] theorem Links.setNext_next (g : Links ν) (x y z : ν) :
    (g.setNext x y).next z = if z = x then y else g.next z := rfl

@[simp] theorem Links.setNext_prev (g : Links ν) (x y : ν) :
    (g.setNext x y).prev = g.prev := rfl

@[simp] theorem Links.setPrev_prev (g : Links ν) (x y z : ν) :
    (g.setPrev x y).prev z = if z = x then y else g.prev z := rfl

@[simp] theorem Links.setPrev_next (g : Links ν) (x y : ν) :
    (g.setPrev x y).next = g.next := rfl

/-! ## Operations -/

/-- An empty queue: the head points to itself. -/
def Links.init (g : Links ν) (elem : ν) : Links ν :=
  let g := g.setNext elem elem
  g.setPrev elem elem

/-- `elem` becomes the last element of the queue. -/
def Links.insert (g : Links ν) (elem list : ν) : Links ν :=
  let g := g.setPrev elem (g.prev list)
  let g := g.setNext elem list
  let g := g.setNext (g.prev list) elem
  g.setPrev list elem

/-- The elements of the second queue move behind those of the first one. -/
def Links.append (g : Links ν) (fst snd : ν) : Links ν :=
  if g.next snd = snd then g
  else
    let g := g.setNext (g.prev fst) (g.next snd)
    let g := g.setPrev (g.next snd) (g.prev fst)
    let g := g.setNext (g.prev snd) fst
    let g := g.setPrev fst (g.prev snd)
    g.init snd

/-- `elem` leaves the queue it is in. -/
def Links.remove (g : Links ν) (elem : ν) : Links ν :=
  let g := g.setPrev (g.next elem) (g.prev elem)
  g.setNext (g.prev elem) (g.next elem)

end Writes

/-! ## Segments -/

section Segments

variable {ν : Type}

/-- From `a` the pointers lead through the nodes of the list to `b`, and back. -/
def Seg (g : Links ν) (a : ν) : List ν → ν → Prop
  | [], b => g.next a = b ∧ g.prev b = a
  | x :: l, b => g.next a = x ∧ g.prev x = a ∧ Seg g x l b

variable {g g' : Links ν} {a b c : ν} {l l' : List ν}

theorem seg_append : Seg g a (l ++ c :: l') b ↔ Seg g a l c ∧ Seg g c l' b := by
  induction l generalizing a with
  | nil => simp only [nil_append, Seg, and_assoc]
  | cons x l ih => simp only [cons_append, Seg, ih, and_assoc]

/-- A segment is still there if no pointer inside it has changed. -/
theorem Seg.frame (h : Seg g a l b) (hnext : ∀ x ∈ a :: l, g'.next x = g.next x)
    (hprev : ∀ x ∈ l ++ [b], g'.prev x = g.prev x) : Seg g' a l b := by
  induction l generalizing a with
  | nil =>
    obtain ⟨hn, hp⟩ := h
    exact ⟨by rw [hnext a (by simp), hn], by rw [hprev b (by simp), hp]⟩
  | cons x l ih =>
    obtain ⟨hn, hp, h⟩ := h
    refine ⟨by rw [hnext a (by simp), hn], by rw [hprev x (by simp), hp], ih h ?_ ?_⟩
    · intro y hy
      exact hnext y (mem_cons_of_mem a hy)
    · intro y hy
      exact hprev y (mem_cons_of_mem x hy)

/-- The last node of a segment. -/
theorem Seg.prev_mem (h : Seg g a l b) : g.prev b ∈ a :: l := by
  induction l generalizing a with
  | nil =>
    rw [h.2]
    exact mem_cons_self
  | cons x l ih => exact mem_cons_of_mem a (ih h.2.2)

/-- The last node of a segment now points to `c`. -/
theorem Seg.retarget (h : Seg g a l b) (hnodup : (a :: l).Nodup)
    (hlast : g'.next (g.prev b) = c) (hback : g'.prev c = g.prev b)
    (hnext : ∀ x ∈ a :: l, x ≠ g.prev b → g'.next x = g.next x)
    (hprev : ∀ x ∈ l, g'.prev x = g.prev x) : Seg g' a l c := by
  induction l generalizing a with
  | nil =>
    rw [h.2] at hlast hback
    exact ⟨hlast, hback⟩
  | cons x l ih =>
    obtain ⟨hn, hp, h⟩ := h
    obtain ⟨ha, hnodup⟩ := nodup_cons.1 hnodup
    have hne : a ≠ g.prev b := by
      intro e
      exact ha (e ▸ h.prev_mem)
    refine ⟨by rw [hnext a (by simp) hne, hn], by rw [hprev x (by simp), hp], ih h hnodup ?_ ?_⟩
    · intro y hy
      exact hnext y (mem_cons_of_mem a hy)
    · intro y hy
      exact hprev y (mem_cons_of_mem x hy)

/-- The nodes behind `a` up to `b` are determined by the pointers. -/
theorem Seg.unique (h : Seg g a l b) (h' : Seg g a l' b) (hb : b ∉ l) (hb' : b ∉ l') : l = l' := by
  induction l generalizing a l' with
  | nil =>
    cases l' with
    | nil => rfl
    | cons y l' =>
      have hy : y = b := by rw [← h'.1, h.1]
      exact absurd (hy ▸ mem_cons_self) hb'
  | cons x l ih =>
    cases l' with
    | nil =>
      have hx : x = b := by rw [← h.1, h'.1]
      exact absurd (hx ▸ mem_cons_self) hb
    | cons y l' =>
      obtain ⟨hx, -, h⟩ := h
      obtain ⟨hy, -, h'⟩ := h'
      obtain rfl : x = y := by rw [← hx, hy]
      rw [ih h h' (fun hm => hb (mem_cons_of_mem x hm)) (fun hm => hb' (mem_cons_of_mem x hm))]

end Segments

/-! ## Queues -/

section Queues

variable {κ τ : Type}

/-- The nodes of a queue: its head and its elements. -/
def nodes (L : κ → List τ) (q : κ) : List (Node κ τ) := .head q :: (L q).map .elem

/-- The memory holds the list `L q` in the queue of every head `q`, and no element
    is in two places. -/
structure Queues (g : Links (Node κ τ)) (L : κ → List τ) : Prop where
  ring : ∀ q, Seg g (.head q) ((L q).map .elem) (.head q)
  nodup : ∀ q, (L q).Nodup
  disjoint : ∀ q q' t, t ∈ L q → t ∈ L q' → q = q'

variable {g g' : Links (Node κ τ)} {L L' : κ → List τ} {q q' : κ} {t : τ}

@[simp] theorem head_mem_nodes : (.head q : Node κ τ) ∈ nodes L q' ↔ q = q' := by
  simp [nodes]

@[simp] theorem elem_mem_nodes : (.elem t : Node κ τ) ∈ nodes L q ↔ t ∈ L q := by
  simp [nodes]

theorem nodes_nodup (h : (L q).Nodup) : (nodes L q).Nodup := by
  refine nodup_cons.2 ⟨by simp, h.map ?_⟩
  intro a b e
  exact Node.elem.inj e

namespace Queues

theorem owner_unique (h : Queues g L) {x : Node κ τ} (hq : x ∈ nodes L q)
    (hq' : x ∈ nodes L q') : q = q' := by
  cases x with
  | head p => rw [← head_mem_nodes.1 hq, ← head_mem_nodes.1 hq']
  | elem t => exact h.disjoint q q' t (elem_mem_nodes.1 hq) (elem_mem_nodes.1 hq')

theorem last_mem (h : Queues g L) (q : κ) : g.prev (.head q) ∈ nodes L q := (h.ring q).prev_mem

/-- A queue whose pointers are as before. -/
theorem ring_frame (h : Queues g L) (hnext : ∀ x ∈ nodes L q, g'.next x = g.next x)
    (hprev : ∀ x ∈ nodes L q, g'.prev x = g.prev x) :
    Seg g' (.head q) ((L q).map .elem) (.head q) := by
  refine (h.ring q).frame hnext ?_
  intro x hx
  apply hprev
  simpa [nodes, or_comm] using hx

/-- The first element of a queue, or its head if the queue is empty. -/
theorem next_head (h : Queues g L) (q : κ) :
    g.next (.head q) = ((L q).head?.map .elem).getD (.head q) := by
  have hring := h.ring q
  cases hL : L q with
  | nil =>
    rw [hL] at hring
    exact hring.1
  | cons t l =>
    rw [hL] at hring
    exact hring.1

theorem next_head_eq_self (h : Queues g L) : g.next (.head q) = .head q ↔ L q = [] := by
  rw [h.next_head q]
  cases L q <;> simp

/-- The element behind another one. -/
theorem next_elem (h : Queues g L) {l r : List τ} (hL : L q = l ++ t :: r) :
    g.next (.elem t) = (r.head?.map .elem).getD (.head q) := by
  have hring := h.ring q
  rw [hL, map_append, map_cons, seg_append] at hring
  cases r with
  | nil => exact hring.2.1
  | cons u r => exact hring.2.1

/-- The neighbours of an element are in its queue. -/
theorem next_mem {l r : List τ} (h : Queues g L) (hL : L q = l ++ t :: r) : g.next (.elem t) ∈ nodes L q := by
  rw [h.next_elem hL]
  cases r with
  | nil => simp
  | cons u r => simp [hL]

theorem prev_mem {l r : List τ} (h : Queues g L) (hL : L q = l ++ t :: r) :
    g.prev (.elem t) ∈ nodes (fun _ : κ => l) q := by
  have hring := h.ring q
  rw [hL, map_append, map_cons, seg_append] at hring
  exact hring.1.prev_mem

/-- Heads that point to themselves hold empty queues. -/
theorem init (hself : ∀ q, g.next (.head q) = .head q ∧ g.prev (.head q) = .head q) :
    Queues g (fun _ : κ => ([] : List τ)) where
  ring := hself
  nodup _ := nodup_nil
  disjoint _ _ _ ht := absurd ht not_mem_nil

/-- The queues of `C` are new, those of the others are as before. -/
theorem change (h : Queues g L) (C : κ → Prop)
    (hin : ∀ p, C p → Seg g' (.head p) ((L' p).map .elem) (.head p) ∧ (L' p).Nodup)
    (hout : ∀ p, ¬ C p → L' p = L p ∧
      ∀ x ∈ nodes L p, g'.next x = g.next x ∧ g'.prev x = g.prev x)
    (hdisj : ∀ p p' t, t ∈ L' p → t ∈ L' p' → p = p') : Queues g' L' := by
  refine ⟨?_, ?_, hdisj⟩
  · intro p
    by_cases hp : C p
    · exact (hin p hp).1
    · obtain ⟨hL, hsame⟩ := hout p hp
      rw [hL]
      exact h.ring_frame (fun x hx => (hsame x hx).1) (fun x hx => (hsame x hx).2)
  · intro p
    by_cases hp : C p
    · exact (hin p hp).2
    · rw [(hout p hp).1]
      exact h.nodup p

variable [DecidableEq κ] [DecidableEq τ]

/-! ## The operations on the lists -/

theorem insert (h : Queues g L) (hfresh : ∀ q', t ∉ L q') (q : κ) :
    Queues (g.insert (.elem t) (.head q)) (update L q (L q ++ [t])) := by
  have hnt : ∀ p, ∀ x ∈ nodes L p, x ≠ .elem t := by
    rintro p x hx rfl
    exact hfresh p (elem_mem_nodes.1 hx)
  have hlast : g.prev (.head q) ≠ .elem t := hnt q _ (h.last_mem q)
  refine h.change (· = q) ?_ ?_ ?_
  · rintro p rfl
    rw [update_self]
    refine ⟨?_, ?_⟩
    · rw [map_append, map_singleton, seg_append]
      refine ⟨(h.ring p).retarget (nodes_nodup (h.nodup p)) ?_ ?_ ?_ ?_, ?_, ?_⟩
      · simp [Links.insert]
      · simp [Links.insert]
      · intro x hx hne
        simp [Links.insert, hne, hnt p x hx]
      · intro x hx
        have hxp : x ≠ .head p := by
          rintro rfl
          simp at hx
        simp [Links.insert, hnt p x (mem_cons_of_mem _ hx), hxp]
      · simp [Links.insert, hlast.symm]
      · simp [Links.insert]
    · refine nodup_append.2 ⟨h.nodup p, nodup_singleton t, ?_⟩
      intro a ha b hb e
      rw [mem_singleton.1 hb] at e
      exact hfresh p (e ▸ ha)
  · -- the nodes written to belong to the queue `q` or to none
    intro p hp
    refine ⟨update_of_ne hp _ _, ?_⟩
    intro x hx
    have hxq : x ≠ .head q := by
      rintro rfl
      exact hp (head_mem_nodes.1 hx).symm
    have hxl : x ≠ g.prev (.head q) := by
      rintro rfl
      exact hp (h.owner_unique hx (h.last_mem q))
    simp [Links.insert, hnt p x hx, hxl, hxq]
  · have hold : ∀ r u, u ∈ update L q (L q ++ [t]) r → u ∈ L r ∨ u = t ∧ r = q := by
      intro r u hr
      by_cases hrq : r = q
      · subst hrq
        rw [update_self] at hr
        simpa using hr
      · rw [update_of_ne hrq] at hr
        exact .inl hr
    intro p p' u hu hu'
    rcases hold p u hu with hp | ⟨rfl, rfl⟩
    · rcases hold p' u hu' with hp' | ⟨rfl, rfl⟩
      · exact h.disjoint p p' u hp hp'
      · exact absurd hp (hfresh p)
    · rcases hold p' u hu' with hp' | ⟨-, rfl⟩
      · exact absurd hp' (hfresh p')
      · rfl

section Remove

variable {l r : List τ}

/-- The pointers after `remove`. -/
theorem remove_next (h : Queues g L) (hL : L q = l ++ t :: r) (x : Node κ τ) :
    (g.remove (.elem t)).next x =
      if x = g.prev (.elem t) then g.next (.elem t) else g.next x := by
  have hne : (.elem t : Node κ τ) ≠ g.next (.elem t) := by
    have hnodup := h.nodup q
    rw [hL] at hnodup
    rw [h.next_elem hL]
    cases r with
    | nil => simp
    | cons u r =>
      simp only [head?_cons, Option.map_some, Option.getD_some, ne_eq, Node.elem.injEq]
      rintro rfl
      exact (nodup_cons.1 (nodup_append.1 hnodup).2.1).1 mem_cons_self
  simp [Links.remove, hne]

theorem remove_prev (x : Node κ τ) :
    (g.remove (.elem t)).prev x =
      if x = g.next (.elem t) then g.prev (.elem t) else g.prev x := by
  simp [Links.remove]

theorem remove_ring (h : Queues g L) (hL : L q = l ++ t :: r) :
    Seg (g.remove (.elem t)) (.head q) ((l ++ r).map .elem) (.head q) := by
  have hring := h.ring q
  rw [hL, map_append, map_cons, seg_append] at hring
  obtain ⟨hleft, hright⟩ := hring
  have hnodup := h.nodup q
  rw [hL] at hnodup
  obtain ⟨hl, hr, hlr⟩ := nodup_append.1 hnodup
  have hn := h.next_elem hL
  cases r with
  | nil =>
    have hn : g.next (.elem t) = .head q := hn
    rw [append_nil]
    refine hleft.retarget (nodes_nodup (L := fun _ : κ => l) hl) ?_ ?_ ?_ ?_
    · rw [h.remove_next hL, if_pos rfl, hn]
    · rw [remove_prev, hn, if_pos rfl]
    · intro x _ hne
      rw [h.remove_next hL, if_neg hne]
    · intro x hx
      have hne : x ≠ .head q := by
        rintro rfl
        simp at hx
      rw [remove_prev, hn, if_neg hne]
  | cons u r =>
    have hn : g.next (.elem t) = .elem u := hn
    rw [map_append, map_cons, seg_append]
    refine ⟨hleft.retarget (nodes_nodup (L := fun _ : κ => l) hl) ?_ ?_ ?_ ?_,
      hright.2.2.frame ?_ ?_⟩
    · rw [h.remove_next hL, if_pos rfl, hn]
    · rw [remove_prev, hn, if_pos rfl]
    · intro x _ hne
      rw [h.remove_next hL, if_neg hne]
    · intro x hx
      have hne : x ≠ .elem u := by
        rintro rfl
        exact hlr u (by simpa using hx) u (by simp) rfl
      rw [remove_prev, hn, if_neg hne]
    · -- the node before `t` is on the left of it
      intro x hx
      have hne : x ≠ g.prev (.elem t) := by
        intro e
        have hp := h.prev_mem hL
        rw [← e] at hp
        rw [← map_cons] at hx
        obtain ⟨v, hv, rfl⟩ := mem_map.1 hx
        exact hlr v (elem_mem_nodes.1 hp) v (mem_cons_of_mem t hv) rfl
      rw [h.remove_next hL, if_neg hne]
    · intro x hx
      have hne : x ≠ .elem u := by
        rintro rfl
        have hur : u ∉ r := (nodup_cons.1 (nodup_cons.1 hr).2).1
        exact hur (by simpa using hx)
      rw [remove_prev, hn, if_neg hne]

theorem remove (h : Queues g L) (hL : L q = l ++ t :: r) :
    Queues (g.remove (.elem t)) (update L q (l ++ r)) := by
  have hnodup := h.nodup q
  rw [hL] at hnodup
  have hsub : ∀ u, u ∈ l ++ r → u ∈ L q := by
    intro u hu
    rw [hL]
    exact ((List.Sublist.refl l).append (sublist_cons_self t r)).subset hu
  have hprevL : g.prev (.elem t) ∈ nodes L q := by
    have hp := h.prev_mem hL
    cases hpt : g.prev (.elem t) with
    | head p => exact head_mem_nodes.2 (head_mem_nodes.1 (hpt ▸ hp))
    | elem u =>
      rw [hpt] at hp
      exact elem_mem_nodes.2 (hsub u (mem_append_left r (elem_mem_nodes.1 hp)))
  refine h.change (· = q) ?_ ?_ ?_
  · rintro p rfl
    rw [update_self]
    exact ⟨h.remove_ring hL, (nodup_cons.1 (nodup_middle.1 hnodup)).2⟩
  · intro p hp
    refine ⟨update_of_ne hp _ _, ?_⟩
    intro x hx
    have hxp : x ≠ g.prev (.elem t) := by
      rintro rfl
      exact hp (h.owner_unique hx hprevL)
    have hxn : x ≠ g.next (.elem t) := by
      rintro rfl
      exact hp (h.owner_unique hx (h.next_mem hL))
    exact ⟨by rw [h.remove_next hL, if_neg hxp], by rw [remove_prev, if_neg hxn]⟩
  · have hold : ∀ k u, u ∈ update L q (l ++ r) k → u ∈ L k := by
      intro k u hk
      by_cases hkq : k = q
      · subst hkq
        rw [update_self] at hk
        exact hsub u hk
      · rwa [update_of_ne hkq] at hk
    intro p p' u hu hu'
    exact h.disjoint p p' u (hold p u hu) (hold p' u hu')

end Remove

section Append

/-- The pointers after `append` of a queue that is not empty. -/
theorem append_links (h : Queues g L) (hne : q ≠ q') {u : τ} {r : List τ} (hL : L q' = u :: r) :
    (∀ x, (g.append (.head q) (.head q')).next x =
      if x = .head q' then .head q' else if x = g.prev (.head q') then .head q
      else if x = g.prev (.head q) then .elem u else g.next x) ∧
    ∀ x, (g.append (.head q) (.head q')).prev x =
      if x = .head q' then .head q' else if x = .head q then g.prev (.head q')
      else if x = .elem u then g.prev (.head q) else g.prev x := by
  have hnext : g.next (.head q') = .elem u := by
    rw [h.next_head q', hL]
    rfl
  have hlast : (.head q' : Node κ τ) ≠ g.prev (.head q) := by
    intro e
    have hmem := h.last_mem q
    rw [← e] at hmem
    exact hne (head_mem_nodes.1 hmem).symm
  constructor
  · intro x
    simp [Links.append, Links.init, hnext, hlast]
  · intro x
    simp [Links.append, Links.init, hnext, hlast]

theorem append_ring (h : Queues g L) (hne : q ≠ q') {u : τ} {r : List τ} (hL : L q' = u :: r) :
    Seg (g.append (.head q) (.head q')) (.head q) ((L q ++ L q').map .elem) (.head q) := by
  obtain ⟨hnext, hprev⟩ := h.append_links hne hL
  have hring' := h.ring q'
  rw [hL, map_cons] at hring'
  obtain ⟨-, -, hring'⟩ := hring'
  have hnodup' := h.nodup q'
  rw [hL] at hnodup'
  -- the last node of the second queue is an element of it
  have hlast' : g.prev (.head q') ∈ nodes L q' := h.last_mem q'
  have hfst : ∀ x ∈ nodes L q, x ≠ .head q' ∧ x ≠ g.prev (.head q') ∧ x ≠ .elem u := by
    intro x hx
    refine ⟨?_, ?_, ?_⟩
    · rintro rfl
      exact hne (head_mem_nodes.1 hx).symm
    · rintro rfl
      exact hne (h.owner_unique hx hlast')
    · rintro rfl
      have hu : u ∈ L q' := by simp [hL]
      exact hne (h.disjoint q q' u (elem_mem_nodes.1 hx) hu)
  have hsnd : ∀ v ∈ L q', (.elem v : Node κ τ) ≠ g.prev (.head q) := by
    intro v hv e
    have hmem := h.last_mem q
    rw [← e] at hmem
    exact hne (h.disjoint q q' v (elem_mem_nodes.1 hmem) hv)
  rw [hL, map_append, map_cons, seg_append]
  constructor
  · obtain ⟨hl, hl', -⟩ := hfst _ (h.last_mem q)
    refine (h.ring q).retarget (nodes_nodup (h.nodup q)) ?_ ?_ ?_ ?_
    · rw [hnext, if_neg hl, if_neg hl', if_pos rfl]
    · simp [hprev]
    · intro x hx hxl
      obtain ⟨hx1, hx2, -⟩ := hfst x hx
      rw [hnext, if_neg hx1, if_neg hx2, if_neg hxl]
    · intro x hx
      obtain ⟨hx1, -, hx3⟩ := hfst x (mem_cons_of_mem _ hx)
      have hxq : x ≠ .head q := by
        rintro rfl
        simp at hx
      rw [hprev, if_neg hx1, if_neg hxq, if_neg hx3]
  · have hnd : (Node.elem u :: r.map .elem : List (Node κ τ)).Nodup := by
      have hmap := (nodes_nodup (L := L) (h.nodup q'))
      rw [nodes, hL, map_cons] at hmap
      exact (nodup_cons.1 hmap).2
    refine hring'.retarget hnd ?_ ?_ ?_ ?_
    · have hmem := hring'.prev_mem
      have hl : g.prev (.head q') ≠ .head q' := by
        intro e
        rw [e] at hmem
        simp at hmem
      rw [hnext, if_neg hl, if_pos rfl]
    · simp [hprev, hne]
    · intro x hx hxl
      rw [← map_cons] at hx
      obtain ⟨v, hv, rfl⟩ := mem_map.1 hx
      rw [hnext, if_neg (by simp), if_neg hxl, if_neg (hsnd v (hL ▸ hv))]
    · intro x hx
      obtain ⟨v, hv, rfl⟩ := mem_map.1 hx
      have hvu : v ≠ u := by
        rintro rfl
        exact (nodup_cons.1 hnodup').1 hv
      rw [hprev, if_neg (by simp), if_neg (by simp), if_neg (by simpa using hvu)]

theorem append (h : Queues g L) (hne : q ≠ q') :
    Queues (g.append (.head q) (.head q'))
      (update (update L q (L q ++ L q')) q' []) := by
  have hfst : update (update L q (L q ++ L q')) q' [] q = L q ++ L q' := by
    rw [update_of_ne hne, update_self]
  have hsnd : update (update L q (L q ++ L q')) q' [] q' = [] :=
    update_self _ _ _
  have hold : ∀ p, ¬ (p = q ∨ p = q') → update (update L q (L q ++ L q')) q' [] p = L p := by
    intro p hp
    rw [not_or] at hp
    rw [update_of_ne hp.2, update_of_ne hp.1]
  cases hL : L q' with
  | nil =>
    have hself : g.next (.head q') = .head q' := h.next_head_eq_self.2 hL
    have hg : g.append (.head q) (.head q') = g := if_pos hself
    have hL' : update (update L q (L q ++ [])) q' [] = L := by
      rw [append_nil, update_eq_self, ← hL, update_eq_self]
    rw [hg, hL']
    exact h
  | cons u r =>
    obtain ⟨hnext, hprev⟩ := h.append_links hne hL
    rw [← hL]
    refine h.change (fun p => p = q ∨ p = q') ?_ ?_ ?_
    · rintro p (rfl | rfl)
      · rw [hfst]
        refine ⟨h.append_ring hne hL, nodup_append.2 ⟨h.nodup p, h.nodup q', ?_⟩⟩
        intro a ha b hb e
        exact hne (h.disjoint p q' a ha (e ▸ hb))
      · rw [hsnd]
        refine ⟨⟨?_, ?_⟩, nodup_nil⟩
        · rw [hnext, if_pos rfl]
        · rw [hprev, if_pos rfl]
    · intro p hp
      refine ⟨hold p hp, ?_⟩
      rw [not_or] at hp
      intro x hx
      have hxq : x ∉ nodes L q := fun hm => hp.1 (h.owner_unique hx hm)
      have hxq' : x ∉ nodes L q' := fun hm => hp.2 (h.owner_unique hx hm)
      have hu : (.elem u : Node κ τ) ∈ nodes L q' := by simp [hL]
      have h1 : x ≠ .head q := fun e => hxq (e ▸ head_mem_nodes.2 rfl)
      have h2 : x ≠ .head q' := fun e => hxq' (e ▸ head_mem_nodes.2 rfl)
      have h3 : x ≠ g.prev (.head q) := fun e => hxq (e ▸ h.last_mem q)
      have h4 : x ≠ g.prev (.head q') := fun e => hxq' (e ▸ h.last_mem q')
      have h5 : x ≠ .elem u := fun e => hxq' (e ▸ hu)
      exact ⟨by rw [hnext, if_neg h2, if_neg h4, if_neg h3],
        by rw [hprev, if_neg h2, if_neg h1, if_neg h5]⟩
    · -- where each element was before
      have hsrc : ∀ p v, v ∈ update (update L q (L q ++ L q')) q' [] p →
          p ≠ q' ∧ (v ∈ L p ∨ p = q ∧ v ∈ L q') := by
        intro p v hv
        by_cases hpq' : p = q'
        · subst hpq'
          rw [hsnd] at hv
          exact absurd hv not_mem_nil
        · refine ⟨hpq', ?_⟩
          by_cases hpq : p = q
          · subst hpq
            rw [hfst] at hv
            rcases mem_append.1 hv with hv | hv
            · exact .inl hv
            · exact .inr ⟨rfl, hv⟩
          · rw [hold p (by simp [hpq, hpq'])] at hv
            exact .inl hv
      intro p p' v hv hv'
      obtain ⟨hp, hold⟩ := hsrc p v hv
      obtain ⟨hp', hold'⟩ := hsrc p' v hv'
      rcases hold with hw | ⟨hpq, hw⟩
      · rcases hold' with hw' | ⟨-, hw'⟩
        · exact h.disjoint p p' v hw hw'
        · exact absurd (h.disjoint p q' v hw hw') hp
      · rcases hold' with hw' | ⟨hpq', -⟩
        · exact absurd (h.disjoint p' q' v hw' hw) hp'
        · rw [hpq, hpq']

end Append

/-! ## Membership -/

/-- An element stands somewhere in its queue. -/
theorem remove_mem (h : Queues g L) (ht : t ∈ L q) :
    ∃ L', Queues (g.remove (.elem t)) L' ∧ ∀ p u, u ∈ L' p ↔ u ∈ L p ∧ u ≠ t := by
  obtain ⟨l, r, hL⟩ := append_of_mem ht
  refine ⟨_, h.remove hL, ?_⟩
  have hnodup := h.nodup q
  rw [hL] at hnodup
  have htlr : t ∉ l ++ r := (nodup_cons.1 (nodup_middle.1 hnodup)).1
  intro p u
  by_cases hpq : p = q
  · subst hpq
    rw [update_self, hL]
    constructor
    · intro hu
      refine ⟨((List.Sublist.refl l).append (sublist_cons_self t r)).subset hu, ?_⟩
      rintro rfl
      exact htlr hu
    · rintro ⟨hu, hut⟩
      simpa [hut] using hu
  · rw [update_of_ne hpq]
    constructor
    · intro hu
      refine ⟨hu, ?_⟩
      rintro rfl
      exact hpq (h.disjoint p q u hu ht)
    · exact And.left

theorem insert_mem (h : Queues g L) (hfresh : ∀ q', t ∉ L q') (q : κ) :
    ∃ L', Queues (g.insert (.elem t) (.head q)) L' ∧
      ∀ p u, u ∈ L' p ↔ u ∈ L p ∨ p = q ∧ u = t := by
  refine ⟨_, h.insert hfresh q, ?_⟩
  intro p u
  by_cases hpq : p = q
  · subst hpq
    simp [update_self]
  · rw [update_of_ne hpq]
    simp [hpq]

theorem append_mem (h : Queues g L) (hne : q ≠ q') :
    ∃ L', Queues (g.append (.head q) (.head q')) L' ∧
      ∀ p u, u ∈ L' p ↔ p ≠ q' ∧ (u ∈ L p ∨ p = q ∧ u ∈ L q') := by
  refine ⟨_, h.append hne, ?_⟩
  intro p u
  by_cases hpq' : p = q'
  · subst hpq'
    simp [update_self]
  · rw [update_of_ne hpq']
    by_cases hpq : p = q
    · subst hpq
      simp [update_self, hpq']
    · rw [update_of_ne hpq]
      simp [hpq, hpq']

end Queues

end Queues

end OpenBsd.Lib
