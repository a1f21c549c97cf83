/-
  OpenBsd.Kern.UipcSocket2Safe

  What holds of a socket buffer after every call: the counters are the sums over its mbufs
  and `sb_lastrecord` is its last record.  `sb_mbtail` is not kept up to date by every call,
  and `KeepsTail` says which calls do.  With it goes what a call does to the bytes.
-/

import OpenBsd.Kern.UipcSocket2Rep

namespace OpenBsd.Kern

open OpenBsd.Lib List Function Option

/-! ## Records -/

section Rep

variable {α : Type}

/-- The mbufs of a list of records; a record is its first mbuf and those behind it. -/
def mbufs (rs : List (α × List α)) : List α := rs.flatMap fun r => r.1 :: r.2

/-- The last mbuf of the last record. -/
def tailOf (rs : List (α × List α)) : Option α := rs.getLast?.map fun r => r.2.getLastD r.1

/-- The records of a buffer: the bytes and marks of each. -/
def contents (h : MbufHeap α) (rs : List (α × List α)) : List (List UInt8 × Finset Nat) :=
  rs.map fun r => (bytesOf h (r.1 :: r.2), marksOf h (r.1 :: r.2))

/-- The record of a chain, if anything stays of it. -/
def newContents (bytes : List UInt8) (eor : Bool) : List (List UInt8 × Finset Nat) :=
  if bytes = [] ∧ eor = false then [] else [(bytes, endMark bytes eor)]

/-- Bytes for the last record, or for a new one when the last has a mark. -/
def appendTo (recs : List (List UInt8 × Finset Nat)) (bytes : List UInt8) (eor : Bool) :
    List (List UInt8 × Finset Nat) :=
  match recs.getLast? with
  | none => newContents bytes eor
  | some r =>
    if r.2 = ∅ then recs.dropLast ++ [(r.1 ++ bytes, endMark (r.1 ++ bytes) eor)]
    else recs ++ [(bytes, endMark bytes eor)]

@[simp] theorem mbufs_nil : mbufs ([] : List (α × List α)) = [] := rfl

@[simp] theorem mbufs_cons (r : α × List α) (rs : List (α × List α)) :
    mbufs (r :: rs) = r.1 :: (r.2 ++ mbufs rs) := by
  simp [mbufs]

@[simp] theorem mbufs_append (rs rs' : List (α × List α)) :
    mbufs (rs ++ rs') = mbufs rs ++ mbufs rs' := by
  simp [mbufs]

theorem mem_mbufs_of_mem {rs : List (α × List α)} {r : α × List α} (hr : r ∈ rs) :
    ∀ x ∈ r.1 :: r.2, x ∈ mbufs rs :=
  fun _ hx => mem_flatMap.2 ⟨r, hr, hx⟩

theorem map_fst_subset_mbufs {rs : List (α × List α)} : ∀ x ∈ rs.map Prod.fst, x ∈ mbufs rs := by
  intro x hx
  obtain ⟨r, hr, rfl⟩ := List.mem_map.1 hx
  exact mem_mbufs_of_mem hr _ mem_cons_self

theorem map_fst_sublist_mbufs (rs : List (α × List α)) : (rs.map Prod.fst).Sublist (mbufs rs) := by
  induction rs with
  | nil => exact List.Sublist.slnil
  | cons r rs ih =>
    rw [mbufs_cons, map_cons]
    exact (ih.trans (sublist_append_right r.2 _)).cons_cons r.1

theorem inner_not_mem_map_fst {rs : List (α × List α)} (hn : (mbufs rs).Nodup) {r : α × List α}
    (hr : r ∈ rs) {x : α} (hx : x ∈ r.2) : x ∉ rs.map Prod.fst := by
  induction rs with
  | nil => simp at hr
  | cons s rs ih =>
    rw [mbufs_cons, nodup_cons, nodup_append] at hn
    obtain ⟨hs, -, hrs, hdisj⟩ := hn
    rw [map_cons, mem_cons, not_or]
    rcases mem_cons.1 hr with rfl | hr
    · refine ⟨?_, fun hmem => hdisj x hx x (map_fst_subset_mbufs x hmem) rfl⟩
      rintro rfl
      exact hs (mem_append_left _ hx)
    · refine ⟨?_, ih hrs hr⟩
      rintro rfl
      exact hs (mem_append_right _ (mem_mbufs_of_mem hr _ (mem_cons_of_mem _ hx)))

theorem contents_append (h : MbufHeap α) (rs rs' : List (α × List α)) :
    contents h (rs ++ rs') = contents h rs ++ contents h rs' :=
  map_append

theorem contents_congr {h h' : MbufHeap α} {rs : List (α × List α)}
    (heq : ∀ x ∈ mbufs rs, (h'.mbuf x).data = (h.mbuf x).data ∧
    (h'.mbuf x).eor = (h.mbuf x).eor) : contents h' rs = contents h rs := by
  refine map_congr_left fun r hr => ?_
  have hmem := mem_mbufs_of_mem hr
  rw [bytesOf_congr fun x hx => (heq x (hmem x hx)).1, marksOf_congr fun x hx => heq x (hmem x hx)]

/-- The buffer holds these records. -/
structure SbRep (h : MbufHeap α) (sb : Sockbuf α) (rs : List (α × List α)) : Prop where
  heads : LinkedList h.nextpkt sb.mb (rs.map Prod.fst)
  chain : ∀ r ∈ rs, LinkedList h.next (h.next r.1) r.2
  inner : ∀ r ∈ rs, ∀ x ∈ r.2, h.nextpkt x = none
  nodup : (mbufs rs).Nodup
  live : ∀ x ∈ mbufs rs, x ∈ h.live
  count : ∀ c, sb.count c = BitVec.ofNat 64 (weights h c (mbufs rs))
  last : sb.lastrecord = (rs.map Prod.fst).getLast?

variable {h h' : MbufHeap α} {sb sb' : Sockbuf α} {rs pre post : List (α × List α)} {a a₀ m : α}
  {l ms links : List α}

theorem SbRep.frame (hr : SbRep h sb rs) (hnext : ∀ x ∈ mbufs rs, h'.next x = h.next x)
    (hpkt : ∀ x ∈ mbufs rs, h'.nextpkt x = h.nextpkt x)
    (hmbuf : ∀ x ∈ mbufs rs, h'.mbuf x = h.mbuf x) (hlive : ∀ x ∈ h.live, x ∈ h'.live) :
    SbRep h' sb rs where
  heads := hr.heads.congr fun x hx => hpkt x (map_fst_subset_mbufs x hx)
  chain := by
    intro r hrs
    have hmem := mem_mbufs_of_mem hrs
    rw [hnext r.1 (hmem _ mem_cons_self)]
    exact (hr.chain r hrs).congr fun x hx => hnext x (hmem x (mem_cons_of_mem _ hx))
  inner := by
    intro r hrs x hx
    rw [hpkt x (mem_mbufs_of_mem hrs x (mem_cons_of_mem _ hx))]
    exact hr.inner r hrs x hx
  nodup := hr.nodup
  live := fun x hx => hlive x (hr.live x hx)
  count := by
    intro c
    rw [hr.count c, weights_congr fun x hx => by rw [hmbuf x hx]]
  last := hr.last

theorem SbRep.setTail (hr : SbRep h sb rs) (t : Option α) : SbRep h { sb with mbtail := t } rs :=
  { hr with
    count := by
      intro c
      have hc := hr.count c
      cases c <;> exact hc }

theorem SbRep.last_mem (hr : SbRep h sb rs) {x : α} (hx : sb.lastrecord = some x) :
    x ∈ mbufs rs := by
  rw [hr.last] at hx
  exact map_fst_subset_mbufs x (mem_of_getLast? hx)

/-- A chain from outside is compressed behind the last mbuf of a record. -/
theorem SbRep.compressed (hr : SbRep h sb (pre ++ (a₀, l) :: post))
    (hc : Compressed h sb a ms h' sb' links) (ha : ∃ l₀, a₀ :: l = l₀ ++ [a])
    (hfresh : ∀ x ∈ ms, x ∉ mbufs (pre ++ (a₀, l) :: post)) (hms : ms.Nodup)
    (hlive : ∀ x ∈ ms, x ∈ h.live) (hpkt : ∀ x ∈ ms, h.nextpkt x = none) :
    SbRep h' sb' (pre ++ (a₀, l ++ links) :: post) := by
  classical
  obtain ⟨l₀, hl₀⟩ := ha
  have hold : mbufs (pre ++ (a₀, l) :: post) = (mbufs pre ++ l₀) ++ a :: mbufs post := by
    rw [mbufs_append, mbufs_cons, ← cons_append, hl₀]
    simp
  have hnew : mbufs (pre ++ (a₀, l ++ links) :: post) =
      (mbufs pre ++ l₀) ++ a :: (links ++ mbufs post) := by
    rw [mbufs_append, mbufs_cons, ← cons_append, ← cons_append, hl₀]
    simp
  have hnodup := hr.nodup
  rw [hold] at hnodup
  -- the mbuf `a` occurs once, and none of the chain is in the buffer
  have hne : ∀ x ∈ (mbufs pre ++ l₀) ++ mbufs post, x ≠ a := by
    rintro x hx rfl
    have := hnodup.perm perm_middle
    exact (nodup_cons.1 this).1 hx
  have hout : ∀ x ∈ (mbufs pre ++ l₀) ++ a :: mbufs post, x ∉ ms := by
    intro x hx hxms
    exact hfresh x hxms (hold ▸ hx)
  have hsame : ∀ x ∈ (mbufs pre ++ l₀) ++ mbufs post, x ≠ a ∧ x ∉ ms := by
    intro x hx
    refine ⟨hne x hx, hout x ?_⟩
    rcases mem_append.1 hx with hx | hx
    · exact mem_append_left _ hx
    · exact mem_append_right _ (mem_cons_of_mem a hx)
  have hother : ∀ r ∈ pre ++ post, ∀ x ∈ r.1 :: r.2, x ≠ a ∧ x ∉ ms := by
    intro r hrs x hx
    refine hsame x ?_
    rcases mem_append.1 hrs with hrs | hrs
    · exact mem_append_left _ (mem_append_left _ (mem_mbufs_of_mem hrs x hx))
    · exact mem_append_right _ (mem_mbufs_of_mem hrs x hx)
  have hmiddle : LinkedList h'.next (some a₀) (a₀ :: (l ++ links)) := by
    have hfrom : LinkedList h.next (some a₀) (l₀ ++ a :: []) := by
      rw [← hl₀]
      exact ⟨rfl, hr.chain (a₀, l) (by simp)⟩
    rw [← cons_append, hl₀, append_assoc]
    refine hfrom.relink (fun x hx => ?_) hc.linked
    have := hsame x (mem_append_left _ (mem_append_right _ hx))
    exact hc.next_eq x this.1 this.2
  have hmem : ∀ r ∈ pre ++ (a₀, l ++ links) :: post, r ∈ pre ++ post ∨ r = (a₀, l ++ links) := by
    intro r hrs
    rcases mem_append.1 hrs with hrs | hrs
    · exact .inl (mem_append_left _ hrs)
    · rcases mem_cons.1 hrs with hrs | hrs
      · exact .inr hrs
      · exact .inl (mem_append_right _ hrs)
  have hback : ∀ r ∈ pre ++ post, r ∈ pre ++ (a₀, l) :: post := by
    intro r hrs
    rcases mem_append.1 hrs with hrs | hrs
    · exact mem_append_left _ hrs
    · exact mem_append_right _ (mem_cons_of_mem _ hrs)
  refine ⟨?_, ?_, ?_, ?_, ?_, ?_, ?_⟩
  · rw [hc.nextpkt_eq, hc.mb]
    simpa using hr.heads
  · intro r hrs
    rcases hmem r hrs with hrs | rfl
    · have hout' := hother r hrs
      rw [hc.next_eq r.1 (hout' _ mem_cons_self).1 (hout' _ mem_cons_self).2]
      refine (hr.chain r (hback r hrs)).congr fun x hx => ?_
      have := hout' x (mem_cons_of_mem _ hx)
      exact hc.next_eq x this.1 this.2
    · exact hmiddle.2
  · intro r hrs x hx
    rw [hc.nextpkt_eq]
    rcases hmem r hrs with hrs | rfl
    · exact hr.inner r (hback r hrs) x hx
    · rcases mem_append.1 hx with hx | hx
      · exact hr.inner (a₀, l) (by simp) x hx
      · exact hpkt x (hc.sub.subset hx)
  · rw [hnew]
    have hperm : ((mbufs pre ++ l₀) ++ a :: (links ++ mbufs post)).Perm
        (links ++ ((mbufs pre ++ l₀) ++ a :: mbufs post)) := by
      refine perm_iff_count.2 fun x => ?_
      simp only [count_append, count_cons]
      omega
    refine (hperm.nodup_iff).2 (nodup_append.2 ⟨hms.sublist hc.sub, hnodup, ?_⟩)
    rintro x hx y hy rfl
    exact hout x hy (hc.sub.subset hx)
  · intro x hx
    rw [hnew] at hx
    rcases mem_append.1 hx with hx | hx
    · have hxold : x ∈ mbufs (pre ++ (a₀, l) :: post) := by
        rw [hold]
        exact mem_append_left _ hx
      exact hc.live x (hr.live x hxold) fun hxms => absurd hxold (hfresh x hxms)
    · by_cases hxl : x ∈ links
      · exact hc.live x (hlive x (hc.sub.subset hxl)) fun _ => hxl
      · have hxold : x ∈ mbufs (pre ++ (a₀, l) :: post) := by
          rw [hold]
          refine mem_append_right _ ?_
          rcases mem_cons.1 hx with rfl | hx
          · exact mem_cons_self
          · exact mem_cons_of_mem a ((mem_append.1 hx).resolve_left hxl)
        exact hc.live x (hr.live x hxold) fun hxms => absurd hxold (hfresh x hxms)
  · intro c
    have hsb := hr.count c
    have hcomp := hc.count c
    have hP : weights h' c (mbufs pre ++ l₀) = weights h c (mbufs pre ++ l₀) :=
      weights_congr fun x hx => by
        have := hsame x (mem_append_left _ hx)
        rw [hc.mbuf_eq x this.1 this.2]
    have hQ : weights h' c (mbufs post) = weights h c (mbufs post) :=
      weights_congr fun x hx => by
        have := hsame x (mem_append_right _ hx)
        rw [hc.mbuf_eq x this.1 this.2]
    rw [hold] at hsb
    rw [hnew]
    simp only [weights_append, weights_cons] at hP hsb hcomp ⊢
    rw [hP, hQ]
    rw [hsb] at hcomp
    simp only [BitVec.ofNat_add] at hcomp ⊢
    refine add_right_cancel (hcomp.trans ?_)
    ring
  · rw [hc.lastrecord, hr.last]
    simp

/-! ## New records -/

variable [DecidableEq α]

/-- A chain from outside is put between the records `pre` and `post`. -/
theorem SbRep.insert (hr : SbRep h sb (pre ++ post))
    (hfresh : ∀ x ∈ m :: l, x ∉ mbufs (pre ++ post)) (hnodup : (m :: l).Nodup)
    (hlive : ∀ x ∈ m :: l, x ∈ h.live) (hchain : LinkedList h.next (h.next m) l)
    (hinner : ∀ x ∈ l, h.nextpkt x = none)
    (hcount : ∀ c, sb'.count c = sb.count c + BitVec.ofNat 64 (weights h c (m :: l)))
    (hmb : sb'.mb = sb.mb)
    (hlast : sb'.lastrecord = if post = [] then some m else sb.lastrecord) :
    SbRep (setMp (h.setNextpkt m (post.map Prod.fst).head?) sb' (pre.map Prod.fst).getLast?
        (some m)).1
      (setMp (h.setNextpkt m (post.map Prod.fst).head?) sb' (pre.map Prod.fst).getLast?
        (some m)).2 (pre ++ (m, l) :: post) := by
  have hm : m ∉ mbufs (pre ++ post) := hfresh m mem_cons_self
  have hmheads : ∀ x ∈ (pre ++ post).map Prod.fst, x ≠ m := by
    rintro x hx rfl
    exact hm (map_fst_subset_mbufs x hx)
  have hpost : LinkedList (update h.nextpkt m (post.map Prod.fst).head?)
      (post.map Prod.fst).head? (post.map Prod.fst) := by
    have hheads := hr.heads
    have hfrom : LinkedList h.nextpkt (post.map Prod.fst).head? (post.map Prod.fst) := by
      rw [map_append] at hheads
      cases hpre : pre.map Prod.fst using List.reverseRecOn with
      | nil =>
        rw [hpre, nil_append] at hheads
        rwa [← hheads.eq_head?]
      | append_singleton l₀ b =>
        rw [hpre, append_assoc] at hheads
        have hafter : LinkedList h.nextpkt (h.nextpkt b) (post.map Prod.fst) := hheads.after
        rwa [← hafter.eq_head?]
    refine hfrom.congr fun x hx => update_of_ne (hmheads x ?_) _ _
    rw [map_append]
    exact mem_append_right _ hx
  -- the memory and buffer after `*mp = m`, in both cases
  have key : ∀ (h' : MbufHeap α) (sb'' : Sockbuf α), h'.next = h.next → h'.mbuf = h.mbuf →
      h'.live = h.live → (∀ x ∈ l, h'.nextpkt x = none) →
      (∀ r ∈ pre ++ post, ∀ x ∈ r.2, h'.nextpkt x = none) →
      LinkedList h'.nextpkt sb''.mb ((pre ++ (m, l) :: post).map Prod.fst) →
      sb''.count = sb'.count → sb''.lastrecord = sb'.lastrecord →
      SbRep h' sb'' (pre ++ (m, l) :: post) := by
    intro h' sb'' hn hb hv hl hi hheads hcnt hlst
    have hperm : (mbufs (pre ++ (m, l) :: post)).Perm ((m :: l) ++ mbufs (pre ++ post)) := by
      refine perm_iff_count.2 fun x => ?_
      simp only [mbufs_append, mbufs_cons, count_append, count_cons]
      omega
    have hmem : ∀ r ∈ pre ++ (m, l) :: post, r ∈ pre ++ post ∨ r = (m, l) := by
      intro r hrs
      simp only [mem_append, mem_cons] at hrs ⊢
      tauto
    refine ⟨hheads, ?_, ?_, ?_, ?_, ?_, ?_⟩
    · intro r hrs
      rw [hn]
      rcases hmem r hrs with hrs | rfl
      · exact hr.chain r hrs
      · exact hchain
    · intro r hrs x hx
      rcases hmem r hrs with hrs | rfl
      · exact hi r hrs x hx
      · exact hl x hx
    · refine hperm.nodup_iff.2 (nodup_append.2 ⟨hnodup, hr.nodup, ?_⟩)
      rintro x hx y hy rfl
      exact hfresh x hx hy
    · intro x hx
      rw [hv]
      rcases mem_append.1 (hperm.mem_iff.1 hx) with hx | hx
      · exact hlive x hx
      · exact hr.live x hx
    · intro c
      have hw : weights h' c (mbufs (pre ++ (m, l) :: post)) =
          weights h c ((m :: l) ++ mbufs (pre ++ post)) := by
        rw [weights, hb]
        exact (hperm.map _).sum_eq
      rw [hcnt, hcount c, hr.count c, hw, weights_append, BitVec.ofNat_add]
      ring
    · rw [hlst, hlast, hr.last]
      cases post with
      | nil => simp
      | cons r post => simp
  cases hpre : pre.map Prod.fst using List.reverseRecOn with
  | nil =>
    have hnil : pre = [] := by simpa using hpre
    subst hnil
    refine key _ _ rfl rfl rfl ?_ ?_ ?_ rfl rfl
    · intro x hx
      have hxm : x ≠ m := by
        rintro rfl
        exact (nodup_cons.1 hnodup).1 hx
      simp [setMp, hxm, hinner x hx]
    · intro r hrs x hx
      have hxm : x ≠ m := by
        rintro rfl
        exact hm (mem_mbufs_of_mem hrs x (mem_cons_of_mem _ hx))
      simp [setMp, hxm, hr.inner r hrs x hx]
    · refine ⟨rfl, ?_⟩
      simpa [setMp] using hpost
  | append_singleton l₀ b =>
    have hb : b ∈ (pre ++ post).map Prod.fst := by simp [hpre]
    have hbm : b ≠ m := hmheads b hb
    have hbmem : b ∈ mbufs (pre ++ post) := map_fst_subset_mbufs b hb
    have hmp : (l₀ ++ [b]).getLast? = some b := by simp
    rw [hmp]
    refine key _ _ rfl rfl rfl ?_ ?_ ?_ rfl rfl
    · intro x hx
      have hxm : x ≠ m := by
        rintro rfl
        exact (nodup_cons.1 hnodup).1 hx
      have hxb : x ≠ b := by
        rintro rfl
        exact hfresh x (mem_cons_of_mem m hx) hbmem
      simp [setMp, hxm, hxb, hinner x hx]
    · intro r hrs x hx
      have hxm : x ≠ m := by
        rintro rfl
        exact hm (mem_mbufs_of_mem hrs x (mem_cons_of_mem _ hx))
      have hxb : x ≠ b := by
        rintro rfl
        exact inner_not_mem_map_fst hr.nodup hrs hx hb
      simp [setMp, hxm, hxb, hr.inner r hrs x hx]
    · have hheads : LinkedList h.nextpkt sb.mb (l₀ ++ b :: post.map Prod.fst) := by
        have := hr.heads
        rw [map_append, hpre, append_assoc] at this
        exact this
      have hbl : b ∉ l₀ := by
        have := (hr.nodup.sublist (map_fst_sublist_mbufs (pre ++ post)))
        rw [map_append, hpre, append_assoc] at this
        exact fun hmem => (nodup_append.1 this).2.2 b hmem b mem_cons_self rfl
      rw [map_append, map_cons, hpre, append_assoc]
      change LinkedList (update (update h.nextpkt m _) b (some m)) sb'.mb
        (l₀ ++ b :: m :: post.map Prod.fst)
      rw [hmb]
      refine hheads.relink (fun x hx => ?_) ?_
      · have hxb : x ≠ b := by
          rintro rfl
          exact hbl hx
        have hxm : x ≠ m := hmheads x (by simp [hpre, hx])
        simp [hxb, hxm]
      · rw [update_self]
        refine ⟨rfl, ?_⟩
        rw [update_of_ne hbm.symm, update_self]
        refine hpost.congr fun x hx => update_of_ne ?_ _ _
        rintro rfl
        have := (hr.nodup.sublist (map_fst_sublist_mbufs (pre ++ post)))
        rw [map_append, hpre] at this
        exact (nodup_append.1 this).2.2 x (by simp) x hx rfl

/-! ## Chains from outside -/

/-- A chain of mbufs that are in use, but not in these records. -/
structure FreshChain (h : MbufHeap α) (rs : List (α × List α)) (p : Option α) (ms : List α) :
    Prop where
  linked : LinkedList h.next p ms
  nodup : ms.Nodup
  live : ∀ x ∈ ms, x ∈ h.live
  out : ∀ x ∈ ms, x ∉ mbufs rs
  pkt : ∀ x ∈ ms, h.nextpkt x = none

section

variable {mp p : Option α}

@[simp] theorem setMp_next : (setMp h sb mp p).1.next = h.next := by
  cases mp <;> rfl

@[simp] theorem setMp_mbuf : (setMp h sb mp p).1.mbuf = h.mbuf := by
  cases mp <;> rfl

@[simp] theorem setMp_live : (setMp h sb mp p).1.live = h.live := by
  cases mp <;> rfl

@[simp] theorem setMp_refs : (setMp h sb mp p).1.refs = h.refs := by
  cases mp <;> rfl

@[simp] theorem setMp_lastrecord : (setMp h sb mp p).2.lastrecord = sb.lastrecord := by
  cases mp <;> rfl

@[simp] theorem setMp_mbtail : (setMp h sb mp p).2.mbtail = sb.mbtail := by
  cases mp <;> rfl

theorem setMp_nextpkt_of_ne {x : α} (hx : mp ≠ some x) :
    (setMp h sb mp p).1.nextpkt x = h.nextpkt x := by
  cases mp with
  | none => rfl
  | some b =>
    have hne : x ≠ b := by
      rintro rfl
      exact hx rfl
    simp [setMp, hne]

end

/-- A chain from outside becomes a record between `pre` and `post`. -/
theorem SbRep.newRecord (hr : SbRep h sb (pre ++ post))
    (hf : FreshChain h (pre ++ post) (some a) (a :: ms))
    (hcount : ∀ c, sb'.count c = sb.count c + BitVec.ofNat 64 ((h.mbuf a).weight c))
    (hmb : sb'.mb = sb.mb)
    (hlast : sb'.lastrecord = if post = [] then some a else sb.lastrecord) :
    ∃ h₂ sb₂ links, compressRest
        (setMp (h.setNextpkt a (post.map Prod.fst).head?) sb' (pre.map Prod.fst).getLast?
          (some a)).1
        (setMp (h.setNextpkt a (post.map Prod.fst).head?) sb' (pre.map Prod.fst).getLast?
          (some a)).2 a = some (h₂, sb₂) ∧
      SbRep h₂ sb₂ (pre ++ (a, links) :: post) ∧ sb₂.mbtail = links.getLast?.or sb'.mbtail ∧
      contents h₂ (pre ++ (a, links) :: post) = contents h pre
        ++ (bytesOf h (a :: ms), endMark (bytesOf h (a :: ms)) (anyEor h (a :: ms)))
          :: contents h post ∧
      (links = [] ↔ becomesOne h.refs (h.mbuf a) (ms.map h.mbuf) = true) := by
  have hao : a ∉ mbufs (pre ++ post) := hf.out a mem_cons_self
  have hrest : ∀ x ∈ ms, x ∈ h.live := fun x hx => hf.live x (mem_cons_of_mem a hx)
  -- the record with its first mbuf only
  have hr₀ : SbRep (h.setNext a none) sb (pre ++ post) := by
    refine hr.frame (fun x hx => ?_) (fun _ _ => rfl) (fun _ _ => rfl) (fun _ hx => hx)
    have hxa : x ≠ a := by
      rintro rfl
      exact hao hx
    simp [hxa]
  have hone := hr₀.insert (m := a) (l := [])
    (by simpa using hao) (nodup_singleton a)
    (by simpa using hf.live a mem_cons_self) (by simp [LinkedList]) (by simp)
    (fun c => by simpa using hcount c) hmb hlast
  generalize hmp : (pre.map Prod.fst).getLast? = mp at hone ⊢
  generalize hp : (post.map Prod.fst).head? = p at hone ⊢
  have hlastms : ∀ x ∈ ms, (setMp (h.setNextpkt a p) sb' mp (some a)).2.lastrecord ≠ some x := by
    intro x hx e
    rw [setMp_lastrecord, hlast] at e
    split at e
    · exact (nodup_cons.1 hf.nodup).1 (Option.some.inj e ▸ hx)
    · exact hf.out x (mem_cons_of_mem a hx) (hr.last_mem e)
  obtain ⟨h₂, sb₂, links, hrun, hcomp, hbytes, hmarks, hbec⟩ :=
    compressRest_spec (h := (setMp (h.setNextpkt a p) sb' mp (some a)).1)
      (by simpa using hf.linked.2) hf.nodup (by simpa using hrest) hlastms
  have hswap : (setMp (h.setNextpkt a p) sb' mp (some a)).1.setNext a none =
      (setMp ((h.setNext a none).setNextpkt a p) sb' mp (some a)).1 := by
    cases mp <;> rfl
  have hsame : (setMp (h.setNextpkt a p) sb' mp (some a)).2 =
      (setMp ((h.setNext a none).setNextpkt a p) sb' mp (some a)).2 := by
    cases mp <;> rfl
  rw [hswap] at hcomp
  rw [hsame] at hcomp
  refine ⟨h₂, sb₂, links, hrun, ?_, ?_, ?_, by simpa using hbec⟩
  · have hdone := hone.compressed hcomp ⟨[], rfl⟩ ?_ (nodup_cons.1 hf.nodup).2
      (by simpa using hrest) ?_
    · simpa using hdone
    · intro x hx
      have hxa : x ≠ a := by
        rintro rfl
        exact (nodup_cons.1 hf.nodup).1 hx
      have hxo := hf.out x (mem_cons_of_mem a hx)
      simp only [mbufs_append, mbufs_cons, mem_append, mem_cons, nil_append] at hxo ⊢
      tauto
    · intro x hx
      have hxa : x ≠ a := by
        rintro rfl
        exact (nodup_cons.1 hf.nodup).1 hx
      have hxmp : mp ≠ some x := by
        intro e
        rw [← hmp] at e
        refine hf.out x (mem_cons_of_mem a hx) ?_
        rw [mbufs_append]
        exact mem_append_left _ (map_fst_subset_mbufs x (mem_of_getLast? e))
      rw [setMp_nextpkt_of_ne hxmp]
      simp [hxa, hf.pkt x (mem_cons_of_mem a hx)]
  · simpa using hcomp.mbtail
  · have hkept : ∀ x ∈ mbufs (pre ++ post), h₂.mbuf x = h.mbuf x := by
      intro x hx
      have hxa : x ≠ a := ne_of_mem_of_not_mem hx hao
      rw [hcomp.mbuf_eq x hxa fun hxm => hf.out x (mem_cons_of_mem a hxm) hx]
      simp
    have hb : bytesOf (setMp (h.setNextpkt a p) sb' mp (some a)).1 (a :: ms) = bytesOf h (a :: ms) :=
      bytesOf_congr fun x _ => by simp
    have he : anyEor (setMp (h.setNextpkt a p) sb' mp (some a)).1 (a :: ms) = anyEor h (a :: ms) :=
      anyEor_congr fun x _ => by simp
    rw [hb] at hbytes
    rw [hb, he] at hmarks
    have hsame : contents h₂ (pre ++ post) = contents h (pre ++ post) := contents_congr fun x hx => by
      rw [hkept x hx]
      exact ⟨rfl, rfl⟩
    rw [contents_append, contents_append] at hsame
    obtain ⟨hpre, hpost⟩ := append_inj hsame (by simp [contents])
    rw [contents_append, hpre, ← hpost, ← hmarks, ← hbytes]
    rfl

/-! ## sbappendrecord and sbappend -/

theorem sblinkrecord_eq (hr : SbRep h sb rs) (hpkt : h.nextpkt a = none)
    (hlast : sb'.lastrecord = sb.lastrecord) :
    sblinkrecord h sb' a =
      setMp (h.setNextpkt a none) { sb' with lastrecord := some a } (rs.map Prod.fst).getLast?
        (some a) := by
  have hself : h.setNextpkt a none = h := by
    rw [MbufHeap.setNextpkt, ← hpkt, update_eq_self]
  rw [hself, sblinkrecord, hlast, hr.last]
  cases (rs.map Prod.fst).getLast? <;> rfl

theorem sbappendrecord_spec (hr : SbRep h sb rs) (hf : FreshChain h rs (some a) (a :: ms)) :
    ∃ h₂ sb₂ links, sbappendrecord h sb (some a) = some (h₂, sb₂) ∧
      SbRep h₂ sb₂ (rs ++ [(a, links)]) ∧ sb₂.mbtail = links.getLast?.or sb.mbtail ∧
      contents h₂ (rs ++ [(a, links)]) = contents h rs
        ++ [(bytesOf h (a :: ms), endMark (bytesOf h (a :: ms)) (anyEor h (a :: ms)))] ∧
      (links = [] ↔ becomesOne h.refs (h.mbuf a) (ms.map h.mbuf) = true) := by
  have hr' : SbRep h sb (rs ++ []) := by simpa using hr
  have hf' : FreshChain h (rs ++ []) (some a) (a :: ms) := by simpa using hf
  have hcount : ∀ c, ({ sballoc sb (h.mbuf a) with lastrecord := some a } : Sockbuf α).count c =
      sb.count c + BitVec.ofNat 64 ((h.mbuf a).weight c) := by
    intro c
    rw [← count_sballoc]
    cases c <;> rfl
  obtain ⟨h₂, sb₂, links, hrun, hdone⟩ := hr'.newRecord hf' hcount rfl rfl
  refine ⟨h₂, sb₂, links, ?_, hdone⟩
  simp only [sbappendrecord, sblinkrecord_eq hr (hf.pkt a mem_cons_self)
    (rfl : (sballoc sb (h.mbuf a)).lastrecord = sb.lastrecord)]
  exact hrun

omit [DecidableEq α] in
theorem SbRep.empty (hmb : sb.mb = none) (hlast : sb.lastrecord = none)
    (hzero : ∀ c, sb.count c = 0) : SbRep h sb [] where
  heads := hmb
  chain := by simp
  inner := by simp
  nodup := nodup_nil
  live := by simp
  count := by simpa using hzero
  last := hlast

theorem SbRep.setEor (hr : SbRep h sb rs) (b : α) (e : Bool) : SbRep (h.setEor b e) sb rs :=
  { hr with
    count := by
      intro c
      rw [hr.count c, weights_congr fun x _ => ?_]
      by_cases hxb : x = b
      · subst hxb
        simp
      · simp [hxb] }

/-- Setting the flag `M_EOR` that the loop has carried along. -/
def MbufHeap.setEorOf (h : MbufHeap α) (n : Option α) (eor : Bool) : MbufHeap α :=
  match n with
  | some n => if eor then h.setEor n true else h
  | none => h

variable {fuel : Nat}

/-- The loop of `sbcompress` on an empty buffer, whose `sb_lastrecord` is the chain. -/
theorem sbcompressLoop_empty {p : Option α} (eor : Bool) (hfuel : ms.length < fuel)
    (hf : FreshChain h [] p ms) (hlast : sb.lastrecord = p) (hmb : sb.mb = none)
    (hzero : ∀ c, sb.count c = 0) (hcarry : eor = true → ms ≠ []) :
    ∃ h₂ sb₂ n eor₂ rs₂, sbcompressLoop fuel h sb p none eor = some (h₂, sb₂, n, eor₂) ∧
      SbRep h₂ sb₂ rs₂ ∧ (sb.mbtail = none → sb₂.mbtail = tailOf rs₂) ∧
      contents (h₂.setEorOf n eor₂) rs₂ = newContents (bytesOf h ms) (eor || anyEor h ms) := by
  -- empty mbufs at the front go until the first one stays
  induction ms generalizing fuel h sb p eor with
  | nil =>
    obtain ⟨fuel, rfl⟩ := Nat.exists_eq_add_one.2 hfuel
    have hp : p = none := hf.linked
    have hfalse : eor = false := Bool.eq_false_iff.2 fun he => hcarry he rfl
    subst hp hfalse
    exact ⟨h, sb, none, false, [], rfl, .empty hmb hlast hzero, id, rfl⟩
  | cons x ms ih =>
    obtain ⟨fuel, rfl⟩ := Nat.exists_eq_add_one.2 (Nat.zero_lt_of_lt hfuel)
    obtain ⟨rfl, hms⟩ := hf.linked
    have hlen : ms.length < fuel := by simpa using hfuel
    obtain ⟨hx, hnodup⟩ := nodup_cons.1 hf.nodup
    have hrest : ∀ y ∈ ms, y ∈ x :: ms := fun y hy => mem_cons_of_mem x hy
    have hne : ∀ y ∈ ms, y ≠ x := fun y hy => ne_of_mem_of_not_mem hy hx
    simp only [sbcompressLoop, or_none, filter_none]
    by_cases hdis : discards (eor || (h.mbuf x).eor) (h.mbuf x) ((h.next x).map h.mbuf) = true
    · -- discarded, without bytes
      have hempty : (h.mbuf x).data = [] := by
        simp only [discards, Bool.and_eq_true, beq_iff_eq] at hdis
        exact eq_nil_of_length_eq_zero hdis.1
      have hmore : (eor || (h.mbuf x).eor) = true → ms ≠ [] := by
        rintro he rfl
        have hnone : h.next x = none := hms
        simp [discards, he, hnone] at hdis
      have hfresh : FreshChain (mFree h x).1 [] (h.next x) ms := by
        refine ⟨by simpa using hms, hnodup, ?_, by simp, ?_⟩
        · intro y hy
          rw [mFree_live]
          exact (mem_erase_of_ne (hne y hy)).2 (hf.live y (hrest y hy))
        · intro y hy
          rw [mFree_nextpkt]
          exact hf.pkt y (hrest y hy)
      rw [if_pos hdis]
      obtain ⟨h₂, sb₂, n, eor₂, rs₂, hrun, hrep, htail, hcont⟩ :=
        @ih (mFree h x).1 (sb.skipLast x (h.next x)) fuel (h.next x) _ hlen hfresh
          (by simp [Sockbuf.skipLast, hlast]) hmb hzero hmore
      refine ⟨h₂, sb₂, n, eor₂, rs₂, hrun, hrep, htail, ?_⟩
      rw [hcont, bytesOf_mFree, anyEor_congr fun y _ => mFree_eor h x y, bytesOf_cons, hempty,
        nil_append, anyEor_cons, Bool.or_assoc]
    · -- the first mbuf that stays
      rw [if_neg hdis]
      have hone : SbRep ((linkMbuf h sb x none).1.setNext x none) (linkMbuf h sb x none).2
          ([] ++ (x, []) :: []) := by
        refine ⟨⟨rfl, hf.pkt x mem_cons_self⟩, ?_, by simp, by simp, ?_, ?_, ?_⟩
        · simp [LinkedList]
        · simpa [linkMbuf] using hf.live x mem_cons_self
        · intro c
          have hc : (linkMbuf h sb x none).2.count c =
              sb.count c + BitVec.ofNat 64 ((h.mbuf x).weight c) := by
            cases c
            · rfl
            · exact count_sballoc (c := .datacc) _
            · exact count_sballoc (c := .mbcnt) _
          rw [hc, hzero c]
          simp [linkMbuf]
        · exact hlast
      have hchain : LinkedList ((linkMbuf h sb x none).1.setNext x none).next (h.next x) ms :=
        hms.congr fun y hy => by simp [linkMbuf, hne y hy]
      have hlastms : ∀ y ∈ ms, (linkMbuf h sb x none).2.lastrecord ≠ some y := by
        intro y hy e
        have hxy : some x = some y := hlast.symm.trans e
        exact hne y hy (Option.some.inj hxy).symm
      obtain ⟨h₂, sb₂, n, eor₂, links, hrun, hcomp, hab, -⟩ :=
        sbcompressLoop_spec (eor || (h.mbuf x).eor) hlen hchain (by simp) hf.nodup hlastms
      obtain rfl : n = some (links.getLastD x) := hab.last
      refine ⟨h₂, sb₂, _, eor₂, [(x, links)], hrun, ?_, fun _ => ?_, ?_⟩
      · refine hone.compressed hcomp ⟨[], rfl⟩ ?_ hnodup ?_ ?_
        · intro y hy
          simpa using hne y hy
        · exact fun y hy => hf.live y (hrest y hy)
        · exact fun y hy => hf.pkt y (hrest y hy)
      · rw [hcomp.mbtail]
        cases links using List.reverseRecOn <;> simp [linkMbuf, sballoc, tailOf]
      · have hbytes := hab.bytes_setEor
        have hmarks := hab.marks (hf.nodup.sublist (hcomp.sub.cons_cons x))
        have hfirst : ((linkMbuf h sb x none).1.setNext x none).mbuf x =
            { h.mbuf x with eor := false } := by
          simp [linkMbuf]
        have hother : ∀ y ∈ ms, ((linkMbuf h sb x none).1.setNext x none).mbuf y = h.mbuf y := by
          intro y hy
          simp [linkMbuf, hne y hy]
        rw [hfirst, bytesOf_congr fun y hy => congrArg Mbuf.data (hother y hy)] at hbytes hmarks
        rw [anyEor_congr fun y hy => congrArg Mbuf.eor (hother y hy), Bool.or_assoc] at hmarks
        have hstays : ¬(bytesOf h (x :: ms) = [] ∧ (eor || anyEor h (x :: ms)) = false) := by
          rintro ⟨hb, he⟩
          refine hdis ?_
          rw [bytesOf_cons, append_eq_nil_iff] at hb
          rw [anyEor_cons, Bool.or_eq_false_iff, Bool.or_eq_false_iff] at he
          simp [discards, Mbuf.len, hb.1, he.1, he.2.1]
        rw [newContents, if_neg hstays]
        show [(bytesOf _ (x :: links), marksOf _ (x :: links))] = _
        rw [show h₂.setEorOf (some (links.getLastD x)) eor₂
          = if eor₂ then h₂.setEor (links.getLastD x) true else h₂ from rfl, hbytes, hmarks]
        simp [endMark, anyEor_cons]

theorem sbcompress_empty {p : Option α} (hf : FreshChain h [] p ms) (hlast : sb.lastrecord = p)
    (hmb : sb.mb = none) (hzero : ∀ c, sb.count c = 0) :
    ∃ h₂ sb₂ rs₂, sbcompress h sb p none = some (h₂, sb₂) ∧ SbRep h₂ sb₂ rs₂ ∧
      (sb.mbtail = none → sb₂.mbtail = tailOf rs₂) ∧
      contents h₂ rs₂ = newContents (bytesOf h ms) (anyEor h ms) := by
  obtain ⟨h₂, sb₂, n, eor, rs₂, hrun, hrep, htail, hcont⟩ :=
    sbcompressLoop_empty false (length_lt_bound hf.nodup hf.live) hf hlast hmb hzero (by simp)
  refine ⟨h₂.setEorOf n eor, sb₂, rs₂, ?_, ?_, htail, hcont⟩
  · cases n <;> simp [sbcompress, hrun, MbufHeap.setEorOf]
  · cases n with
    | none => exact hrep
    | some b =>
      cases eor with
      | false => exact hrep
      | true => exact hrep.setEor b true

omit [DecidableEq α] in
theorem findEor_spec (hfuel : l.length < fuel)
    (hl : LinkedList h.next (h.next a) l) :
    findEor h fuel a =
      some (if (a :: l).any fun x => (h.mbuf x).eor then none else some (l.getLastD a)) := by
  induction l generalizing a fuel with
  | nil =>
    obtain ⟨fuel, rfl⟩ := Nat.exists_eq_add_one.2 hfuel
    have hnone : h.next a = none := hl
    simp only [findEor, hnone]
    split <;> simp_all
  | cons b l ih =>
    obtain ⟨fuel, rfl⟩ := Nat.exists_eq_add_one.2 (Nat.zero_lt_of_lt hfuel)
    obtain ⟨hsome, hl⟩ := hl
    simp only [findEor, hsome]
    by_cases heor : (h.mbuf a).eor = true
    · simp [heor]
    · rw [if_neg heor, ih (by simpa using hfuel) hl]
      simp only [any_cons, heor, Bool.false_or, getLastD_cons]
      simp

/-- The last record ends with an `M_EOR`, so that `sbappend` starts another. -/
def LastEor (h : MbufHeap α) (rs : List (α × List α)) : Prop :=
  ∃ r ∈ rs.getLast?, ∃ x ∈ r.1 :: r.2, (h.mbuf x).eor = true

omit [DecidableEq α] in
theorem SbRep.record_length (hr : SbRep h sb rs) {r : α × List α} (hmem : r ∈ rs) :
    r.2.length < h.bound := by
  have hlen := length_lt_bound hr.nodup hr.live
  obtain ⟨p, q, rfl⟩ := append_of_mem hmem
  simp only [mbufs_append, mbufs_cons, length_append, length_cons] at hlen
  omega

omit [DecidableEq α] in
theorem Compressed.behind {b : α} {l₀ links : List α} {bytes : List UInt8} {eor : Bool}
    (hc : Compressed h sb b ms h' sb' links) (hnodup : (l₀ ++ [b]).Nodup)
    (hout : ∀ x ∈ l₀, x ∉ ms)
    (hbytes : bytesOf h' (b :: links) = (h.mbuf b).data ++ bytes)
    (hmarks : marksOf h' (b :: links) = endMark (h.mbuf b).data (h.mbuf b).eor
      ∪ endMark ((h.mbuf b).data ++ bytes) eor) :
    bytesOf h' (l₀ ++ b :: links) = bytesOf h (l₀ ++ [b]) ++ bytes ∧
      marksOf h' (l₀ ++ b :: links) = marksOf h (l₀ ++ [b])
        ∪ endMark (bytesOf h (l₀ ++ [b]) ++ bytes) eor := by
  have hsame : ∀ x ∈ l₀, h'.mbuf x = h.mbuf x := by
    intro x hx
    refine hc.mbuf_eq x ?_ (hout x hx)
    rintro rfl
    exact (nodup_append.1 hnodup).2.2 _ hx _ mem_cons_self rfl
  have hl₀ : bytesOf h' l₀ = bytesOf h l₀ := bytesOf_congr fun x hx => by rw [hsame x hx]
  have hm₀ : marksOf h' l₀ = marksOf h l₀ :=
    marksOf_congr fun x hx => by rw [hsame x hx]; exact ⟨rfl, rfl⟩
  constructor
  · rw [bytesOf_append, hl₀, hbytes, bytesOf_append, bytesOf_cons, bytesOf_nil, append_nil,
      append_assoc]
  · rw [marksOf_append, hm₀, hl₀, hmarks, marksOf_append, marksOf_singleton, Finset.image_union,
      Finset.union_assoc]
    congr 2
    cases eor <;> simp [endMark]

theorem SbRep.behindLast {a₀ : α} {p : Option α} (hr : SbRep h sb (rs ++ [(a₀, l)]))
    (hf : FreshChain h (rs ++ [(a₀, l)]) p ms) :
    ∃ h₂ sb₂ links, sbcompress h sb p (some (l.getLastD a₀)) = some (h₂, sb₂) ∧
      SbRep h₂ sb₂ (rs ++ [(a₀, l ++ links)]) ∧
      (sb.mbtail = tailOf (rs ++ [(a₀, l)]) → sb₂.mbtail = tailOf (rs ++ [(a₀, l ++ links)])) ∧
      contents h₂ (rs ++ [(a₀, l ++ links)]) = contents h rs
        ++ [(bytesOf h (a₀ :: l) ++ bytesOf h ms, marksOf h (a₀ :: l)
          ∪ endMark (bytesOf h (a₀ :: l) ++ bytesOf h ms) (anyEor h ms))] := by
  have hmem : (a₀, l) ∈ rs ++ [(a₀, l)] := by simp
  have hsub := mem_mbufs_of_mem hmem
  have hlnodup : (a₀ :: l).Nodup := by
    have hall := hr.nodup
    rw [mbufs_append, nodup_append] at hall
    simpa using hall.2.1
  obtain ⟨l₀, hl₀⟩ : ∃ l₀, a₀ :: l = l₀ ++ [l.getLastD a₀] := by
    refine ⟨(a₀ :: l).dropLast, ?_⟩
    have hsplit := dropLast_append_getLast (cons_ne_nil a₀ l)
    rw [getLast_eq_getLastD] at hsplit
    exact hsplit.symm
  have hnext : h.next (l.getLastD a₀) = none := by
    have hfrom : LinkedList h.next (some a₀) (l₀ ++ l.getLastD a₀ :: []) := by
      rw [← hl₀]
      exact ⟨rfl, hr.chain _ hmem⟩
    exact hfrom.after
  have hin : l.getLastD a₀ ∈ a₀ :: l := by
    rw [hl₀]
    simp
  obtain ⟨h₂, sb₂, links, hrun, hcomp, hbytes, hmarks, -⟩ :=
    sbcompress_spec hf.linked hnext
      (nodup_cons.2 ⟨fun hx => hf.out _ hx (hsub _ hin), hf.nodup⟩) hf.live
      (fun x hx e => hf.out x hx (hr.last_mem e))
  refine ⟨h₂, sb₂, links, hrun, hr.compressed hcomp ⟨l₀, hl₀⟩ hf.out hf.nodup hf.live hf.pkt,
    fun htail => ?_, ?_⟩
  · rw [hcomp.mbtail, htail]
    cases links using List.reverseRecOn with
    | nil => simp [tailOf]
    | append_singleton l' b => simp [tailOf]
  · have hold : contents h₂ rs = contents h rs := by
      refine contents_congr fun x hx => ?_
      have hxr : x ∈ mbufs (rs ++ [(a₀, l)]) := by
        rw [mbufs_append]
        exact mem_append_left _ hx
      have hxl : x ≠ l.getLastD a₀ := by
        rintro rfl
        have hall := hr.nodup
        rw [mbufs_append, nodup_append] at hall
        exact hall.2.2 _ hx _ (by simpa using hin) rfl
      rw [hcomp.mbuf_eq x hxl fun hxm => hf.out x hxm hxr]
      exact ⟨rfl, rfl⟩
    obtain ⟨hb, hm⟩ := @Compressed.behind _ _ _ _ _ _ _ l₀ _ _ _ hcomp (hl₀ ▸ hlnodup)
      (fun x hx hxm => hf.out x hxm (hsub x (by rw [hl₀]; exact mem_append_left _ hx)))
      hbytes hmarks
    have hsplit : a₀ :: (l ++ links) = l₀ ++ l.getLastD a₀ :: links := by
      rw [← cons_append, hl₀, append_assoc]
      rfl
    rw [contents_append, hold, hl₀, ← hm, ← hb, ← hsplit]
    rfl

theorem sbappend_spec (hr : SbRep h sb rs) (hf : FreshChain h rs (some a) (a :: ms)) :
    ∃ h₂ sb₂ rs₂, sbappend h sb (some a) = some (h₂, sb₂) ∧ SbRep h₂ sb₂ rs₂ ∧
      (sb.mbtail = tailOf rs →
        (LastEor h rs → becomesOne h.refs (h.mbuf a) (ms.map h.mbuf) = false) →
        sb₂.mbtail = tailOf rs₂) ∧
      contents h₂ rs₂
        = appendTo (contents h rs) (bytesOf h (a :: ms)) (anyEor h (a :: ms)) := by
  cases rs using List.reverseRecOn with
  | nil =>
    have hlast : sb.lastrecord = none := hr.last
    have hzero : ∀ c, ({ sb with lastrecord := some a } : Sockbuf α).count c = 0 := by
      intro c
      have hc := hr.count c
      cases c <;> exact hc
    have hnew : ({ sb with lastrecord := some a } : Sockbuf α).lastrecord = some a := rfl
    obtain ⟨h₂, sb₂, rs₂, hrun, hrep, htail, hcont⟩ := sbcompress_empty hf hnew hr.heads hzero
    refine ⟨h₂, sb₂, rs₂, ?_, hrep, fun hnone _ => htail hnone, hcont⟩
    simp only [sbappend, hlast]
    exact hrun
  | append_singleton rs r =>
    obtain ⟨a₀, l⟩ := r
    have hlast : sb.lastrecord = some a₀ := by simpa using hr.last
    have hmem : (a₀, l) ∈ rs ++ [(a₀, l)] := by simp
    have hwalk := findEor_spec (hr.record_length hmem) (hr.chain _ hmem)
    have hcont : contents h (rs ++ [(a₀, l)])
        = contents h rs ++ [(bytesOf h (a₀ :: l), marksOf h (a₀ :: l))] := contents_append ..
    have hany : anyEor h (a₀ :: l) = ((a₀ :: l).any fun x => (h.mbuf x).eor) := rfl
    by_cases heor : anyEor h (a₀ :: l) = true
    · -- a new record
      obtain ⟨h₂, sb₂, links, hrun, hrep, htail, hnew, hbec⟩ := sbappendrecord_spec hr hf
      refine ⟨h₂, sb₂, _, ?_, hrep, ?_, ?_⟩
      · rw [← hany, if_pos heor] at hwalk
        simp only [sbappend, hlast, hwalk, bind_eq_bind, bind_some]
        exact hrun
      · intro _ hnot
        have hne : links ≠ [] := by
          intro e
          have := hnot ⟨(a₀, l), by simp, by simpa using hany.symm.trans heor⟩
          rw [hbec.1 e] at this
          exact absurd this (by decide)
        rw [htail]
        cases links using List.reverseRecOn with
        | nil => exact absurd rfl hne
        | append_singleton l' b => simp [tailOf]
      · have hmarks : marksOf h (a₀ :: l) ≠ ∅ := by
          rw [Ne, marksOf_eq_empty_iff, heor]
          exact Bool.noConfusion
        rw [hnew, appendTo, hcont, getLast?_concat]
        simp only [if_neg hmarks]
    · -- behind the last mbuf
      obtain ⟨h₂, sb₂, links, hrun, hrep, htail, hbehind⟩ := hr.behindLast hf
      have hmarks : marksOf h (a₀ :: l) = ∅ :=
        marksOf_eq_empty_iff.2 (Bool.eq_false_iff.2 heor)
      refine ⟨h₂, sb₂, _, ?_, hrep, fun ht _ => htail ht, ?_⟩
      · rw [← hany, if_neg heor] at hwalk
        simp only [sbappend, hlast, hwalk, bind_eq_bind, bind_some]
        exact hrun
      · rw [hbehind, appendTo, hcont, getLast?_concat]
        simp only [hmarks, if_true, dropLast_concat, Finset.empty_union]

/-! ## sbinsertoob -/

/-- Behind the control mbufs at its front a record has out-of-band data. -/
def oobFirst (h : MbufHeap α) : List α → Bool
  | [] => false
  | a :: l =>
    match (h.mbuf a).mtype with
    | .oobdata => true
    | .control => oobFirst h l
    | _ => false

omit [DecidableEq α] in
theorem inspectTrain_spec (hfuel : l.length < fuel)
    (hl : LinkedList h.next (h.next a) l) :
    inspectTrain h fuel a = some (oobFirst h (a :: l)) := by
  induction l generalizing a fuel with
  | nil =>
    obtain ⟨fuel, rfl⟩ := Nat.exists_eq_add_one.2 hfuel
    have hnone : h.next a = none := hl
    simp only [inspectTrain, hnone, oobFirst]
    cases (h.mbuf a).mtype <;> rfl
  | cons b l ih =>
    obtain ⟨fuel, rfl⟩ := Nat.exists_eq_add_one.2 (Nat.zero_lt_of_lt hfuel)
    obtain ⟨hsome, hl⟩ := hl
    simp only [inspectTrain, hsome, ih (by simpa using hfuel) hl]
    cases htype : (h.mbuf a).mtype <;> simp [oobFirst, htype]

omit [DecidableEq α] in
theorem SbRep.readMp (hr : SbRep h sb (pre ++ post)) :
    Kern.readMp h sb (pre.map Prod.fst).getLast? = (post.map Prod.fst).head? := by
  have hheads := hr.heads
  rw [map_append] at hheads
  cases hpre : pre.map Prod.fst using List.reverseRecOn with
  | nil =>
    rw [hpre, nil_append] at hheads
    exact hheads.eq_head?
  | append_singleton l₀ b =>
    rw [hpre, append_assoc] at hheads
    have hafter : LinkedList h.nextpkt (h.nextpkt b) (post.map Prod.fst) := hheads.after
    rw [getLast?_concat]
    exact hafter.eq_head?

omit [DecidableEq α] in
theorem SbRep.length_lt_bound (hr : SbRep h sb rs) : rs.length < h.bound := by
  have hlen := Kern.length_lt_bound hr.nodup hr.live
  have hsub := (map_fst_sublist_mbufs rs).length_le
  rw [length_map] at hsub
  omega

omit [DecidableEq α] in
theorem findOob_spec (hfuel : post.length < fuel) (hr : SbRep h sb (pre ++ post))
    (hpre : ∀ r ∈ pre, oobFirst h (r.1 :: r.2) = true) :
    ∃ pre₂ post₂, pre ++ post = pre₂ ++ post₂ ∧
      findOob h sb fuel (pre.map Prod.fst).getLast? = some (pre₂.map Prod.fst).getLast? ∧
      (∀ r ∈ pre₂, oobFirst h (r.1 :: r.2) = true) ∧
      (post₂ ≠ [] → ∃ r ∈ pre ++ post, oobFirst h (r.1 :: r.2) = false) := by
  induction post generalizing pre fuel with
  | nil =>
    obtain ⟨fuel, rfl⟩ := Nat.exists_eq_add_one.2 hfuel
    refine ⟨pre, [], rfl, ?_, hpre, fun hne => absurd rfl hne⟩
    simp only [findOob, hr.readMp, map_nil, head?_nil]
  | cons r post ih =>
    obtain ⟨fuel, rfl⟩ := Nat.exists_eq_add_one.2 (Nat.zero_lt_of_lt hfuel)
    have hmem : r ∈ pre ++ r :: post := by simp
    have htrain := inspectTrain_spec (hr.record_length hmem) (hr.chain r hmem)
    have hsplit : pre ++ r :: post = (pre ++ [r]) ++ post := by simp
    simp only [findOob, hr.readMp, map_cons, head?_cons, htrain, bind_eq_bind, bind_some]
    by_cases hoob : oobFirst h (r.1 :: r.2) = true
    · rw [if_pos hoob, hsplit]
      have hlast : some r.1 = ((pre ++ [r]).map Prod.fst).getLast? := by simp
      rw [hlast]
      refine ih (by simpa using hfuel) (hsplit ▸ hr) ?_
      intro q hq
      rcases mem_append.1 hq with hq | hq
      · exact hpre q hq
      · rw [mem_singleton.1 hq]
        exact hoob
    · rw [if_neg hoob]
      refine ⟨pre, r :: post, rfl, rfl, hpre, fun _ => ⟨r, hmem, ?_⟩⟩
      simpa using hoob

/-- A chain from outside goes behind the out-of-band records at the front. -/
theorem sbinsertoob_spec (hr : SbRep h sb rs) (hf : FreshChain h rs (some a) (a :: ms)) :
    ∃ h₂ sb₂ rs₂, sbinsertoob h sb (some a) = some (h₂, sb₂) ∧ SbRep h₂ sb₂ rs₂ ∧
      (sb.mbtail = tailOf rs →
        ((∀ r ∈ rs, oobFirst h (r.1 :: r.2) = true) ↔
          becomesOne h.refs (h.mbuf a) (ms.map h.mbuf) = false) →
        sb₂.mbtail = tailOf rs₂) := by
  have hr₀ : SbRep h sb ([] ++ rs) := hr
  obtain ⟨pre, post, rfl, hfind, hpre, hpost⟩ := findOob_spec hr.length_lt_bound hr₀ (by simp)
  have hcount : ∀ c, ((sballoc sb (h.mbuf a)).newTail (post.map Prod.fst).head? a).count c =
      sb.count c + BitVec.ofNat 64 ((h.mbuf a).weight c) := by
    intro c
    rw [← count_sballoc]
    cases c <;> rfl
  have hlast : ((sballoc sb (h.mbuf a)).newTail (post.map Prod.fst).head? a).lastrecord =
      if post = [] then some a else sb.lastrecord := by
    cases post with
    | nil => rfl
    | cons r post => rfl
  obtain ⟨h₂, sb₂, links, hrun, hrep, htail, -, hbec⟩ := hr.newRecord hf hcount rfl hlast
  refine ⟨h₂, sb₂, _, ?_, hrep, ?_⟩
  · simp only [map_nil, getLast?_nil] at hfind
    simp only [sbinsertoob, hfind, bind_eq_bind, bind_some, hr.readMp]
    exact hrun
  · intro hok hcond
    rw [htail]
    cases post with
    | nil =>
      have hne : links ≠ [] := by
        intro e
        have := hcond.1 (by simpa using hpre)
        rw [hbec.1 e] at this
        exact absurd this (by decide)
      cases links using List.reverseRecOn with
      | nil => exact absurd rfl hne
      | append_singleton l' b => simp [tailOf]
    | cons r post =>
      obtain ⟨q, hq, hnot⟩ := hpost (cons_ne_nil r post)
      have hone : links = [] := by
        refine hbec.2 (Bool.not_eq_false _ ▸ fun e => ?_)
        have := hcond.2 e q hq
        rw [hnot] at this
        exact absurd this (by decide)
      subst hone
      have hsame : (sb.mbtail) = tailOf (pre ++ r :: post) := hok
      simp [sballoc, Sockbuf.newTail, hsame, tailOf]

/-! ## sbappendaddr and sbappendcontrol -/

omit [DecidableEq α] in
theorem controlSpace_spec {p : Option α} (space : Int) (hfuel : l.length < fuel)
    (hl : LinkedList h.next p l) : ∃ k, controlSpace h fuel p space = some (k, l.getLast?) := by
  induction l generalizing p fuel space with
  | nil =>
    obtain ⟨fuel, rfl⟩ := Nat.exists_eq_add_one.2 hfuel
    have hp : p = none := hl
    subst hp
    exact ⟨space, rfl⟩
  | cons b l ih =>
    obtain ⟨fuel, rfl⟩ := Nat.exists_eq_add_one.2 (Nat.zero_lt_of_lt hfuel)
    obtain ⟨rfl, hl⟩ := hl
    cases l with
    | nil =>
      have hnone : h.next b = none := hl
      exact ⟨space + (h.mbuf b).len, by simp [controlSpace, hnone]⟩
    | cons d l =>
      have hsome : h.next b = some d := hl.1
      obtain ⟨k, hk⟩ := ih (space + (h.mbuf b).len) (by simpa using hfuel) hl
      refine ⟨k, ?_⟩
      simp only [controlSpace, hsome]
      rw [hsome] at hk
      rw [hk, getLast?_cons_cons]

omit [DecidableEq α] in
theorem dataSpace_spec {p : Option α} (space : Int) (hfuel : l.length < fuel)
    (hl : LinkedList h.next p l) : ∃ k, dataSpace h fuel p space = some k := by
  induction l generalizing p fuel space with
  | nil =>
    obtain ⟨fuel, rfl⟩ := Nat.exists_eq_add_one.2 hfuel
    have hp : p = none := hl
    subst hp
    exact ⟨space, rfl⟩
  | cons b l ih =>
    obtain ⟨fuel, rfl⟩ := Nat.exists_eq_add_one.2 (Nat.zero_lt_of_lt hfuel)
    obtain ⟨rfl, hl⟩ := hl
    exact ih (space + (h.mbuf b).len) (by simpa using hfuel) hl

omit [DecidableEq α] in
theorem sballocChain_spec (sb : Sockbuf α) (hfuel : l.length < fuel)
    (hl : LinkedList h.next (h.next a) l) :
    ∃ sb₂, sballocChain h fuel a sb = some (sb₂, l.getLastD a) ∧
      (∀ c, sb₂.count c = sb.count c + BitVec.ofNat 64 (weights h c (a :: l))) ∧
      sb₂.mb = sb.mb ∧ sb₂.lastrecord = sb.lastrecord := by
  induction l generalizing a fuel sb with
  | nil =>
    obtain ⟨fuel, rfl⟩ := Nat.exists_eq_add_one.2 hfuel
    have hnone : h.next a = none := hl
    exact ⟨sballoc sb (h.mbuf a), by simp [sballocChain, hnone], fun c => by simp, rfl, rfl⟩
  | cons b l ih =>
    obtain ⟨fuel, rfl⟩ := Nat.exists_eq_add_one.2 (Nat.zero_lt_of_lt hfuel)
    obtain ⟨hsome, hl⟩ := hl
    obtain ⟨sb₂, hrun, hcount, hmb, hlast⟩ :=
      ih (sballoc sb (h.mbuf a)) (by simpa using hfuel) hl
    refine ⟨sb₂, ?_, ?_, hmb, hlast⟩
    · simp only [sballocChain, hsome, hrun, getLastD_cons]
    · intro c
      rw [hcount c, count_sballoc, weights_cons (a := a), BitVec.ofNat_add]
      ring

theorem linkChain_spec (hr : SbRep h sb rs) (hf : FreshChain h rs (some a) (a :: ms)) :
    ∃ h₂ sb₂, linkChain h sb a = some (h₂, sb₂) ∧ SbRep h₂ sb₂ (rs ++ [(a, ms)]) ∧
      sb₂.mbtail = tailOf (rs ++ [(a, ms)]) := by
  have hfuel : ms.length < h.bound := by
    have := length_lt_bound hf.nodup hf.live
    rw [length_cons] at this
    omega
  obtain ⟨sb₁, hrun, hcount, hmb, hlast⟩ := sballocChain_spec sb hfuel hf.linked.2
  have hr' : SbRep h sb (rs ++ []) := by simpa using hr
  have hcount' : ∀ c, ({ sb₁ with lastrecord := some a } : Sockbuf α).count c =
      sb.count c + BitVec.ofNat 64 (weights h c (a :: ms)) := by
    intro c
    rw [← hcount c]
    cases c <;> rfl
  have hrep := hr'.insert (by simpa using hf.out) hf.nodup hf.live hf.linked.2
    (fun x hx => hf.pkt x (mem_cons_of_mem a hx)) hcount' hmb rfl
  have heq := sblinkrecord_eq hr (hf.pkt a mem_cons_self) hlast
  refine ⟨(sblinkrecord h sb₁ a).1, { (sblinkrecord h sb₁ a).2 with mbtail := some (ms.getLastD a) },
    ?_, ?_, by simp [tailOf]⟩
  · simp [linkChain, hrun]
  · rw [heq]
    exact hrep.setTail _

theorem FreshChain.concat {p q : Option α} {l' : List α} (hl : FreshChain h rs p (l ++ [a]))
    (hl' : FreshChain h rs q l') (hdisj : ∀ x ∈ l ++ [a], x ∉ l') :
    FreshChain (h.setNext a q) rs p ((l ++ [a]) ++ l') := by
  have hla : a ∉ l := by
    have := hl.nodup
    rw [nodup_append] at this
    exact fun hmem => this.2.2 a hmem a (by simp) rfl
  refine ⟨?_, ?_, ?_, ?_, ?_⟩
  · rw [append_assoc]
    refine hl.linked.relink (fun x hx => ?_) ?_
    · have hxa : x ≠ a := by
        rintro rfl
        exact hla hx
      simp [hxa]
    · rw [setNext_next, update_self]
      refine hl'.linked.congr fun x hx => update_of_ne ?_ _ _
      rintro rfl
      exact hdisj x (by simp) hx
  · refine nodup_append.2 ⟨hl.nodup, hl'.nodup, ?_⟩
    rintro x hx y hy rfl
    exact hdisj x hx hy
  · intro x hx
    exact (mem_append.1 hx).elim (hl.live x) (hl'.live x)
  · intro x hx
    exact (mem_append.1 hx).elim (hl.out x) (hl'.out x)
  · intro x hx
    exact (mem_append.1 hx).elim (hl.pkt x) (hl'.pkt x)

omit [DecidableEq α] in
theorem FreshChain.frame {p : Option α} (hl : FreshChain h rs p l)
    (hnext : ∀ x ∈ l, h'.next x = h.next x) (hpkt : ∀ x ∈ l, h'.nextpkt x = h.nextpkt x)
    (hlive : ∀ x ∈ h.live, x ∈ h'.live) : FreshChain h' rs p l where
  linked := hl.linked.congr hnext
  nodup := hl.nodup
  live := fun x hx => hlive x (hl.live x hx)
  out := hl.out
  pkt := fun x hx => (hpkt x hx).trans (hl.pkt x hx)

theorem FreshChain.cons {p : Option α} (hl : FreshChain h rs p l) (hm : m ∉ l)
    (hlive : m ∈ h.live) (hout : m ∉ mbufs rs) (hpkt : h.nextpkt m = none) :
    FreshChain (h.setNext m p) rs (some m) (m :: l) := by
  refine ⟨⟨rfl, ?_⟩, nodup_cons.2 ⟨hm, hl.nodup⟩, ?_, ?_, ?_⟩
  · rw [setNext_next, update_self]
    refine hl.linked.congr fun x hx => update_of_ne ?_ _ _
    rintro rfl
    exact hm hx
  · intro x hx
    rcases mem_cons.1 hx with rfl | hx
    · exact hlive
    · exact hl.live x hx
  · intro x hx
    rcases mem_cons.1 hx with rfl | hx
    · exact hout
    · exact hl.out x hx
  · intro x hx
    rcases mem_cons.1 hx with rfl | hx
    · exact hpkt
    · exact hl.pkt x hx

theorem SbRep.setNext (hr : SbRep h sb rs) (ha : a ∉ mbufs rs) (p : Option α) :
    SbRep (h.setNext a p) sb rs := by
  refine hr.frame (fun x hx => ?_) (fun _ _ => rfl) (fun _ _ => rfl) (fun _ hx => hx)
  have hxa : x ≠ a := by
    rintro rfl
    exact ha hx
  simp [hxa]

variable {cs ds : List α} {control m0 : Option α}

theorem concatControl_spec (hr : SbRep h sb rs)
    (hcs : FreshChain h rs control cs) (hds : FreshChain h rs m0 ds) (hdisj : ∀ x ∈ cs, x ∉ ds) :
    FreshChain (concatControl h control cs.getLast? m0).1 rs
        (concatControl h control cs.getLast? m0).2 (cs ++ ds) ∧
      SbRep (concatControl h control cs.getLast? m0).1 sb rs := by
  cases cs using List.reverseRecOn with
  | nil => exact ⟨hds, hr⟩
  | append_singleton l a =>
    simp only [concatControl, getLast?_concat]
    exact ⟨hcs.concat hds hdisj, hr.setNext (hcs.out a (by simp)) m0⟩

@[simp] theorem concatControl_live {last : Option α} :
    (concatControl h control last m0).1.live = h.live := by
  cases last <;> rfl

@[simp] theorem concatControl_nextpkt {last : Option α} :
    (concatControl h control last m0).1.nextpkt = h.nextpkt := by
  cases last <;> rfl

theorem sbappendaddr_spec {mget : Option α} (asa : List UInt8)
    (hr : SbRep h sb rs) (hcs : FreshChain h rs control cs) (hds : FreshChain h rs m0 ds)
    (hdisj : ∀ x ∈ cs, x ∉ ds) (hget : ∀ m ∈ mget, m ∉ h.live)
    (hpkt : ∃ k, pktSpace h m0 = some k) :
    ∃ h₂ sb₂ b rs₂, sbappendaddr h sb asa m0 control mget = some (h₂, sb₂, b) ∧
      SbRep h₂ sb₂ rs₂ ∧ (sb.mbtail = tailOf rs → sb₂.mbtail = tailOf rs₂) := by
  obtain ⟨k, hk⟩ := hpkt
  obtain ⟨space, hspace⟩ :=
    controlSpace_spec (asa.length + k) (length_lt_bound hcs.nodup hcs.live) hcs.linked
  simp only [sbappendaddr, hk, hspace, bind_eq_bind, bind_some]
  by_cases hfull : space > sbspace sb
  · exact ⟨h, sb, false, rs, by rw [if_pos hfull]; rfl, hr, id⟩
  by_cases hlong : asa.length > mlen
  · exact ⟨h, sb, false, rs, by rw [if_neg hfull, if_pos hlong]; rfl, hr, id⟩
  rw [if_neg hfull, if_neg hlong]
  cases mget with
  | none => exact ⟨h, sb, false, rs, rfl, hr, id⟩
  | some m =>
    have hm : m ∉ h.live := hget m rfl
    have hne : ∀ x ∈ h.live, x ≠ m := by
      rintro x hx rfl
      exact hm hx
    have hlive : ∀ x ∈ h.live, x ∈ (h.alloc m (sonameMbuf asa) none).live := fun x hx =>
      mem_cons_of_mem m hx
    -- the new mbuf is none of the others
    have hr₁ : SbRep (h.alloc m (sonameMbuf asa) none) sb rs :=
      hr.frame (fun x hx => update_of_ne (hne x (hr.live x hx)) _ _)
        (fun x hx => update_of_ne (hne x (hr.live x hx)) _ _)
        (fun x hx => update_of_ne (hne x (hr.live x hx)) _ _) hlive
    have hcs₁ : FreshChain (h.alloc m (sonameMbuf asa) none) rs control cs :=
      hcs.frame (fun x hx => update_of_ne (hne x (hcs.live x hx)) _ _)
        (fun x hx => update_of_ne (hne x (hcs.live x hx)) _ _) hlive
    have hds₁ : FreshChain (h.alloc m (sonameMbuf asa) none) rs m0 ds :=
      hds.frame (fun x hx => update_of_ne (hne x (hds.live x hx)) _ _)
        (fun x hx => update_of_ne (hne x (hds.live x hx)) _ _) hlive
    obtain ⟨hchain, hrep⟩ := concatControl_spec hr₁ hcs₁ hds₁ hdisj
    have hmout : m ∉ mbufs rs := fun hx => hm (hr.live m hx)
    have hmchain : m ∉ cs ++ ds := by
      intro hx
      rcases mem_append.1 hx with hx | hx
      · exact hm (hcs.live m hx)
      · exact hm (hds.live m hx)
    have hfirst := hchain.cons hmchain
      (by rw [concatControl_live]; exact mem_cons_self) hmout
      (by rw [concatControl_nextpkt]; exact update_self _ _ _)
    obtain ⟨h₂, sb₂, hrun, hdone, htail⟩ := linkChain_spec (hrep.setNext hmout _) hfirst
    refine ⟨h₂, sb₂, true, _, ?_, hdone, fun _ => htail⟩
    simp only [hrun, bind_some]
    rfl

theorem sbappendcontrol_spec (hr : SbRep h sb rs)
    (hcs : FreshChain h rs (some a) (a :: l)) (hds : FreshChain h rs m0 ds)
    (hdisj : ∀ x ∈ a :: l, x ∉ ds) :
    ∃ h₂ sb₂ b rs₂, sbappendcontrol h sb m0 (some a) = some (h₂, sb₂, b) ∧
      SbRep h₂ sb₂ rs₂ ∧ (sb.mbtail = tailOf rs → sb₂.mbtail = tailOf rs₂) := by
  obtain ⟨space, hspace⟩ :=
    controlSpace_spec 0 (length_lt_bound hcs.nodup hcs.live) hcs.linked
  obtain ⟨total, htotal⟩ :=
    dataSpace_spec space (length_lt_bound hds.nodup hds.live) hds.linked
  have hlast : (a :: l).getLast? = some (l.getLastD a) := by
    simp [getLast?_cons]
  simp only [sbappendcontrol, hspace, hlast, htotal, bind_eq_bind, bind_some]
  by_cases hfull : total > sbspace sb
  · exact ⟨h, sb, false, rs, by rw [if_pos hfull]; rfl, hr, id⟩
  rw [if_neg hfull]
  obtain ⟨hchain, hrep⟩ := concatControl_spec hr hcs hds hdisj
  simp only [hlast, concatControl] at hchain hrep
  obtain ⟨h₂, sb₂, hrun, hdone, htail⟩ := linkChain_spec hrep hchain
  refine ⟨h₂, sb₂, true, _, ?_, hdone, fun _ => htail⟩
  simp only [hrun, bind_some]
  rfl

/-! ## Drops -/

/-- In the middle of a drop: `cur` is left of the record at the front, `p` and `next`
    point to it and to the records behind it. -/
structure DropRep (h : MbufHeap α) (sb : Sockbuf α) (p next : Option α) (cur : List α)
    (rs : List (α × List α)) : Prop where
  linked : LinkedList h.next p cur
  heads : LinkedList h.nextpkt next (rs.map Prod.fst)
  chain : ∀ r ∈ rs, LinkedList h.next (h.next r.1) r.2
  inner : ∀ r ∈ rs, ∀ x ∈ r.2, h.nextpkt x = none
  front : ∀ x ∈ cur.tail, h.nextpkt x = none
  nodup : (cur ++ mbufs rs).Nodup
  live : ∀ x ∈ cur ++ mbufs rs, x ∈ h.live
  count : ∀ c, sb.count c = BitVec.ofNat 64 (weights h c (cur ++ mbufs rs))
  last : rs ≠ [] → sb.lastrecord = (rs.map Prod.fst).getLast?

/-- The cached tail, as long as something is left. -/
def DropTail (sb : Sockbuf α) (cur : List α) (rs : List (α × List α)) : Prop :=
  (rs ≠ [] → sb.mbtail = tailOf rs) ∧ (rs = [] → cur ≠ [] → sb.mbtail = cur.getLast?)

variable {p next : Option α} {cur : List α}

theorem DropRep.free (hd : DropRep h sb (some a) next (a :: l) rs) :
    DropRep (mFree h a).1 (sbfree sb (h.mbuf a)) (h.next a) next l rs where
  linked := by simpa using hd.linked.2
  heads := by simpa using hd.heads
  chain := by simpa using hd.chain
  inner := by simpa using hd.inner
  front := by
    intro x hx
    rw [mFree_nextpkt]
    exact hd.front x (mem_of_mem_tail hx)
  nodup := (nodup_cons.1 hd.nodup).2
  live := by
    intro x hx
    have hxa : x ≠ a := by
      rintro rfl
      exact (nodup_cons.1 hd.nodup).1 hx
    rw [mFree_live]
    exact (mem_erase_of_ne hxa).2 (hd.live x (mem_cons_of_mem a hx))
  count := by
    intro c
    rw [weights_mFree]
    refine count_sbfree ?_
    rw [hd.count c, cons_append, weights_cons]
  last := hd.last

omit [DecidableEq α] in
theorem DropTail.free (ht : DropTail sb (a :: l) rs) {m : Mbuf} : DropTail (sbfree sb m) l rs := by
  refine ⟨ht.1, fun hrs hl => ?_⟩
  have := ht.2 hrs (cons_ne_nil a l)
  cases l with
  | nil => exact absurd rfl hl
  | cons b l => rwa [getLast?_cons_cons] at this

omit [DecidableEq α] in
theorem DropRep.nextRecord {b : α} (hd : DropRep h sb p (some b) [] rs) :
    ∃ l rs', rs = (b, l) :: rs' ∧ DropRep h sb (some b) (h.nextpkt b) (b :: l) rs' := by
  cases rs with
  | nil => exact absurd hd.heads (by simp [LinkedList])
  | cons r rs =>
    obtain ⟨b', l⟩ := r
    obtain ⟨hb, hheads⟩ := hd.heads
    obtain rfl : b = b' := Option.some.inj hb
    refine ⟨l, rs, rfl, ⟨rfl, hd.chain (b, l) mem_cons_self⟩, hheads, ?_, ?_, ?_, ?_, ?_, ?_, ?_⟩
    · exact fun r hr => hd.chain r (mem_cons_of_mem _ hr)
    · exact fun r hr => hd.inner r (mem_cons_of_mem _ hr)
    · exact fun x hx => hd.inner (b, l) mem_cons_self x hx
    · simpa using hd.nodup
    · simpa using hd.live
    · simpa using hd.count
    · intro hne
      rw [hd.last (cons_ne_nil _ _)]
      cases rs with
      | nil => exact absurd rfl hne
      | cons q rs => simp

omit [DecidableEq α] in
theorem DropTail.nextRecord {b : α} (ht : DropTail sb [] ((b, l) :: rs)) :
    DropTail sb (b :: l) rs := by
  have htail := ht.1 (cons_ne_nil _ _)
  refine ⟨fun hne => ?_, fun hrs _ => ?_⟩
  · rw [htail]
    cases rs with
    | nil => exact absurd rfl hne
    | cons q rs => simp [tailOf]
  · subst hrs
    rw [htail]
    simp [tailOf, getLast?_cons]

theorem DropRep.part (hd : DropRep h sb (some a) next (a :: l) rs) {k off : Nat}
    (hk : k ≤ (h.mbuf a).len) :
    DropRep (h.setMbuf a { h.mbuf a with data := (h.mbuf a).data.drop k, off := off })
      (sb.subBytes (h.mbuf a) k) (some a) next (a :: l) rs :=
  { hd with
    count := by
      intro c
      have hrest : weights
          (h.setMbuf a { h.mbuf a with data := (h.mbuf a).data.drop k, off := off }) c
          (l ++ mbufs rs) = weights h c (l ++ mbufs rs) := by
        refine weights_congr fun x hx => ?_
        have hxa : x ≠ a := by
          rintro rfl
          exact (nodup_cons.1 hd.nodup).1 hx
        rw [setMbuf_mbuf, update_of_ne hxa]
      rw [cons_append, weights_cons, hrest, setMbuf_mbuf, update_self]
      refine count_subBytes hk ?_
      rw [hd.count c, cons_append, weights_cons] }

@[simp] theorem contents_mFree : contents (mFree h a).1 rs = contents h rs :=
  contents_congr fun x _ => ⟨mFree_data h a x, mFree_eor h a x⟩

omit [DecidableEq α] in
theorem weight_drop_le (m : Mbuf) (k off : Nat) (c : SbCounter) :
    ({ m with data := m.data.drop k, off := off } : Mbuf).weight c ≤ m.weight c := by
  have hlen : ({ m with data := m.data.drop k, off := off } : Mbuf).len ≤ m.len :=
    (drop_sublist k m.data).length_le
  have hdata : ({ m with data := m.data.drop k, off := off } : Mbuf).isData = m.isData := rfl
  cases c with
  | cc => exact hlen
  | mbcnt => exact Nat.le_refl _
  | datacc =>
    simp only [Mbuf.weight, hdata]
    by_cases hm : m.isData = true
    · rw [if_pos hm, if_pos hm]
      exact hlen
    · rw [if_neg hm, if_neg hm]

/-- What a part of `sbdrop` leaves: `n` bytes less, and the records behind as they were. -/
structure Dropped (h : MbufHeap α) (cur : List α) (rs : List (α × List α)) (n : Nat)
    (h' : MbufHeap α) (cur' : List α) (rs' : List (α × List α)) : Prop where
  bytes : bytesOf h' (cur' ++ mbufs rs') = (bytesOf h (cur ++ mbufs rs)).drop n
  behind : rs' <:+ rs
  same : contents h' rs' = contents h rs'
  le : ∀ c, weights h' c (cur' ++ mbufs rs') ≤ weights h c (cur ++ mbufs rs)

variable {cur' : List α} {rs' : List (α × List α)} {n : Nat}

omit [DecidableEq α] in
theorem Dropped.refl : Dropped h cur rs 0 h cur rs :=
  ⟨rfl, suffix_refl rs, rfl, fun _ => le_rfl⟩

omit [DecidableEq α] in
theorem Dropped.nextRecord {b : α} (hd : Dropped h (b :: l) rs n h' cur' rs') :
    Dropped h [] ((b, l) :: rs) n h' cur' rs' where
  bytes := by
    rw [hd.bytes, nil_append, mbufs_cons]
    rfl
  behind := hd.behind.trans (suffix_cons _ rs)
  same := hd.same
  le := by
    intro c
    rw [nil_append, mbufs_cons]
    exact hd.le c

theorem Dropped.free (hd : Dropped (mFree h a).1 l rs n h' cur' rs') :
    Dropped h (a :: l) rs ((h.mbuf a).len + n) h' cur' rs' where
  bytes := by
    rw [hd.bytes, bytesOf_mFree, cons_append, bytesOf_cons, Mbuf.len, ← drop_drop, drop_left]
  behind := hd.behind
  same := hd.same.trans contents_mFree
  le := by
    intro c
    refine (hd.le c).trans ?_
    rw [weights_mFree, cons_append, weights_cons]
    exact Nat.le_add_left ..

theorem Dropped.part {k off : Nat} (ha : a ∉ l ++ mbufs rs) (hk : k ≤ (h.mbuf a).len) :
    Dropped h (a :: l) rs k
      (h.setMbuf a { h.mbuf a with data := (h.mbuf a).data.drop k, off := off }) (a :: l) rs := by
  have hother : ∀ x ∈ l ++ mbufs rs, (h.setMbuf a { h.mbuf a with
      data := (h.mbuf a).data.drop k, off := off }).mbuf x = h.mbuf x := fun x hx => by
    rw [setMbuf_mbuf, update_of_ne (ne_of_mem_of_not_mem hx ha)]
  refine ⟨?_, suffix_refl rs, contents_congr fun x hx => ?_, fun c => ?_⟩
  · rw [cons_append, bytesOf_cons, bytesOf_cons, setMbuf_mbuf, update_self,
      drop_append_of_le_length hk, bytesOf_congr fun x hx => congrArg Mbuf.data (hother x hx)]
  · rw [hother x (mem_append_right l hx)]
    exact ⟨rfl, rfl⟩
  · rw [cons_append, weights_cons, weights_cons, setMbuf_mbuf, update_self,
      weights_congr (h := h) fun x hx => by rw [hother x hx]]
    exact Nat.add_le_add_right (weight_drop_le ..) _

variable {len : Int}

theorem sbdropLoop_spec (hd : DropRep h sb p next cur rs)
    {r : MbufHeap α × Sockbuf α × Option α × Option α}
    (hrun : sbdropLoop fuel h sb p next len = some r) :
    ∃ cur₂ rs₂, DropRep r.1 r.2.1 r.2.2.1 r.2.2.2 cur₂ rs₂ ∧
      (DropTail sb cur rs → DropTail r.2.1 cur₂ rs₂) ∧
      Dropped h cur rs len.toNat r.1 cur₂ rs₂ := by
  induction fuel generalizing h sb p next cur rs len with
  | zero => simp [sbdropLoop] at hrun
  | succ fuel ih =>
    rw [sbdropLoop.eq_def] at hrun
    simp only at hrun
    split at hrun
    · rename_i hle
      cases hrun
      exact ⟨cur, rs, hd, id, Int.toNat_of_nonpos hle ▸ .refl⟩
    cases cur with
    | nil =>
      have hp : p = none := hd.linked
      subst hp
      cases next with
      | none => simp at hrun
      | some b =>
        obtain ⟨l, rs', rfl, hd'⟩ := hd.nextRecord
        obtain ⟨cur₂, rs₂, hd₂, ht₂, hdrop⟩ := ih hd' hrun
        exact ⟨cur₂, rs₂, hd₂, fun ht => ht₂ ht.nextRecord, hdrop.nextRecord⟩
    | cons a l =>
      have hp : p = some a := hd.linked.1
      subst hp
      simp only at hrun
      split at hrun
      · -- the rest of the bytes is in this mbuf
        have hk : len.toNat ≤ (h.mbuf a).len := by omega
        cases hrun
        exact ⟨a :: l, rs, hd.part hk, id, .part (nodup_cons.1 hd.nodup).1 hk⟩
      · -- the mbuf goes
        obtain ⟨cur₂, rs₂, hd₂, ht₂, hdrop⟩ := ih hd.free hrun
        have hlen : len.toNat = (h.mbuf a).len + (len - (h.mbuf a).len).toNat := by omega
        exact ⟨cur₂, rs₂, hd₂, fun ht => ht₂ ht.free, hlen ▸ hdrop.free⟩

/-- The first loop of `sbdrop` comes to an end when there are enough bytes. -/
theorem sbdropLoop_total (hd : DropRep h sb p next cur rs)
    (hfuel : cur.length + (mbufs rs).length + rs.length < fuel)
    (hlen : len ≤ weights h .cc (cur ++ mbufs rs)) :
    ∃ r, sbdropLoop fuel h sb p next len = some r := by
  induction fuel generalizing h sb p next cur rs len with
  | zero => omega
  | succ fuel ih =>
    rw [sbdropLoop.eq_def]
    simp only
    split
    · exact ⟨_, rfl⟩
    cases cur with
    | nil =>
      have hp : p = none := hd.linked
      subst hp
      cases next with
      | none =>
        have hnil : rs = [] := by
          cases rs with
          | nil => rfl
          | cons r rs => exact absurd hd.heads.1 (by simp)
        subst hnil
        simp at hlen
        omega
      | some b =>
        obtain ⟨l, rs', rfl, hd'⟩ := hd.nextRecord
        refine ih hd' ?_ ?_
        · simp only [mbufs_cons, length_cons, length_append, length_nil] at hfuel ⊢
          omega
        · simpa using hlen
    | cons a l =>
      have hp : p = some a := hd.linked.1
      subst hp
      simp only
      split
      · exact ⟨_, rfl⟩
      · refine ih hd.free ?_ ?_
        · simp only [length_cons] at hfuel
          omega
        · rw [cons_append, weights_cons] at hlen
          rw [weights_mFree]
          have hw : (h.mbuf a).weight .cc = (h.mbuf a).len := rfl
          omega

theorem sbdropEmpty_spec (hfuel : cur.length < fuel)
    (hd : DropRep h sb p next cur rs) :
    ∃ h₂ sb₂ p₂ cur₂, sbdropEmpty fuel h sb p = some (h₂, sb₂, p₂) ∧
      DropRep h₂ sb₂ p₂ next cur₂ rs ∧ (DropTail sb cur rs → DropTail sb₂ cur₂ rs) ∧
      Dropped h cur rs 0 h₂ cur₂ rs ∧ ∀ a l, cur₂ = a :: l → (h₂.mbuf a).data ≠ [] := by
  induction cur generalizing h sb p fuel with
  | nil =>
    obtain ⟨fuel, rfl⟩ := Nat.exists_eq_add_one.2 hfuel
    have hp : p = none := hd.linked
    subst hp
    exact ⟨h, sb, none, [], rfl, hd, id, .refl, by simp⟩
  | cons a l ih =>
    obtain ⟨fuel, rfl⟩ := Nat.exists_eq_add_one.2 (Nat.zero_lt_of_lt hfuel)
    have hp : p = some a := hd.linked.1
    subst hp
    rw [sbdropEmpty]
    split
    · rename_i hzero
      obtain ⟨h₂, sb₂, p₂, cur₂, hrun, hd₂, ht₂, hdrop, hhead⟩ := ih (by simpa using hfuel) hd.free
      have hlen : 0 = (h.mbuf a).len + 0 := hzero.symm
      exact ⟨h₂, sb₂, p₂, cur₂, hrun, hd₂, fun ht => ht₂ ht.free, hlen ▸ hdrop.free, hhead⟩
    · rename_i hne
      refine ⟨h, sb, some a, a :: l, rfl, hd, id, .refl, ?_⟩
      rintro b l' hbl hempty
      obtain ⟨rfl, rfl⟩ := List.cons.inj hbl
      exact hne (congrArg List.length hempty)

omit [DecidableEq α] in
/-- The records that are left. -/
def leftRecords (cur : List α) (rs : List (α × List α)) : List (α × List α) :=
  match cur with
  | [] => rs
  | a :: l => (a, l) :: rs

/-- The end of `sbdrop`. -/
theorem DropRep.finish (hd : DropRep h sb p next cur rs) :
    SbRep (h.setNextpktOf p next) (sbdropFixup (h.setNextpktOf p next) { sb with mb := p.or next })
        (leftRecords cur rs) ∧
      (DropTail sb cur rs →
        (sbdropFixup (h.setNextpktOf p next) { sb with mb := p.or next }).mbtail =
          tailOf (leftRecords cur rs)) := by
  have hnext := hd.heads.eq_head?
  cases cur with
  | nil =>
    have hp : p = none := hd.linked
    subst hp
    cases rs with
    | nil =>
      have hnone : next = none := hnext
      subst hnone
      refine ⟨.empty rfl rfl fun c => ?_, fun _ => rfl⟩
      have hc := hd.count c
      cases c <;> exact hc
    | cons r rs =>
      have hsome : next = some r.1 := hnext
      subst hsome
      have hlast := hd.last (cons_ne_nil r rs)
      have hfix : (sbdropFixup h { sb with mb := some r.1 }).lastrecord =
          ((r :: rs).map Prod.fst).getLast? := by
        rw [sbdropFixup]
        simp only
        split
        · -- the record at the front is the last
          next hend =>
            have hrs := hd.heads.2.eq_head?
            rw [hend] at hrs
            cases rs with
            | nil => rfl
            | cons q rs => exact absurd hrs (by simp)
        · exact hlast
      refine ⟨⟨hd.heads, hd.chain, hd.inner, hd.nodup, hd.live, fun c => ?_, hfix⟩, fun ht => ?_⟩
      · have hc := hd.count c
        cases c <;> exact hc
      · exact ht.1 (cons_ne_nil r rs)
  | cons a l =>
    have hp : p = some a := hd.linked.1
    subst hp
    obtain ⟨ha, hnodup⟩ := nodup_cons.1 hd.nodup
    have hne : ∀ x ∈ l ++ mbufs rs, x ≠ a := by
      rintro x hx rfl
      exact ha hx
    have hpkt : ∀ x ∈ l ++ mbufs rs, (h.setNextpkt a next).nextpkt x = h.nextpkt x := fun x hx =>
      update_of_ne (hne x hx) _ _
    have hfix : (sbdropFixup (h.setNextpkt a next) { sb with mb := some a }).lastrecord =
        (((a, l) :: rs).map Prod.fst).getLast? := by
      rw [sbdropFixup]
      simp only [setNextpkt_nextpkt, update_self]
      cases rs with
      | nil =>
        have hnone : next = none := hnext
        simp [hnone]
      | cons r rs =>
        have hsome : next = some r.1 := hnext
        simp only [hsome, reduceCtorEq, if_false]
        rw [hd.last (cons_ne_nil r rs)]
        simp
    refine ⟨⟨⟨rfl, ?_⟩, ?_, ?_, ?_, ?_, fun c => ?_, hfix⟩, fun ht => ?_⟩
    · change LinkedList (h.setNextpkt a next).nextpkt ((h.setNextpkt a next).nextpkt a) _
      rw [setNextpkt_nextpkt, update_self]
      exact hd.heads.congr fun x hx =>
        hpkt x (mem_append_right _ (map_fst_subset_mbufs x hx))
    · intro r hrs
      rcases mem_cons.1 hrs with rfl | hrs
      · exact hd.linked.2
      · exact hd.chain r hrs
    · intro r hrs x hx
      rcases mem_cons.1 hrs with rfl | hrs
      · exact (hpkt x (mem_append_left _ hx)).trans (hd.front x hx)
      · refine (hpkt x ?_).trans (hd.inner r hrs x hx)
        exact mem_append_right _ (mem_mbufs_of_mem hrs x (mem_cons_of_mem _ hx))
    · simpa [leftRecords] using hd.nodup
    · rw [leftRecords, mbufs_cons]
      exact hd.live
    · have hc := hd.count c
      rw [leftRecords, mbufs_cons]
      cases c <;> exact hc
    · change sb.mbtail = _
      cases rs with
      | nil =>
        rw [ht.2 rfl (cons_ne_nil a l)]
        simp [leftRecords, tailOf, getLast?_cons]
      | cons r rs =>
        rw [ht.1 (cons_ne_nil r rs)]
        simp [leftRecords, tailOf]

omit [DecidableEq α] in
theorem SbRep.dropRep_cons (hr : SbRep h sb ((a, l) :: rs)) :
    DropRep h sb sb.mb (sb.mb.bind h.nextpkt) (a :: l) rs := by
  obtain ⟨hmb, hheads⟩ := hr.heads
  rw [hmb]
  refine ⟨⟨rfl, hr.chain (a, l) mem_cons_self⟩, hheads, ?_, ?_, ?_, ?_, ?_, ?_, ?_⟩
  · exact fun r hr' => hr.chain r (mem_cons_of_mem _ hr')
  · exact fun r hr' => hr.inner r (mem_cons_of_mem _ hr')
  · exact fun x hx => hr.inner (a, l) mem_cons_self x hx
  · simpa using hr.nodup
  · simpa using hr.live
  · simpa using hr.count
  · intro hne
    rw [hr.last]
    cases rs with
    | nil => exact absurd rfl hne
    | cons q rs => simp

omit [DecidableEq α] in
theorem SbRep.dropRep (hr : SbRep h sb rs) :
    ∃ cur rs', DropRep h sb sb.mb (sb.mb.bind h.nextpkt) cur rs' ∧
      mbufs rs = cur ++ mbufs rs' ∧ (sb.mbtail = tailOf rs → DropTail sb cur rs') ∧
      rs' <:+ rs ∧ (rs' = [] ∨ rs'.length < rs.length) := by
  cases rs with
  | nil =>
    have hmb : sb.mb = none := hr.heads
    refine ⟨[], [], ?_, rfl, fun _ => ⟨fun h => absurd rfl h, fun _ h => absurd rfl h⟩,
      suffix_refl _, .inl rfl⟩
    rw [hmb]
    exact ⟨rfl, rfl, hr.chain, hr.inner, by simp, hr.nodup, hr.live, hr.count,
      fun h => absurd rfl h⟩
  | cons r rs =>
    obtain ⟨a, l⟩ := r
    refine ⟨a :: l, rs, hr.dropRep_cons, by simp, fun ht => ?_, suffix_cons _ rs, .inr (by simp)⟩
    refine DropTail.nextRecord (l := l) ⟨fun _ => ht, fun h => absurd h (cons_ne_nil _ _)⟩

theorem sbdrop_spec (hr : SbRep h sb rs) {r : MbufHeap α × Sockbuf α}
    (hrun : sbdrop h sb len = some r) :
    ∃ rs₂, SbRep r.1 r.2 rs₂ ∧ (sb.mbtail = tailOf rs → r.2.mbtail = tailOf rs₂) ∧
      bytesOf r.1 (mbufs rs₂) = (bytesOf h (mbufs rs)).drop len.toNat ∧
      (contents r.1 rs₂).tail <:+ contents h rs ∧
      (bytesOf r.1 (mbufs rs₂) = [] → rs₂ = [] ∨ rs₂.length < rs.length) ∧
      (rs₂ = [] → r.2.mbtail = none) ∧
      ∀ c, weights r.1 c (mbufs rs₂) ≤ weights h c (mbufs rs) := by
  obtain ⟨cur, rs', hd, hmb, ht, hsuf, hlt⟩ := hr.dropRep
  simp only [sbdrop, bind_eq_bind, bind_eq_some_iff] at hrun
  obtain ⟨⟨h₁, sb₁, p₁, next₁⟩, hloop, ⟨h₂, sb₂, p₂⟩, hempty, hend⟩ := hrun
  obtain ⟨cur₁, rs₁, hd₁, ht₁, hdrop₁⟩ := sbdropLoop_spec hd hloop
  have hfuel : cur₁.length < h₁.bound :=
    Kern.length_lt_bound ((nodup_append.1 hd₁.nodup).1) fun x hx =>
      hd₁.live x (mem_append_left _ hx)
  obtain ⟨h₃, sb₃, p₃, cur₃, hrun₃, hd₃, ht₃, hdrop₃, hhead⟩ := sbdropEmpty_spec hfuel hd₁
  rw [hrun₃] at hempty
  cases hempty
  cases hend
  obtain ⟨hrep, htail⟩ := hd₃.finish
  have hleft : mbufs (leftRecords cur₃ rs₁) = cur₃ ++ mbufs rs₁ := by
    cases cur₃ <;> simp [leftRecords]
  have hmbuf : (h₂.setNextpktOf p₂ next₁).mbuf = h₂.mbuf := by cases p₂ <;> rfl
  have hbytes : bytesOf (h₂.setNextpktOf p₂ next₁) (mbufs (leftRecords cur₃ rs₁))
      = (bytesOf h (mbufs rs)).drop len.toNat := by
    rw [hleft, bytesOf, hmbuf, hmb, ← hdrop₁.bytes]
    exact hdrop₃.bytes
  refine ⟨leftRecords cur₃ rs₁, hrep, fun h => htail (ht₃ (ht₁ (ht h))), hbytes, ?_, fun hnil => ?_,
    fun hnil => ?_, fun c => ?_⟩
  · have hback : contents h₂ rs₁ <:+ contents h rs := by
      rw [hdrop₃.same, hdrop₁.same]
      exact (hdrop₁.behind.trans hsuf).map _
    rw [contents_congr (h := h₂) fun x _ => by rw [hmbuf]; exact ⟨rfl, rfl⟩]
    cases cur₃ with
    | nil => exact (tail_suffix _).trans hback
    | cons a l => exact hback
  · cases cur₃ with
    | nil =>
      rcases hlt with rfl | hlt
      · exact Or.inl (suffix_nil.1 hdrop₁.behind)
      · exact Or.inr (Nat.lt_of_le_of_lt hdrop₁.behind.length_le hlt)
    | cons a l =>
      rw [hleft, bytesOf, hmbuf] at hnil
      exact absurd (append_eq_nil_iff.1 hnil).1 (hhead a l rfl)
  · have hmb₂ := hrep.heads
    rw [hnil] at hmb₂
    have hnone : p₂.or next₁ = none := by
      have hsame : (sbdropFixup (h₂.setNextpktOf p₂ next₁) { sb₂ with mb := p₂.or next₁ }).mb
          = p₂.or next₁ := by
        cases hor : p₂.or next₁ <;> rfl
      exact hsame.symm.trans hmb₂
    rw [hnone]
    rfl
  · rw [hleft, weights, hmbuf, hmb]
    exact (hdrop₃.le c).trans (hdrop₁.le c)

theorem sbdrop_total (hr : SbRep h sb rs) (hlen : len ≤ weights h .cc (mbufs rs)) :
    ∃ r, sbdrop h sb len = some r := by
  obtain ⟨cur, rs', hd, hmb, -, hsuf, -⟩ := hr.dropRep
  have hbound := Kern.length_lt_bound hr.nodup hr.live
  have hheads := (map_fst_sublist_mbufs rs').length_le
  rw [hmb, length_append] at hbound
  rw [length_map] at hheads
  obtain ⟨⟨h₁, sb₁, p₁, next₁⟩, hloop⟩ := sbdropLoop_total hd
    (show _ < 2 * h.bound by omega) (hmb ▸ hlen)
  obtain ⟨cur₁, rs₁, hd₁, -⟩ := sbdropLoop_spec hd hloop
  have hfuel : cur₁.length < h₁.bound :=
    Kern.length_lt_bound ((nodup_append.1 hd₁.nodup).1) fun x hx =>
      hd₁.live x (mem_append_left _ hx)
  obtain ⟨h₃, sb₃, p₃, cur₃, hrun₃, -⟩ := sbdropEmpty_spec hfuel hd₁
  refine ⟨(h₃.setNextpktOf p₃ next₁,
    sbdropFixup (h₃.setNextpktOf p₃ next₁) { sb₃ with mb := p₃.or next₁ }), ?_⟩
  simp only [sbdrop, hloop, hrun₃, bind_eq_bind, bind_some]
  rfl

theorem sbfreeChain_spec (hfuel : l.length < fuel)
    (hd : DropRep h sb (some a) next (a :: l) rs) :
    ∃ h₂ sb₂, sbfreeChain fuel h sb a = some (h₂, sb₂) ∧ DropRep h₂ sb₂ none next [] rs ∧
      sb₂.mb = sb.mb ∧ sb₂.mbtail = sb.mbtail := by
  induction l generalizing h sb a fuel with
  | nil =>
    obtain ⟨fuel, rfl⟩ := Nat.exists_eq_add_one.2 hfuel
    have hnone : h.next a = none := hd.linked.2
    have hfree := hd.free
    rw [hnone] at hfree
    exact ⟨(mFree h a).1, sbfree sb (h.mbuf a), by simp [sbfreeChain, hnone], hfree, rfl, rfl⟩
  | cons b l ih =>
    obtain ⟨fuel, rfl⟩ := Nat.exists_eq_add_one.2 (Nat.zero_lt_of_lt hfuel)
    have hsome : h.next a = some b := hd.linked.2.1
    have hfree := hd.free
    rw [hsome] at hfree
    obtain ⟨h₂, sb₂, hrun, hd₂, hmb, htail⟩ := ih (by simpa using hfuel) hfree
    exact ⟨h₂, sb₂, by simpa [sbfreeChain, hsome] using hrun, hd₂, hmb, htail⟩

theorem sbdroprecord_spec (hr : SbRep h sb rs) :
    ∃ h₂ sb₂ rs₂, sbdroprecord h sb = some (h₂, sb₂) ∧ SbRep h₂ sb₂ rs₂ ∧
      (sb.mbtail = tailOf rs → sb₂.mbtail = tailOf rs₂) := by
  obtain ⟨cur, rs', hd, hmbufs, ht, -⟩ := hr.dropRep
  cases cur with
  | nil =>
    have hmb : sb.mb = none := hd.linked
    refine ⟨h, sbEmptyFixup sb, [], by simp [sbdroprecord, hmb], .empty ?_ ?_ ?_, fun _ => ?_⟩
    · simp [sbEmptyFixup, hmb]
    · simp [sbEmptyFixup, hmb]
    · intro c
      have hnil : rs = [] := by
        cases rs with
        | nil => rfl
        | cons r rs => exact absurd (hmb.symm.trans hr.heads.1) (by simp)
      have hc := hr.count c
      subst hnil
      simp only [sbEmptyFixup, hmb]
      cases c <;> exact hc
    · simp [sbEmptyFixup, hmb, tailOf]
  | cons a l =>
    have hmb : sb.mb = some a := hd.linked.1
    rw [hmb] at hd
    simp only [bind_some] at hd
    have hfuel : l.length < h.bound := by
      have := Kern.length_lt_bound ((nodup_append.1 hd.nodup).1) fun x hx =>
        hd.live x (mem_append_left _ hx)
      rw [length_cons] at this
      omega
    have hd' : DropRep h { sb with mb := h.nextpkt a } (some a) (h.nextpkt a) (a :: l) rs' :=
      { hd with
        count := by
          intro c
          have hc := hd.count c
          cases c <;> exact hc }
    obtain ⟨h₂, sb₂, hrun, hd₂, hmb₂, htail₂⟩ := sbfreeChain_spec hfuel hd'
    refine ⟨h₂, sbEmptyFixup sb₂, rs', ?_, ?_, ?_⟩
    · simp [sbdroprecord, hmb, hrun]
    · have hnext := hd₂.heads.eq_head?
      have hmbnext : sb₂.mb = h.nextpkt a := hmb₂
      cases rs' with
      | nil =>
        have hnone : sb₂.mb = none := hmbnext.trans hnext
        refine .empty (by simp [sbEmptyFixup, hnone]) (by simp [sbEmptyFixup, hnone]) fun c => ?_
        have hc := hd₂.count c
        simp only [sbEmptyFixup, hnone]
        cases c <;> exact hc
      | cons r rs' =>
        have hsome : sb₂.mb = some r.1 := hmbnext.trans hnext
        simp only [sbEmptyFixup, hsome]
        exact ⟨hmbnext ▸ hd₂.heads, hd₂.chain, hd₂.inner, hd₂.nodup, hd₂.live, hd₂.count,
          hd₂.last (cons_ne_nil _ _)⟩
    · intro hok
      have hmbnext : sb₂.mb = h.nextpkt a := hmb₂
      have hnext := hd₂.heads.eq_head?
      cases rs' with
      | nil =>
        have hnone : sb₂.mb = none := hmbnext.trans hnext
        simp [sbEmptyFixup, hnone, tailOf]
      | cons r rs' =>
        have hsome : sb₂.mb = some r.1 := hmbnext.trans hnext
        simp only [sbEmptyFixup, hsome]
        rw [htail₂]
        exact (ht hok).1 (cons_ne_nil _ _)

end Rep

end OpenBsd.Kern
