/-
  OpenBsd.Kern.UipcSocket2Rep

  Mbufs in memory: what they add to the counters of a socket buffer, their bytes and the
  marks `M_EOR` among them, and what `sbcompress` does to the record it fills.
-/

import OpenBsd.Lib.Linked
import OpenBsd.Kern.UipcSocket2
import Mathlib.Algebra.BigOperators.Group.List.Basic
import Mathlib.Data.BitVec
import Mathlib.Tactic.Ring

namespace OpenBsd.Kern

open OpenBsd.Lib List Function

/-! ## Counters -/

/-- The three counters of a buffer. -/
inductive SbCounter where
  | cc | datacc | mbcnt
  deriving DecidableEq

def Sockbuf.count {α : Type} (sb : Sockbuf α) : SbCounter → BitVec 64
  | .cc => sb.cc
  | .datacc => sb.datacc
  | .mbcnt => sb.mbcnt

/-- What an mbuf adds to a counter. -/
def Mbuf.weight (m : Mbuf) : SbCounter → Nat
  | .cc => m.len
  | .datacc => if m.isData then m.len else 0
  | .mbcnt => msize + m.extSize

@[simp] theorem weight_eor (m : Mbuf) (eor : Bool) (c : SbCounter) :
    ({ m with eor := eor } : Mbuf).weight c = m.weight c := by
  cases c <;> rfl

@[simp] theorem weight_zeroize (m : Mbuf) (z : Bool) (c : SbCounter) :
    ({ m with zeroize := z } : Mbuf).weight c = m.weight c := by
  cases c <;> rfl

section Counts

variable {α : Type} {sb : Sockbuf α} {c : SbCounter}

@[simp] theorem count_sballoc (m : Mbuf) :
    (sballoc sb m).count c = sb.count c + BitVec.ofNat 64 (m.weight c) := by
  cases c with
  | cc => rfl
  | datacc => by_cases h : m.isData <;> simp [Sockbuf.count, sballoc, Mbuf.weight, h]
  | mbcnt => simp [Sockbuf.count, sballoc, Mbuf.weight, BitVec.ofNat_add, BitVec.add_assoc]

theorem count_sbfree {m : Mbuf} {n : Nat}
    (h : sb.count c = BitVec.ofNat 64 (m.weight c + n)) :
    (sbfree sb m).count c = BitVec.ofNat 64 n := by
  cases c with
  | cc =>
    have hcc : sb.cc = BitVec.ofNat 64 (m.len + n) := h
    simp only [Sockbuf.count, sbfree, hcc, BitVec.ofNat_add]
    ring
  | datacc =>
    have hdata : sb.datacc = BitVec.ofNat 64 ((if m.isData then m.len else 0) + n) := h
    by_cases hm : m.isData
    · simp only [Sockbuf.count, sbfree, hdata, hm, if_true, BitVec.ofNat_add]
      ring
    · simp [Sockbuf.count, sbfree, hdata, hm]
  | mbcnt =>
    have hmb : sb.mbcnt = BitVec.ofNat 64 (msize + m.extSize + n) := h
    simp only [Sockbuf.count, sbfree, hmb, BitVec.ofNat_add]
    ring

theorem count_addBytes {n m : Mbuf} (h : n.mtype = m.mtype) :
    (sb.addBytes m m.len).count c + BitVec.ofNat 64 (n.weight c) =
      sb.count c + BitVec.ofNat 64 (({ n with data := n.data ++ m.data } : Mbuf).weight c) := by
  have htype : m.isData = n.isData := by simp [Mbuf.isData, h]
  have hlen : ({ n with data := n.data ++ m.data } : Mbuf).len = n.len + m.len :=
    length_append
  cases c with
  | cc =>
    simp only [Sockbuf.count, Sockbuf.addBytes, Mbuf.weight, hlen, BitVec.ofNat_add]
    ring
  | datacc =>
    have hdata : ({ n with data := n.data ++ m.data } : Mbuf).isData = n.isData := rfl
    by_cases hn : n.isData
    · simp only [Sockbuf.count, Sockbuf.addBytes, Mbuf.weight, htype, hdata, hn, if_true, hlen,
        BitVec.ofNat_add]
      ring
    · simp [Sockbuf.count, Sockbuf.addBytes, Mbuf.weight, htype, hdata, hn]
  | mbcnt => rfl

theorem count_subBytes {m : Mbuf} {len n off : Nat} (hlen : len ≤ m.len)
    (h : sb.count c = BitVec.ofNat 64 (m.weight c + n)) :
    (sb.subBytes m len).count c =
      BitVec.ofNat 64 (({ m with data := m.data.drop len, off := off } : Mbuf).weight c + n) := by
  have hsplit : m.len = len + ({ m with data := m.data.drop len, off := off } : Mbuf).len := by
    simp only [Mbuf.len] at hlen ⊢
    rw [length_drop]
    omega
  cases c with
  | cc =>
    have hcc : sb.cc = BitVec.ofNat 64 (m.len + n) := h
    simp only [Sockbuf.count, Sockbuf.subBytes, Mbuf.weight, hcc]
    rw [hsplit]
    simp only [BitVec.ofNat_add]
    ring
  | datacc =>
    have hdata : sb.datacc = BitVec.ofNat 64 ((if m.isData then m.len else 0) + n) := h
    have hsame : ({ m with data := m.data.drop len, off := off } : Mbuf).isData = m.isData := rfl
    by_cases hm : m.isData
    · simp only [Sockbuf.count, Sockbuf.subBytes, Mbuf.weight, hdata, hsame, hm, if_true]
      rw [hsplit]
      simp only [BitVec.ofNat_add]
      ring
    · simp [Sockbuf.count, Sockbuf.subBytes, Mbuf.weight, hdata, hsame, hm]
  | mbcnt => exact h

end Counts

/-! ## Memory -/

section Heap

variable {α : Type} {h : MbufHeap α} {a x : α} {m : Mbuf} {p : Option α}

/-- What the mbufs of a list add to a counter. -/
def weights (h : MbufHeap α) (c : SbCounter) (l : List α) : Nat :=
  (l.map fun a => (h.mbuf a).weight c).sum

@[simp] theorem weights_nil {c : SbCounter} : weights h c [] = 0 := rfl

@[simp] theorem weights_cons {c : SbCounter} {l : List α} :
    weights h c (a :: l) = (h.mbuf a).weight c + weights h c l := by
  simp [weights]

@[simp] theorem weights_append {c : SbCounter} {l l' : List α} :
    weights h c (l ++ l') = weights h c l + weights h c l' := by
  simp [weights]

theorem weights_congr {h' : MbufHeap α} {c : SbCounter} {l : List α}
    (heq : ∀ x ∈ l, (h'.mbuf x).weight c = (h.mbuf x).weight c) :
    weights h' c l = weights h c l := by
  rw [weights, weights, map_congr_left heq]

variable [DecidableEq α]

@[simp] theorem setMbuf_mbuf : (h.setMbuf a m).mbuf = update h.mbuf a m := rfl
@[simp] theorem setMbuf_next : (h.setMbuf a m).next = h.next := rfl
@[simp] theorem setMbuf_nextpkt : (h.setMbuf a m).nextpkt = h.nextpkt := rfl
@[simp] theorem setMbuf_live : (h.setMbuf a m).live = h.live := rfl
@[simp] theorem setMbuf_refs : (h.setMbuf a m).refs = h.refs := rfl

@[simp] theorem setNext_mbuf : (h.setNext a p).mbuf = h.mbuf := rfl
@[simp] theorem setNext_next : (h.setNext a p).next = update h.next a p := rfl
@[simp] theorem setNext_nextpkt : (h.setNext a p).nextpkt = h.nextpkt := rfl
@[simp] theorem setNext_live : (h.setNext a p).live = h.live := rfl
@[simp] theorem setNext_refs : (h.setNext a p).refs = h.refs := rfl

@[simp] theorem setNextpkt_mbuf : (h.setNextpkt a p).mbuf = h.mbuf := rfl
@[simp] theorem setNextpkt_next : (h.setNextpkt a p).next = h.next := rfl
@[simp] theorem setNextpkt_nextpkt :
    (h.setNextpkt a p).nextpkt = update h.nextpkt a p := rfl
@[simp] theorem setNextpkt_live : (h.setNextpkt a p).live = h.live := rfl
@[simp] theorem setNextpkt_refs : (h.setNextpkt a p).refs = h.refs := rfl

variable {e : Bool}

@[simp] theorem setEor_next : (h.setEor a e).next = h.next := rfl
@[simp] theorem setEor_nextpkt : (h.setEor a e).nextpkt = h.nextpkt := rfl
@[simp] theorem setEor_live : (h.setEor a e).live = h.live := rfl
@[simp] theorem setEor_refs : (h.setEor a e).refs = h.refs := rfl
@[simp] theorem setEor_mbuf :
    (h.setEor a e).mbuf = update h.mbuf a { h.mbuf a with eor := e } := rfl

@[simp] theorem copyInto_next {n m : α} : (h.copyInto n m).next = h.next := rfl
@[simp] theorem copyInto_nextpkt {n m : α} : (h.copyInto n m).nextpkt = h.nextpkt := rfl
@[simp] theorem copyInto_live {n m : α} : (h.copyInto n m).live = h.live := rfl
@[simp] theorem copyInto_refs {n m : α} : (h.copyInto n m).refs = h.refs := rfl
@[simp] theorem copyInto_mbuf {n m : α} : (h.copyInto n m).mbuf =
    update h.mbuf n { h.mbuf n with data := (h.mbuf n).data ++ (h.mbuf m).data } := rfl

@[simp] theorem mFree_snd : (mFree h a).2 = h.next a := rfl

@[simp] theorem mFree_next : (mFree h a).1.next = h.next := by
  simp only [mFree, MbufHeap.poolPut]
  split <;> [cases h.next a <;> rfl; rfl]

@[simp] theorem mFree_nextpkt : (mFree h a).1.nextpkt = h.nextpkt := by
  simp only [mFree, MbufHeap.poolPut]
  split <;> [cases h.next a <;> rfl; rfl]

@[simp] theorem mFree_live : (mFree h a).1.live = h.live.erase a := by
  simp only [mFree, MbufHeap.poolPut]
  split <;> [cases h.next a <;> rfl; rfl]

@[simp] theorem mFree_refs : (mFree h a).1.refs = dropRef h.refs (h.mbuf a) := rfl

theorem mFree_mbuf (h : MbufHeap α) (a x : α) :
    ∃ z, (mFree h a).1.mbuf x = { h.mbuf x with zeroize := z } := by
  simp only [mFree, MbufHeap.poolPut, MbufHeap.zeroizeOf]
  split
  · cases h.next a with
    | none => exact ⟨_, rfl⟩
    | some n =>
      by_cases hx : x = n
      · subst hx
        exact ⟨true, by simp⟩
      · exact ⟨(h.mbuf x).zeroize, by simp [hx]⟩
  · exact ⟨_, rfl⟩

theorem mFree_mbuf_of_ne (hx : h.next a ≠ some x) : (mFree h a).1.mbuf x = h.mbuf x := by
  simp only [mFree, MbufHeap.poolPut, MbufHeap.zeroizeOf]
  split
  · cases hn : h.next a with
    | none => rfl
    | some n =>
      have hne : x ≠ n := by
        rintro rfl
        exact hx hn
      simp [hne]
  · rfl

@[simp] theorem mFree_weight {c : SbCounter} :
    ((mFree h a).1.mbuf x).weight c = (h.mbuf x).weight c := by
  obtain ⟨z, hz⟩ := mFree_mbuf h a x
  rw [hz, weight_zeroize]

@[simp] theorem weights_mFree {c : SbCounter} {l : List α} :
    weights (mFree h a).1 c l = weights h c l :=
  weights_congr fun _ _ => mFree_weight

end Heap

/-! ## Bytes and marks -/

section Bytes

variable {α : Type}

def bytesOf (h : MbufHeap α) (l : List α) : List UInt8 := l.flatMap fun a => (h.mbuf a).data

/-- Where the marks of a chain stand: the number of bytes in front of each. -/
def marksOf (h : MbufHeap α) : List α → Finset Nat
  | [] => ∅
  | a :: l =>
    (if (h.mbuf a).eor then {(h.mbuf a).len} else ∅) ∪
      (marksOf h l).image ((h.mbuf a).len + ·)

/-- A mark behind these bytes, if there is one. -/
def endMark (bytes : List UInt8) (eor : Bool) : Finset Nat := if eor then {bytes.length} else ∅

def anyEor (h : MbufHeap α) (l : List α) : Bool := l.any fun a => (h.mbuf a).eor

variable {h h' : MbufHeap α} {a : α} {l l' : List α}

@[simp] theorem bytesOf_nil : bytesOf h [] = [] := rfl

@[simp] theorem bytesOf_cons : bytesOf h (a :: l) = (h.mbuf a).data ++ bytesOf h l := rfl

@[simp] theorem bytesOf_append : bytesOf h (l ++ l') = bytesOf h l ++ bytesOf h l' := by
  simp [bytesOf]

theorem bytesOf_congr (heq : ∀ x ∈ l, (h'.mbuf x).data = (h.mbuf x).data) :
    bytesOf h' l = bytesOf h l := by
  rw [bytesOf, bytesOf, flatMap_def, flatMap_def, map_congr_left heq]

theorem length_bytesOf (h : MbufHeap α) (l : List α) : (bytesOf h l).length = weights h .cc l := by
  induction l with
  | nil => rfl
  | cons a l ih => rw [bytesOf_cons, length_append, ih, weights_cons]; rfl

theorem marksOf_cons : marksOf h (a :: l) = (if (h.mbuf a).eor then {(h.mbuf a).len} else ∅) ∪
    (marksOf h l).image ((h.mbuf a).len + ·) := rfl

theorem marksOf_append (h : MbufHeap α) (l l' : List α) :
    marksOf h (l ++ l') = marksOf h l ∪ (marksOf h l').image ((bytesOf h l).length + ·) := by
  induction l with
  | nil => simp [marksOf]
  | cons a l ih =>
    have hcomp : ((h.mbuf a).len + ·) ∘ ((bytesOf h l).length + ·)
        = ((bytesOf h (a :: l)).length + ·) := by
      funext k
      simp [Mbuf.len, Nat.add_assoc]
    rw [cons_append, marksOf_cons, ih, Finset.image_union, Finset.image_image, hcomp, marksOf_cons,
      Finset.union_assoc]

theorem marksOf_congr (heq : ∀ x ∈ l, (h'.mbuf x).data = (h.mbuf x).data ∧
    (h'.mbuf x).eor = (h.mbuf x).eor) : marksOf h' l = marksOf h l := by
  induction l with
  | nil => rfl
  | cons a l ih =>
    obtain ⟨hdata, heor⟩ := heq a mem_cons_self
    have hlen : (h'.mbuf a).len = (h.mbuf a).len := congrArg List.length hdata
    rw [marksOf_cons, marksOf_cons, ih fun x hx => heq x (mem_cons_of_mem a hx), hlen, heor]

theorem anyEor_cons : anyEor h (a :: l) = ((h.mbuf a).eor || anyEor h l) := rfl

theorem anyEor_congr (heq : ∀ x ∈ l, (h'.mbuf x).eor = (h.mbuf x).eor) :
    anyEor h' l = anyEor h l := by
  induction l with
  | nil => rfl
  | cons a l ih =>
    rw [anyEor_cons, anyEor_cons, heq a mem_cons_self, ih fun x hx => heq x (mem_cons_of_mem a hx)]

theorem marksOf_eq_empty_iff : marksOf h l = ∅ ↔ anyEor h l = false := by
  induction l with
  | nil => exact iff_of_true rfl rfl
  | cons a l ih =>
    have hany : anyEor h (a :: l) = ((h.mbuf a).eor || anyEor h l) := rfl
    rw [marksOf_cons, Finset.union_eq_empty, Finset.image_eq_empty, ih, hany, Bool.or_eq_false_iff]
    by_cases heor : (h.mbuf a).eor = true
    · simp [heor]
    · simp [heor]

theorem marksOf_singleton (h : MbufHeap α) (a : α) :
    marksOf h [a] = endMark (h.mbuf a).data (h.mbuf a).eor := by
  simp [marksOf, endMark, Mbuf.len]

theorem marksOf_cons_of_noEor (hl : ∀ x ∈ l, (h.mbuf x).eor = false) :
    marksOf h (a :: l) = endMark (h.mbuf a).data (h.mbuf a).eor := by
  have hempty : marksOf h l = ∅ := by
    rw [marksOf_eq_empty_iff, anyEor, any_eq_false]
    intro x hx
    rw [hl x hx]
    exact Bool.false_ne_true
  rw [marksOf_cons, hempty, Finset.image_empty, Finset.union_empty]
  rfl

variable [DecidableEq α]

@[simp] theorem mFree_data (h : MbufHeap α) (a x : α) :
    ((mFree h a).1.mbuf x).data = (h.mbuf x).data := by
  obtain ⟨z, hz⟩ := mFree_mbuf h a x
  rw [hz]

@[simp] theorem mFree_eor (h : MbufHeap α) (a x : α) :
    ((mFree h a).1.mbuf x).eor = (h.mbuf x).eor := by
  obtain ⟨z, hz⟩ := mFree_mbuf h a x
  rw [hz]

@[simp] theorem bytesOf_mFree : bytesOf (mFree h a).1 l = bytesOf h l :=
  bytesOf_congr fun x _ => mFree_data h a x

theorem marksOf_setEor_last {b : α} (hb : b ∉ l) :
    marksOf (h.setEor b true) (l ++ [b])
      = marksOf h (l ++ [b]) ∪ endMark (bytesOf h (l ++ [b])) true := by
  have hsame : ∀ x ∈ l, ((h.setEor b true).mbuf x).data = (h.mbuf x).data ∧
      ((h.setEor b true).mbuf x).eor = (h.mbuf x).eor := by
    intro x hx
    have hxb : x ≠ b := by
      rintro rfl
      exact hb hx
    rw [setEor_mbuf, update_of_ne hxb]
    exact ⟨rfl, rfl⟩
  rw [marksOf_append, marksOf_append, marksOf_congr hsame, bytesOf_congr fun x hx => (hsame x hx).1,
    marksOf_singleton, marksOf_singleton, setEor_mbuf, update_self, bytesOf_append]
  simp only [endMark, if_true, Finset.image_singleton, bytesOf_cons, bytesOf_nil, append_nil,
    length_append]
  by_cases heor : (h.mbuf b).eor = true
  · simp [heor]
  · simp [heor]

end Bytes

/-! ## What sbcompress does -/

/-- `sbcompress` leaves nothing of the chain but what it puts into `n`: every mbuf is
    discarded or copied. -/
def absorbs (refs : Nat → Nat) (n : Mbuf) (eor : Bool) : List Mbuf → Bool
  | [] => true
  | m :: ms =>
    if discards (eor || m.eor) m (ms.head?.or (some n)) then
      absorbs (dropRef refs m) n (eor || m.eor) ms
    else
      coalesces refs n m &&
        absorbs (dropRef refs m) { n with data := n.data ++ m.data } (eor || m.eor) ms

section Compress

variable {α : Type}

theorem absorbs_congr {h h' : MbufHeap α} {refs : Nat → Nat} {n : Mbuf} {eor : Bool} {l : List α}
    (heq : ∀ x ∈ l, ∃ z, h'.mbuf x = { h.mbuf x with zeroize := z }) :
    absorbs refs n eor (l.map h'.mbuf) = absorbs refs n eor (l.map h.mbuf) := by
  induction l generalizing refs n eor with
  | nil => rfl
  | cons a l ih =>
    obtain ⟨z, hz⟩ := heq a mem_cons_self
    have hrest : ∀ x ∈ l, ∃ z, h'.mbuf x = { h.mbuf x with zeroize := z } := fun x hx =>
      heq x (mem_cons_of_mem a hx)
    have hhead : discards (eor || (h.mbuf a).eor) (h'.mbuf a) ((l.map h'.mbuf).head?.or (some n)) =
        discards (eor || (h.mbuf a).eor) (h.mbuf a) ((l.map h.mbuf).head?.or (some n)) := by
      cases l with
      | nil => rw [hz]; rfl
      | cons b l =>
        obtain ⟨w, hw⟩ := hrest b mem_cons_self
        simp only [map_cons, head?_cons, Option.some_or, discards, hz, hw, Mbuf.len,
          Option.any_some]
    have heor : (h'.mbuf a).eor = (h.mbuf a).eor := by rw [hz]
    have hdrop : dropRef refs (h'.mbuf a) = dropRef refs (h.mbuf a) := by rw [hz]; rfl
    have hco : coalesces refs n (h'.mbuf a) = coalesces refs n (h.mbuf a) := by rw [hz]; rfl
    have hdata : (h'.mbuf a).data = (h.mbuf a).data := by rw [hz]
    simp only [map_cons, absorbs, heor, hhead, hdrop, hco, hdata, ih hrest]

/-- The chain `ms` is compressed behind the mbuf `a`, and `links` is what stays of it. -/
structure Compressed (h : MbufHeap α) (sb : Sockbuf α) (a : α) (ms : List α)
    (h' : MbufHeap α) (sb' : Sockbuf α) (links : List α) : Prop where
  sub : links.Sublist ms
  linked : LinkedList h'.next (h'.next a) links
  next_eq : ∀ x, x ≠ a → x ∉ ms → h'.next x = h.next x
  nextpkt_eq : h'.nextpkt = h.nextpkt
  mbuf_eq : ∀ x, x ≠ a → x ∉ ms → h'.mbuf x = h.mbuf x
  live : ∀ x ∈ h.live, (x ∈ ms → x ∈ links) → x ∈ h'.live
  count : ∀ c, sb'.count c + BitVec.ofNat 64 ((h.mbuf a).weight c) =
    sb.count c + BitVec.ofNat 64 (weights h' c (a :: links))
  mb : sb'.mb = sb.mb
  lastrecord : sb'.lastrecord = sb.lastrecord
  mbtail : sb'.mbtail = links.getLast?.or sb.mbtail

variable {h h₁ h' : MbufHeap α} {sb sb₁ sb' : Sockbuf α} {a x : α} {ms links : List α}

theorem Compressed.nil (hnext : h.next a = none) : Compressed h sb a [] h sb [] where
  sub := List.Sublist.slnil
  linked := hnext
  next_eq := fun _ _ _ => rfl
  nextpkt_eq := rfl
  mbuf_eq := fun _ _ _ => rfl
  live := fun _ hx _ => hx
  count := by simp
  mb := rfl
  lastrecord := rfl
  mbtail := rfl

variable [DecidableEq α]

/-- The mbuf `x` is freed, and its bytes go to `a` if it has any. -/
theorem Compressed.gone (hx : x ∉ ms) (hnext : h₁.next = h.next) (hpkt : h₁.nextpkt = h.nextpkt)
    (hmbuf : ∀ y, y ≠ a → y ∉ x :: ms → h₁.mbuf y = h.mbuf y) (hlive : h₁.live = h.live.erase x)
    (hcount : ∀ c, sb₁.count c + BitVec.ofNat 64 ((h.mbuf a).weight c) =
      sb.count c + BitVec.ofNat 64 ((h₁.mbuf a).weight c))
    (hmb : sb₁.mb = sb.mb) (hlast : sb₁.lastrecord = sb.lastrecord)
    (htail : sb₁.mbtail = sb.mbtail) (hrest : Compressed h₁ sb₁ a ms h' sb' links) :
    Compressed h sb a (x :: ms) h' sb' links where
  sub := hrest.sub.cons x
  linked := hrest.linked
  next_eq := by
    intro y hya hy
    rw [hrest.next_eq y hya (not_mem_of_not_mem_cons hy), hnext]
  nextpkt_eq := hrest.nextpkt_eq.trans hpkt
  mbuf_eq := by
    intro y hya hy
    rw [hrest.mbuf_eq y hya (not_mem_of_not_mem_cons hy), hmbuf y hya hy]
  live := by
    intro y hy hlinks
    have hne : y ≠ x := by
      rintro rfl
      exact hx (hrest.sub.subset (hlinks mem_cons_self))
    refine hrest.live y ?_ fun hym => hlinks (mem_cons_of_mem x hym)
    rw [hlive]
    exact (mem_erase_of_ne hne).2 hy
  count := by
    intro c
    have h₁c := hcount c
    have h₂c := hrest.count c
    have hsum : sb'.count c + BitVec.ofNat 64 ((h.mbuf a).weight c) +
        (sb₁.count c + BitVec.ofNat 64 ((h₁.mbuf a).weight c)) =
        sb.count c + BitVec.ofNat 64 (weights h' c (a :: links)) +
          (sb₁.count c + BitVec.ofNat 64 ((h₁.mbuf a).weight c)) := by
      calc _ = (sb'.count c + BitVec.ofNat 64 ((h₁.mbuf a).weight c)) +
            (sb₁.count c + BitVec.ofNat 64 ((h.mbuf a).weight c)) := by ring
        _ = _ := by rw [h₁c, h₂c]; ring
    exact add_right_cancel hsum
  mb := hrest.mb.trans hmb
  lastrecord := hrest.lastrecord.trans hlast
  mbtail := by rw [hrest.mbtail, htail]

/-- The mbuf `x` is put behind `a`, and the rest of the chain goes behind `x`. -/
theorem Compressed.link (hax : a ≠ x) (ha : a ∉ ms) (hx : x ∉ ms)
    (hrest : Compressed ((linkMbuf h sb x (some a)).1.setNext x none)
      (linkMbuf h sb x (some a)).2 x ms h' sb' links) :
    Compressed h sb a (x :: ms) h' sb' (x :: links) where
  sub := hrest.sub.cons_cons x
  linked := by
    refine ⟨?_, hrest.linked⟩
    rw [hrest.next_eq a hax ha]
    simp [linkMbuf, hax]
  next_eq := by
    intro y hya hy
    have hyx : y ≠ x := ne_of_not_mem_cons hy
    rw [hrest.next_eq y hyx (not_mem_of_not_mem_cons hy)]
    simp [linkMbuf, hya, hyx]
  nextpkt_eq := hrest.nextpkt_eq
  mbuf_eq := by
    intro y hya hy
    have hyx : y ≠ x := ne_of_not_mem_cons hy
    rw [hrest.mbuf_eq y hyx (not_mem_of_not_mem_cons hy)]
    simp [linkMbuf, hyx]
  live := by
    intro y hy hlinks
    refine hrest.live y hy fun hym => ?_
    have hne : y ≠ x := by
      rintro rfl
      exact hx hym
    exact mem_of_ne_of_mem hne (hlinks (mem_cons_of_mem x hym))
  count := by
    intro c
    have hc := hrest.count c
    have hx' : (((linkMbuf h sb x (some a)).1.setNext x none).mbuf x).weight c =
        (h.mbuf x).weight c := by
      simp [linkMbuf]
    have hsb : (linkMbuf h sb x (some a)).2.count c =
        sb.count c + BitVec.ofNat 64 ((h.mbuf x).weight c) := by
      simp only [linkMbuf, count_sballoc]
      rfl
    have ha' : h'.mbuf a = h.mbuf a := by
      rw [hrest.mbuf_eq a hax ha]
      simp [linkMbuf, hax]
    rw [hx', hsb] at hc
    rw [weights_cons, ha', BitVec.ofNat_add]
    have hc' : sb'.count c = sb.count c + BitVec.ofNat 64 (weights h' c (x :: links)) := by
      refine add_right_cancel (hc.trans ?_)
      ring
    rw [hc']
    ring
  mb := hrest.mb
  lastrecord := hrest.lastrecord
  mbtail := by
    rw [hrest.mbtail]
    cases hl : links.getLast? with
    | none =>
      have hnil := getLast?_eq_none_iff.1 hl
      subst hnil
      rfl
    | some t => simp [getLast?_cons, hl]

theorem Compressed.setEor (hc : Compressed h sb a ms h' sb' links) {b : α} {e : Bool}
    (hb : b = a ∨ b ∈ ms) : Compressed h sb a ms (h'.setEor b e) sb' links :=
  { hc with
    mbuf_eq := by
      intro x hxa hx
      have hxb : x ≠ b := by
        rintro rfl
        exact hb.elim hxa hx
      rw [setEor_mbuf, update_of_ne hxb]
      exact hc.mbuf_eq x hxa hx
    count := by
      intro c
      have hsame : weights (h'.setEor b e) c (a :: links) = weights h' c (a :: links) := by
        refine weights_congr fun x _ => ?_
        by_cases hxb : x = b
        · subst hxb
          simp
        · simp [hxb]
      rw [hc.count c, hsame] }

theorem Compressed.of_setEor {b : α} {e : Bool} (hb : b = a ∨ b ∈ ms)
    (hc : Compressed (h.setEor b e) sb a ms h' sb' links) : Compressed h sb a ms h' sb' links :=
  { hc with
    mbuf_eq := by
      intro x hxa hx
      have hxb : x ≠ b := by
        rintro rfl
        exact hb.elim hxa hx
      rw [hc.mbuf_eq x hxa hx, setEor_mbuf, update_of_ne hxb]
    count := by
      intro c
      rw [← hc.count c]
      by_cases hab : a = b
      · subst hab
        simp
      · simp [hab] }

/-- What the loop of `sbcompress` leaves in the mbuf `a` and behind it. -/
structure Absorbed (h : MbufHeap α) (a : α) (ms : List α) (eor : Bool)
    (r : MbufHeap α × Sockbuf α × Option α × Bool) (links : List α) : Prop where
  bytes : bytesOf r.1 (a :: links) = (h.mbuf a).data ++ bytesOf h ms
  links_eor : ∀ y ∈ links, (r.1.mbuf y).eor = false
  first_eor : (r.1.mbuf a).eor = (h.mbuf a).eor
  first_data : (h.mbuf a).eor = true → (r.1.mbuf a).data = (h.mbuf a).data
  last : r.2.2.1 = some (links.getLastD a)
  eor_eq : r.2.2.2 = (eor || anyEor h ms)

variable {eor : Bool} {r : MbufHeap α × Sockbuf α × Option α × Bool}

omit [DecidableEq α] in
/-- The mbuf `x` is freed, and its bytes go to `a` if it has any. -/
theorem Absorbed.gone (hdata : (h₁.mbuf a).data = (h.mbuf a).data ++ (h.mbuf x).data)
    (heor : (h₁.mbuf a).eor = (h.mbuf a).eor)
    (hkeep : (h.mbuf a).eor = true → (h.mbuf x).data = [])
    (hms : ∀ y ∈ ms, (h₁.mbuf y).data = (h.mbuf y).data ∧ (h₁.mbuf y).eor = (h.mbuf y).eor)
    (hrest : Absorbed h₁ a ms (eor || (h.mbuf x).eor) r links) :
    Absorbed h a (x :: ms) eor r links where
  bytes := by
    rw [hrest.bytes, hdata, bytesOf_cons, bytesOf_congr fun y hy => (hms y hy).1, append_assoc]
  links_eor := hrest.links_eor
  first_eor := hrest.first_eor.trans heor
  first_data := by
    intro he
    rw [hrest.first_data (heor.trans he), hdata, hkeep he, append_nil]
  last := hrest.last
  eor_eq := by
    rw [hrest.eor_eq, anyEor_cons, Bool.or_assoc, anyEor_congr fun y hy => (hms y hy).2]

/-- The mbuf `x` is put behind `a`, and the rest of the chain goes behind `x`. -/
theorem Absorbed.link {n : Option α} {e : Bool} (hax : a ≠ x) (ha : a ∉ ms) (hx : x ∉ ms)
    (hc : Compressed ((linkMbuf h sb x (some a)).1.setNext x none)
      (linkMbuf h sb x (some a)).2 x ms h' sb' links)
    (hrest : Absorbed ((linkMbuf h sb x (some a)).1.setNext x none) x ms (eor || (h.mbuf x).eor)
      (h', sb', n, e) links) :
    Absorbed h a (x :: ms) eor (h', sb', n, e) (x :: links) := by
  have hsame : h'.mbuf a = h.mbuf a := by
    rw [hc.mbuf_eq a hax ha]
    simp [linkMbuf, hax]
  have hfirst : ((linkMbuf h sb x (some a)).1.setNext x none).mbuf x =
      { h.mbuf x with eor := false } := by
    simp [linkMbuf]
  have hother : ∀ y ∈ ms, ((linkMbuf h sb x (some a)).1.setNext x none).mbuf y = h.mbuf y := by
    intro y hy
    have hyx : y ≠ x := ne_of_mem_of_not_mem hy hx
    simp [linkMbuf, hyx]
  refine ⟨?_, fun y hy => ?_, congrArg Mbuf.eor hsame, fun _ => congrArg Mbuf.data hsame,
    hrest.last.trans (by rw [getLastD_cons]), ?_⟩
  · rw [bytesOf_cons, hsame, hrest.bytes, hfirst, bytesOf_cons,
      bytesOf_congr fun y hy => congrArg Mbuf.data (hother y hy)]
  · rcases mem_cons.1 hy with rfl | hy
    · rw [hrest.first_eor, hfirst]
    · exact hrest.links_eor y hy
  · rw [hrest.eor_eq, anyEor_cons, Bool.or_assoc,
      anyEor_congr fun y hy => congrArg Mbuf.eor (hother y hy)]

theorem Absorbed.marks (hab : Absorbed h a ms eor r links) (hnodup : (a :: links).Nodup) :
    marksOf (if r.2.2.2 then r.1.setEor (links.getLastD a) true else r.1) (a :: links)
      = endMark (h.mbuf a).data (h.mbuf a).eor
        ∪ endMark ((h.mbuf a).data ++ bytesOf h ms) (eor || anyEor h ms) := by
  have hfirst : marksOf r.1 (a :: links) = endMark (h.mbuf a).data (h.mbuf a).eor := by
    rw [marksOf_cons_of_noEor hab.links_eor, hab.first_eor]
    cases heor : (h.mbuf a).eor with
    | false => rfl
    | true => rw [hab.first_data heor]
  rw [hab.eor_eq]
  cases eor || anyEor h ms with
  | false => simpa [endMark] using hfirst
  | true =>
    obtain ⟨l₀, hl₀⟩ : ∃ l₀, a :: links = l₀ ++ [links.getLastD a] := by
      refine ⟨(a :: links).dropLast, ?_⟩
      have hsplit := dropLast_append_getLast (cons_ne_nil a links)
      rw [getLast_eq_getLastD] at hsplit
      exact hsplit.symm
    have hout : links.getLastD a ∉ l₀ := by
      intro hmem
      rw [hl₀, nodup_append] at hnodup
      exact hnodup.2.2 _ hmem _ mem_cons_self rfl
    rw [if_pos rfl, hl₀, marksOf_setEor_last hout, ← hl₀, hfirst, hab.bytes]

theorem Absorbed.bytes_setEor (hab : Absorbed h a ms eor r links) :
    bytesOf (if r.2.2.2 then r.1.setEor (links.getLastD a) true else r.1) (a :: links)
      = (h.mbuf a).data ++ bytesOf h ms := by
  rw [← hab.bytes]
  refine bytesOf_congr fun x _ => ?_
  split
  · by_cases hxb : x = links.getLastD a
    · rw [setEor_mbuf, hxb, update_self]
    · rw [setEor_mbuf, update_of_ne hxb]
  · rfl

/-- The loop of `sbcompress` behind the mbuf `a`, on a chain that is not in the buffer. -/
theorem sbcompressLoop_spec {fuel : Nat} {m : Option α} (eor : Bool) (hfuel : ms.length < fuel)
    (hm : LinkedList h.next m ms) (hnext : h.next a = none) (hnodup : (a :: ms).Nodup)
    (hlast : ∀ x ∈ ms, sb.lastrecord ≠ some x) :
    ∃ h' sb' n eor' links, sbcompressLoop fuel h sb m (some a) eor = some (h', sb', n, eor') ∧
      Compressed h sb a ms h' sb' links ∧ Absorbed h a ms eor (h', sb', n, eor') links ∧
      (links = [] ↔ absorbs h.refs (h.mbuf a) eor (ms.map h.mbuf) = true) := by
  -- one mbuf of the chain in each iteration, whatever becomes of it
  induction ms generalizing fuel h sb m a eor with
  | nil =>
    obtain ⟨fuel, rfl⟩ := Nat.exists_eq_add_one.2 hfuel
    have hm' : m = none := hm
    subst hm'
    exact ⟨h, sb, some a, eor, [], rfl, .nil hnext,
      ⟨rfl, by simp, rfl, fun _ => rfl, rfl, (Bool.or_false eor).symm⟩, by simp [absorbs]⟩
  | cons x ms ih =>
    obtain ⟨fuel, rfl⟩ := Nat.exists_eq_add_one.2 (Nat.zero_lt_of_lt hfuel)
    obtain ⟨rfl, hms⟩ := hm
    have hlen : ms.length < fuel := by simpa using hfuel
    obtain ⟨hax, ha⟩ : a ≠ x ∧ a ∉ ms := by simpa using (nodup_cons.1 hnodup).1
    have hxms : (x :: ms).Nodup := (nodup_cons.1 hnodup).2
    have hx : x ∉ ms := (nodup_cons.1 hxms).1
    have hams : (a :: ms).Nodup := nodup_cons.2 ⟨ha, (nodup_cons.1 hxms).2⟩
    have hlast' : ∀ y ∈ ms, sb.lastrecord ≠ some y := fun y hy =>
      hlast y (mem_cons_of_mem x hy)
    have hne : ∀ y ∈ ms, y ≠ a := fun y hy => ne_of_mem_of_not_mem hy ha
    have hhead : ((h.next x).or (some a)).map h.mbuf =
        ((ms.map h.mbuf).head?.or (some (h.mbuf a))) := by
      rw [hms.eq_head?]
      cases ms <;> rfl
    have hnotnext : ∀ y, y ∉ ms → h.next x ≠ some y := by
      intro y hy e
      rw [hms.eq_head?] at e
      exact hy (mem_of_mem_head? e)
    simp only [sbcompressLoop, map_cons, absorbs, hhead]
    by_cases hdis : discards (eor || (h.mbuf x).eor) (h.mbuf x)
        ((ms.map h.mbuf).head?.or (some (h.mbuf a))) = true
    · -- discarded, without bytes
      have hempty : (h.mbuf x).data = [] := by
        simp only [discards, Bool.and_eq_true, beq_iff_eq] at hdis
        exact eq_nil_of_length_eq_zero hdis.1
      have hskip : sb.skipLast x (h.next x) = sb := by
        simp only [Sockbuf.skipLast, if_neg (hlast x mem_cons_self)]
      obtain ⟨h', sb', n, eor', links, hrun, hcomp, hab, habs⟩ :=
        @ih (mFree h x).1 sb a fuel (h.next x) (eor || (h.mbuf x).eor) hlen
          (by simpa using hms) (by simpa using hnext) hams hlast'
      refine ⟨h', sb', n, eor', links, ?_, ?_, hab.gone ?_ ?_ (fun _ => hempty) ?_, ?_⟩
      · rw [if_pos hdis, hskip]
        exact hrun
      · refine hcomp.gone hx mFree_next mFree_nextpkt ?_ mFree_live (fun c => by simp) rfl rfl rfl
        intro y _ hy
        exact mFree_mbuf_of_ne (hnotnext y (not_mem_of_not_mem_cons hy))
      · rw [mFree_data, hempty, append_nil]
      · rw [mFree_eor]
      · exact fun y _ => ⟨mFree_data h x y, mFree_eor h x y⟩
      · rw [if_pos hdis, habs, absorbs_congr fun y _ => mFree_mbuf h x y,
          mFree_mbuf_of_ne (hnotnext a ha), mFree_refs]
    · rw [if_neg hdis, if_neg hdis]
      by_cases hco : coalesces h.refs (h.mbuf a) (h.mbuf x) = true
      · -- copied into `a`
        obtain ⟨heor, htype⟩ : (h.mbuf a).eor = false ∧ (h.mbuf a).mtype = (h.mbuf x).mtype := by
          simp only [coalesces, Bool.and_eq_true, Bool.not_eq_true', beq_iff_eq] at hco
          exact ⟨hco.1.1.1, hco.2⟩
        obtain ⟨h', sb', n, eor', links, hrun, hcomp, hab, habs⟩ :=
          @ih (mFree (h.copyInto a x) x).1 (sb.addBytes (h.mbuf x) (h.mbuf x).len) a fuel (h.next x)
            (eor || (h.mbuf x).eor) hlen (by simpa using hms) (by simpa using hnext) hams hlast'
        have hmbuf : ∀ y, y ∉ ms → (mFree (h.copyInto a x) x).1.mbuf y =
            (h.copyInto a x).mbuf y := fun y hy => mFree_mbuf_of_ne (hnotnext y hy)
        have hlist : ∀ y ∈ ms, ∃ z, (mFree (h.copyInto a x) x).1.mbuf y =
            { h.mbuf y with zeroize := z } := by
          intro y hy
          obtain ⟨z, hz⟩ := mFree_mbuf (h.copyInto a x) x y
          rw [copyInto_mbuf, update_of_ne (hne y hy)] at hz
          exact ⟨z, hz⟩
        have hself : (mFree (h.copyInto a x) x).1.mbuf a =
            { h.mbuf a with data := (h.mbuf a).data ++ (h.mbuf x).data } := by
          rw [hmbuf a ha, copyInto_mbuf, update_self]
        refine ⟨h', sb', n, eor', links, ?_, ?_, hab.gone (by rw [hself]) (by rw [hself]) ?_ ?_, ?_⟩
        · simp only [Option.filter_some, hco, if_true]
          exact hrun
        · refine Compressed.gone hx ?_ ?_ ?_ ?_ ?_ ?_ ?_ ?_ hcomp
          · exact mFree_next
          · exact mFree_nextpkt
          · intro y hya hy
            rw [hmbuf y (not_mem_of_not_mem_cons hy), copyInto_mbuf, update_of_ne hya]
          · exact mFree_live
          · intro c
            rw [hself]
            exact count_addBytes htype
          all_goals rfl
        · intro heor'
          rw [heor] at heor'
          cases heor'
        · intro y hy
          obtain ⟨z, hz⟩ := hlist y hy
          rw [hz]
          exact ⟨rfl, rfl⟩
        · rw [habs, absorbs_congr hlist, hself, hco, Bool.true_and, mFree_refs, copyInto_mbuf,
            update_of_ne hax.symm, copyInto_refs]
      · -- put behind `a`
        have hrest : LinkedList ((linkMbuf h sb x (some a)).1.setNext x none).next (h.next x) ms := by
          refine hms.congr fun y hy => ?_
          have hyx : y ≠ x := ne_of_mem_of_not_mem hy hx
          simp [linkMbuf, hne y hy, hyx]
        obtain ⟨h', sb', n, eor', links, hrun, hcomp, hab, -⟩ :=
          @ih ((linkMbuf h sb x (some a)).1.setNext x none) (linkMbuf h sb x (some a)).2 x fuel
            (h.next x) (eor || (h.mbuf x).eor) hlen hrest (by simp) hxms hlast'
        refine ⟨h', sb', n, eor', x :: links, ?_, hcomp.link hax ha hx, hab.link hax ha hx hcomp,
          by simp [hco]⟩
        have hnx : (linkMbuf h sb x (some a)).1.next x = h.next x := by
          simp [linkMbuf, hax.symm]
        simp only [Option.filter_some, hco, if_false, hnx, Bool.false_eq_true]
        exact hrun

omit [DecidableEq α] in
theorem length_lt_bound {l : List α} (hnodup : l.Nodup) (hlive : ∀ x ∈ l, x ∈ h.live) :
    l.length < h.bound :=
  Nat.lt_succ_of_le (hnodup.subperm hlive).length_le

theorem sbcompress_spec {m : Option α} (hm : LinkedList h.next m ms) (hnext : h.next a = none)
    (hnodup : (a :: ms).Nodup) (hlive : ∀ x ∈ ms, x ∈ h.live)
    (hlast : ∀ x ∈ ms, sb.lastrecord ≠ some x) :
    ∃ h' sb' links, sbcompress h sb m (some a) = some (h', sb') ∧
      Compressed h sb a ms h' sb' links ∧
      bytesOf h' (a :: links) = (h.mbuf a).data ++ bytesOf h ms ∧
      marksOf h' (a :: links) = endMark (h.mbuf a).data (h.mbuf a).eor
        ∪ endMark ((h.mbuf a).data ++ bytesOf h ms) (anyEor h ms) ∧
      (links = [] ↔ absorbs h.refs (h.mbuf a) false (ms.map h.mbuf) = true) := by
  have hfuel := length_lt_bound (nodup_cons.1 hnodup).2 hlive
  obtain ⟨h', sb', n, eor, links, hrun, hcomp, hab, habs⟩ :=
    sbcompressLoop_spec false hfuel hm hnext hnodup hlast
  obtain rfl : n = some (links.getLastD a) := hab.last
  have hlinks : (a :: links).Nodup := hnodup.sublist (hcomp.sub.cons_cons a)
  have hb : links.getLastD a = a ∨ links.getLastD a ∈ ms :=
    (mem_cons.1 getLastD_mem_cons).imp_right fun hl => hcomp.sub.subset hl
  refine ⟨if eor then h'.setEor (links.getLastD a) true else h', sb', links, ?_, ?_,
    hab.bytes_setEor, ?_, habs⟩
  · simp [sbcompress, hrun]
  · cases eor with
    | false => exact hcomp
    | true => exact hcomp.setEor hb
  · rw [hab.marks hlinks, Bool.false_or]

/-! ## The rest of a new record -/

/-- Nothing stays of a new record but its first mbuf. -/
def becomesOne (refs : Nat → Nat) (m0 : Mbuf) : List Mbuf → Bool
  | [] => true
  | m :: ms =>
    if m0.eor then absorbs refs { m0 with eor := false } false ({ m with eor := true } :: ms)
    else absorbs refs m0 false (m :: ms)

theorem compressRest_spec (hchain : LinkedList h.next (h.next a) ms) (hnodup : (a :: ms).Nodup)
    (hlive : ∀ x ∈ ms, x ∈ h.live) (hlast : ∀ x ∈ ms, sb.lastrecord ≠ some x) :
    ∃ h' sb' links, compressRest h sb a = some (h', sb') ∧
      Compressed (h.setNext a none) sb a ms h' sb' links ∧
      bytesOf h' (a :: links) = bytesOf h (a :: ms) ∧
      marksOf h' (a :: links) = endMark (bytesOf h (a :: ms)) (anyEor h (a :: ms)) ∧
      (links = [] ↔ becomesOne h.refs (h.mbuf a) (ms.map h.mbuf) = true) := by
  obtain ⟨ha, hms⟩ := nodup_cons.1 hnodup
  have hne : ∀ x ∈ ms, x ≠ a := fun x hx => ne_of_mem_of_not_mem hx ha
  have hchain' : LinkedList (h.setNext a none).next (h.next a) ms :=
    hchain.congr fun x hx => by simp [hne x hx]
  cases ms with
  | nil =>
    have hnone : h.next a = none := hchain
    obtain ⟨h', sb', links, hrun, hcomp, hbytes, hmarks, -⟩ :=
      sbcompress_spec (h := h.setNext a none) (hnone ▸ hchain') (by simp) hnodup hlive hlast
    have hnil : links = [] := sublist_nil.1 hcomp.sub
    refine ⟨h', sb', links, ?_, hcomp, hbytes, ?_, by simp [hnil, becomesOne]⟩
    · simp only [compressRest, hnone]
      exact hrun
    · rw [hmarks, anyEor_cons, setNext_mbuf]
      cases (h.mbuf a).eor <;> simp [endMark, anyEor]
  | cons m ms =>
    have hsome : h.next a = some m := hchain.1
    have hma : m ≠ a := hne m mem_cons_self
    by_cases heor : (h.mbuf a).eor = true
    · -- the flag goes to the second mbuf
      obtain ⟨h', sb', links, hrun, hcomp, hbytes, hmarks, habs⟩ :=
        sbcompress_spec (h := ((h.setNext a none).setEor a false).setEor m true)
          hchain' (by simp) hnodup hlive hlast
      have hdata : ∀ x, (((((h.setNext a none).setEor a false).setEor m true).mbuf x).data)
          = (h.mbuf x).data := by
        intro x
        by_cases hxm : x = m
        · simp [hxm, hma]
        · by_cases hxa : x = a
          · simp [hxa, hma.symm]
          · simp [hxm, hxa]
      have hany : anyEor (((h.setNext a none).setEor a false).setEor m true) (m :: ms) = true := by
        rw [anyEor_cons]
        simp
      refine ⟨h', sb', links, ?_, ?_, ?_, ?_, ?_⟩
      · rw [hsome] at hrun
        simp only [compressRest, hsome, setNext_mbuf, heor, if_true]
        exact hrun
      · exact (hcomp.of_setEor (.inr mem_cons_self)).of_setEor (.inl rfl)
      · rw [hbytes, hdata, bytesOf_congr fun x _ => hdata x, bytesOf_cons (a := a)]
      · rw [hmarks, hany, hdata, bytesOf_congr fun x _ => hdata x, anyEor_cons (a := a), heor,
          Bool.true_or, ← bytesOf_cons (a := a)]
        simp [endMark, hma.symm]
      · rw [habs, map_cons, map_cons, becomesOne, if_pos heor]
        have hrest : ms.map (((h.setNext a none).setEor a false).setEor m true).mbuf =
            ms.map h.mbuf := by
          refine map_congr_left fun x hx => ?_
          have hxm : x ≠ m := ne_of_mem_of_not_mem hx (nodup_cons.1 hms).1
          simp [hxm, hne x (mem_cons_of_mem m hx)]
        rw [hrest]
        simp [hma, hma.symm]
    · obtain ⟨h', sb', links, hrun, hcomp, hbytes, hmarks, habs⟩ :=
        sbcompress_spec (h := h.setNext a none) hchain' (by simp) hnodup hlive hlast
      have hfalse : (h.mbuf a).eor = false := Bool.eq_false_iff.2 heor
      refine ⟨h', sb', links, ?_, hcomp, hbytes, ?_, ?_⟩
      · rw [hsome] at hrun
        simp only [compressRest, hsome, setNext_mbuf, heor]
        exact hrun
      · rw [hmarks, anyEor_cons (a := a), hfalse, Bool.false_or, setNext_mbuf, hfalse]
        exact Finset.empty_union _
      · rw [habs]
        simp [becomesOne, heor]

end Compress

end OpenBsd.Kern
