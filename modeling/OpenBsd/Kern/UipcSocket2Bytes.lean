/-
  OpenBsd.Kern.UipcSocket2Bytes

  The bytes in a socket buffer and the marks `M_EOR` among them.  Appending puts the bytes
  of the chain behind those of a record, with one mark at their end if any mbuf of the chain
  has one; dropping takes bytes away at the front.
-/

import OpenBsd.Lib.Loop
import OpenBsd.Kern.UipcSocket2Run

namespace OpenBsd.Kern

open OpenBsd.Lib List Function

section

variable {α : Type}

/-- Bytes for the last record, which may have marks. -/
def appendStreamTo (recs : List (List UInt8 × Finset Nat)) (bytes : List UInt8) (eor : Bool) :
    List (List UInt8 × Finset Nat) :=
  match recs.getLast? with
  | none => newContents bytes eor
  | some r => recs.dropLast ++ [(r.1 ++ bytes, r.2 ∪ endMark (r.1 ++ bytes) eor)]

variable {h h' : MbufHeap α} {sb sb' : Sockbuf α} {a : α} {l l' ms : List α}
  {rs : List (α × List α)}

variable [DecidableEq α]

/-! ## sbappendstream -/

theorem sbcompressLoop_lastrecord {fuel : Nat} {m n : Option α} {eor : Bool} (q : Option α)
    {r : MbufHeap α × Sockbuf α × Option α × Bool}
    (hrun : sbcompressLoop fuel h sb m n eor = some r) :
    ∃ q', sbcompressLoop fuel h { sb with lastrecord := q } m n eor
      = some (r.1, { r.2.1 with lastrecord := q' }, r.2.2) := by
  induction fuel generalizing h sb m n eor q with
  | zero => cases hrun
  | succ fuel ih =>
    cases m with
    | none =>
      cases hrun
      exact ⟨q, rfl⟩
    | some m =>
      simp only [sbcompressLoop] at hrun ⊢
      split at hrun
      · rename_i hdis
        rw [if_pos hdis]
        exact @ih _ (sb.skipLast m (h.next m)) _ _ _ _ hrun
      · rename_i hdis
        rw [if_neg hdis]
        split at hrun
        · exact @ih _ (sb.addBytes (h.mbuf m) (h.mbuf m).len) _ _ _ _ hrun
        · cases n with
          | none => exact @ih _ (linkMbuf h sb m none).2 _ _ _ _ hrun
          | some n => exact @ih _ (linkMbuf h sb m (some n)).2 _ _ _ _ hrun

theorem sbcompress_lastrecord {m n : Option α} (q : Option α) {r : MbufHeap α × Sockbuf α}
    (hrun : sbcompress h sb m n = some r) :
    ∃ q', sbcompress h { sb with lastrecord := q } m n
      = some (r.1, { r.2 with lastrecord := q' }) := by
  simp only [sbcompress, Option.bind_eq_bind, Option.bind_eq_some_iff] at hrun
  obtain ⟨r₁, hloop, hend⟩ := hrun
  obtain ⟨q', hq⟩ := sbcompressLoop_lastrecord q hloop
  refine ⟨q', ?_⟩
  simp only [sbcompress, hq, Option.bind_eq_bind, Option.bind_some]
  obtain ⟨h₁, sb₁, n₁, eor₁⟩ := r₁
  cases n₁ with
  | none =>
    cases hend
    rfl
  | some b =>
    cases hend
    rfl

omit [DecidableEq α] in
theorem SbRep.setLast (hr : SbRep h sb rs) (hone : rs.length ≤ 1) :
    SbRep h { sb with lastrecord := sb.mb } rs :=
  { hr with
    count := by
      intro c
      have hc := hr.count c
      cases c <;> exact hc
    last := by
      show sb.mb = _
      rw [hr.heads.eq_head?]
      match rs, hone with
      | [], _ => rfl
      | [r], _ => rfl }

/-- `sbappendstream` of a chain, in a buffer whose `sb_mbtail` is right. -/
theorem sbappendstream_contents (hr : SbRep h sb rs) (hone : rs.length ≤ 1)
    (htail : sb.mbtail = tailOf rs) (hf : FreshChain h rs (some a) (a :: ms)) :
    ∃ h₂ sb₂ rs₂, sbappendstream h sb (some a) = some (h₂, sb₂) ∧ SbRep h₂ sb₂ rs₂ ∧
      contents h₂ rs₂
        = appendStreamTo (contents h rs) (bytesOf h (a :: ms)) (anyEor h (a :: ms)) := by
  cases rs with
  | nil =>
    have hmb : sb.mb = none := hr.heads
    have hlast : sb.lastrecord = none := hr.last
    have hzero : ∀ c, ({ sb with lastrecord := some a } : Sockbuf α).count c = 0 := by
      intro c
      have hc := hr.count c
      cases c <;> exact hc
    obtain ⟨h₂, sb₂, rs₂, hrun, hrep, -, hcont⟩ := sbcompress_empty hf
      (rfl : ({ sb with lastrecord := some a } : Sockbuf α).lastrecord = some a) hmb hzero
    obtain ⟨q', hrun'⟩ := sbcompress_lastrecord none hrun
    have hsame : ({ ({ sb with lastrecord := some a } : Sockbuf α) with lastrecord := none } :
        Sockbuf α) = sb := by
      rw [← hlast]
    rw [hsame] at hrun'
    have hlen : rs₂.length ≤ 1 := by
      have hlen := congrArg List.length hcont
      rw [contents, length_map, newContents] at hlen
      split at hlen
      · exact hlen.le.trans (Nat.zero_le 1)
      · exact hlen.le
    refine ⟨h₂, _, rs₂, ?_, hrep.setLast hlen, hcont⟩
    rw [sbappendstream, htail, hmb, hlast]
    simp only [tailOf, getLast?_nil, Option.map_none, hrun', guard_true, Option.bind_eq_bind]
    rfl
  | cons r rs =>
    have hnil : rs = [] := eq_nil_of_length_eq_zero (Nat.le_zero.1 (Nat.le_of_succ_le_succ hone))
    subst hnil
    obtain ⟨a₀, l⟩ := r
    obtain ⟨h₂, sb₂, links, hrun, hrep, -, hcont⟩ :=
      @SbRep.behindLast _ _ _ [] _ _ _ _ _ hr hf
    refine ⟨h₂, _, _, ?_, hrep.setLast (Nat.le_refl 1), hcont⟩
    have hmb : sb.mb = some a₀ := hr.heads.1
    have hlast : sb.lastrecord = some a₀ := hr.last
    have htail' : sb.mbtail = some (l.getLastD a₀) := htail
    rw [sbappendstream, hmb, hlast, htail']
    simp only [hrun, guard_true, Option.bind_eq_bind]
    rfl

/-! ## Drops -/

/-- `sbdrop` takes the first bytes away, and leaves the records behind alone. -/
theorem sbdrop_contents {len : Int} (hr : SbRep h sb rs)
    (hlen : len ≤ (bytesOf h (mbufs rs)).length) :
    ∃ h₂ sb₂ rs₂, sbdrop h sb len = some (h₂, sb₂) ∧ SbRep h₂ sb₂ rs₂ ∧
      bytesOf h₂ (mbufs rs₂) = (bytesOf h (mbufs rs)).drop len.toNat ∧
      (contents h₂ rs₂).tail <:+ contents h rs ∧
      (bytesOf h₂ (mbufs rs₂) = [] → rs₂ = [] ∨ rs₂.length < rs.length) ∧
      (rs₂ = [] → sb₂.mbtail = none) ∧ ∀ c, weights h₂ c (mbufs rs₂) ≤ weights h c (mbufs rs) := by
  rw [length_bytesOf] at hlen
  obtain ⟨⟨h₂, sb₂⟩, hrun⟩ := sbdrop_total hr hlen
  obtain ⟨rs₂, hr₂, -, hrest⟩ := sbdrop_spec hr hrun
  exact ⟨h₂, sb₂, rs₂, hrun, hr₂, hrest⟩

/-! ## sbflush -/

/-- The counters are the sums as numbers. -/
def CountsExact (h : MbufHeap α) (sb : Sockbuf α) (rs : List (α × List α)) : Prop :=
  ∀ c, (sb.count c).toNat = weights h c (mbufs rs)

omit [DecidableEq α] in
theorem countsExact_of_lt (hr : SbRep h sb rs) (hlt : ∀ c, weights h c (mbufs rs) < 2 ^ 64) :
    CountsExact h sb rs := by
  intro c
  rw [hr.count c, BitVec.toNat_ofNat, Nat.mod_eq_of_lt (hlt c)]

theorem toInt_setWidth {x : BitVec 64} (hx : x.toNat < 2 ^ 31) :
    (x.setWidth 32).toInt = x.toNat := by
  have hnat : (x.setWidth 32).toNat = x.toNat := by
    rw [BitVec.toNat_setWidth, Nat.mod_eq_of_lt (by omega)]
  rw [BitVec.toInt_eq_toNat_of_lt (by omega), hnat]

/-- The loop of `sbflush`: each `sbdrop` leaves fewer records. -/
theorem sbflushLoop_empties (hr : SbRep h sb rs) (htail : rs = [] → sb.mbtail = none)
    (hexact : CountsExact h sb rs) (hlen : (bytesOf h (mbufs rs)).length < 2 ^ 31) :
    ∃ h₂ sb₂, Returns (fun fuel => sbflushLoop fuel h sb) (h₂, sb₂) ∧ SbRep h₂ sb₂ [] ∧
      sb₂.mbtail = none := by
  generalize hn : rs.length = n
  induction n using Nat.strong_induction_on generalizing h sb rs with
  | _ n ih =>
    cases rs with
    | nil =>
      have hzero : sb.mbcnt = 0 := BitVec.eq_of_toNat_eq (hexact .mbcnt)
      refine ⟨h, sb, ⟨1, fun fuel hfuel => ?_⟩, hr, htail rfl⟩
      obtain ⟨k, rfl⟩ := Nat.exists_eq_add_of_le hfuel
      simp only [show 1 + k = k + 1 from Nat.add_comm 1 k, sbflushLoop, if_pos hzero]
    | cons r rs =>
      have hne : sb.mbcnt ≠ 0 := by
        intro hzero
        have hcnt := hexact .mbcnt
        have hw : weights h .mbcnt (mbufs (r :: rs))
            = msize + (h.mbuf r.1).extSize + weights h .mbcnt (r.2 ++ mbufs rs) := by
          rw [mbufs_cons, weights_cons]
          rfl
        have hsize : msize = 256 := rfl
        rw [hw] at hcnt
        have hcnt' : sb.mbcnt.toNat
            = msize + (h.mbuf r.1).extSize + weights h .mbcnt (r.2 ++ mbufs rs) := hcnt
        rw [hzero] at hcnt'
        simp at hcnt'
        omega
      have hcc : sb.cc.toNat = (bytesOf h (mbufs (r :: rs))).length :=
        (hexact .cc).trans (length_bytesOf ..).symm
      have hcast := toInt_setWidth (x := sb.cc) (by rw [hcc]; exact hlen)
      obtain ⟨h₁, sb₁, rs₁, hdrop, hr₁, hbytes, -, hfewer, htail₁, hle⟩ :=
        sbdrop_contents hr (hcast.trans_le (by rw [hcc]))
      have hnil : bytesOf h₁ (mbufs rs₁) = [] := by
        rw [hbytes, hcast, Int.toNat_natCast, hcc, drop_length]
      have hlt : rs₁.length < n := by
        rcases hfewer hnil with rfl | hlt
        · rw [← hn]
          exact Nat.succ_pos _
        · rwa [← hn]
      have hexact₁ : CountsExact h₁ sb₁ rs₁ := countsExact_of_lt hr₁ fun c => by
        refine Nat.lt_of_le_of_lt (hle c) ?_
        rw [← hexact c]
        exact BitVec.isLt _
      obtain ⟨h₂, sb₂, ⟨k, hret⟩, hr₂, htail₂⟩ :=
        ih _ hlt hr₁ htail₁ hexact₁ (by rw [hnil]; decide) rfl
      refine ⟨h₂, sb₂, ⟨k + 1, fun fuel hfuel => ?_⟩, hr₂, htail₂⟩
      obtain ⟨j, rfl⟩ := Nat.exists_eq_add_of_le hfuel
      rw [show k + 1 + j = (k + j) + 1 by omega]
      simp only [sbflushLoop, if_neg hne, hdrop, Option.bind_eq_bind, Option.bind_some]
      exact hret (k + j) (Nat.le_add_right k j)

theorem sbflush_empties (hr : SbRep h sb rs) (htail : sb.mbtail = tailOf rs)
    (hexact : CountsExact h sb rs) (hlen : (bytesOf h (mbufs rs)).length < 2 ^ 31) :
    ∃ h₂ sb₂, Returns (fun fuel => sbflush fuel h sb) (h₂, sb₂) ∧ SbRep h₂ sb₂ [] := by
  obtain ⟨h₂, sb₂, ⟨k, hret⟩, hr₂, htail₂⟩ :=
    sbflushLoop_empties hr (by rintro rfl; exact htail) hexact hlen
  refine ⟨h₂, sb₂, ⟨k, fun fuel hfuel => ?_⟩, hr₂⟩
  have hcc : sb₂.cc = 0 := hr₂.count .cc
  have hdatacc : sb₂.datacc = 0 := hr₂.count .datacc
  have hmb : sb₂.mb = none := hr₂.heads
  have hlast : sb₂.lastrecord = none := hr₂.last
  simp only [sbflush, hret fuel hfuel, Option.bind_eq_bind, Option.bind_some, hcc, hdatacc, hmb,
    htail₂, hlast, and_self, guard_true]
  rfl

/-- A buffer of one mbuf. -/
def oneMbuf (m : Mbuf) : MbufHeap Nat × Sockbuf Nat :=
  ((emptyHeap.allocChain [(1, m)]).1,
    { sballoc (sbInit emptyHeap 0 0).sb m with mb := some 1, mbtail := some 1, lastrecord := some 1 })

theorem sbRep_oneMbuf (m : Mbuf) : SbRep (oneMbuf m).1 (oneMbuf m).2 [(1, [])] where
  heads := ⟨rfl, rfl⟩
  chain := by
    intro r hr
    obtain rfl := mem_singleton.1 hr
    rfl
  inner := by
    intro r hr x hx
    obtain rfl := mem_singleton.1 hr
    cases hx
  nodup := by decide
  live := by
    intro x hx
    exact hx
  count := by
    intro c
    have hzero : (sbInit emptyHeap 0 0).sb.count c = 0#64 := by cases c <;> rfl
    have hadd := @count_sballoc _ (sbInit emptyHeap 0 0).sb c m
    rw [hzero, BitVec.zero_add] at hadd
    have hsame : (oneMbuf m).2.count c = (sballoc (sbInit emptyHeap 0 0).sb m).count c := by
      cases c <;> rfl
    rw [hsame, hadd]
    rfl
  last := rfl

omit [DecidableEq α] in
theorem SbRep.length_le_one (hr : SbRep h sb rs) (hone : sb.mb = sb.lastrecord) :
    rs.length ≤ 1 := by
  have hnodup : (rs.map Prod.fst).Nodup := hr.nodup.sublist (map_fst_sublist_mbufs rs)
  match rs, hr with
  | [], _ => exact Nat.zero_le 1
  | [r], _ => exact Nat.le_refl 1
  | r :: r' :: rs, hr =>
    have hfirst : sb.mb = some r.1 := hr.heads.1
    have hlast : some r.1 = ((r' :: rs).map Prod.fst).getLast? := by
      rw [← hfirst, hone, hr.last]
      rfl
    have hmem := mem_of_getLast? hlast.symm
    exact absurd hmem (nodup_cons.1 hnodup).1

/-- Appending and dropping keep the stream of bytes; `sbflush` empties the buffer.  The one
    mark of a chain goes behind its last byte. -/
theorem sockbuf_stream (hr : SbRep h sb rs) (htail : sb.mbtail = tailOf rs)
    (hexact : CountsExact h sb rs) :
    (∀ len : Int, 0 ≤ len → len ≤ sb.cc.toNat →
      ∃ h₂ sb₂ rs₂, sbdrop h sb len = some (h₂, sb₂) ∧ SbRep h₂ sb₂ rs₂ ∧
        bytesOf h₂ (mbufs rs₂) = (bytesOf h (mbufs rs)).drop len.toNat ∧
        (contents h₂ rs₂).tail <:+ contents h rs) ∧
    (∀ a ms, FreshChain h rs (some a) (a :: ms) →
      ∃ h₂ sb₂ rs₂, sbappend h sb (some a) = some (h₂, sb₂) ∧ SbRep h₂ sb₂ rs₂ ∧
        contents h₂ rs₂
          = appendTo (contents h rs) (bytesOf h (a :: ms)) (anyEor h (a :: ms))) ∧
    (sb.mb = sb.lastrecord → ∀ a ms, FreshChain h rs (some a) (a :: ms) →
      ∃ h₂ sb₂ rs₂, sbappendstream h sb (some a) = some (h₂, sb₂) ∧ SbRep h₂ sb₂ rs₂ ∧
        contents h₂ rs₂
          = appendStreamTo (contents h rs) (bytesOf h (a :: ms)) (anyEor h (a :: ms))) ∧
    (sb.cc.toNat < 2 ^ 31 →
      ∃ h₂ sb₂, Returns (fun fuel => sbflush fuel h sb) (h₂, sb₂) ∧ SbRep h₂ sb₂ []) := by
  have hcc : sb.cc.toNat = (bytesOf h (mbufs rs)).length :=
    (hexact .cc).trans (length_bytesOf ..).symm
  refine ⟨fun len _ hlen => ?_, fun a ms hf => ?_, fun hone a ms hf => ?_,
    fun hlt => sbflush_empties hr htail hexact (by rwa [← hcc])⟩
  · obtain ⟨h₂, sb₂, rs₂, hdrop, hr₂, hbytes, hcont, -⟩ :=
      sbdrop_contents hr (hlen.trans_eq (by rw [hcc]))
    exact ⟨h₂, sb₂, rs₂, hdrop, hr₂, hbytes, hcont⟩
  · obtain ⟨h₂, sb₂, rs₂, hrun, hr₂, -, hcont⟩ := sbappend_spec hr hf
    exact ⟨h₂, sb₂, rs₂, hrun, hr₂, hcont⟩
  · exact sbappendstream_contents hr (hr.length_le_one hone) htail hf

theorem sockbuf_stream_two_bytes : ∃ h₂ sb₂ rs₂,
    sbdrop (oneMbuf (plainMbuf .data [8, 9])).1 (oneMbuf (plainMbuf .data [8, 9])).2 1
      = some (h₂, sb₂) ∧ SbRep h₂ sb₂ rs₂ ∧ bytesOf h₂ (mbufs rs₂) = [9] := by
  have hrep := sbRep_oneMbuf (plainMbuf .data [8, 9])
  have hexact : CountsExact (oneMbuf (plainMbuf .data [8, 9])).1
      (oneMbuf (plainMbuf .data [8, 9])).2 [(1, [])] := by
    intro c
    cases c <;> rfl
  obtain ⟨h₂, sb₂, rs₂, hdrop, hr₂, hbytes, -⟩ :=
    (sockbuf_stream hrep rfl hexact).1 1 (by decide) (by decide)
  exact ⟨h₂, sb₂, rs₂, hdrop, hr₂, hbytes⟩

end

/-! ## Where a mark is lost and the flush does not end -/

/-- Two bytes, each with a mark behind it. -/
def markedHeap : MbufHeap Nat :=
  (emptyHeap.allocChain [(1, { plainMbuf .data [7] with eor := true }),
    (2, { plainMbuf .data [8] with eor := true })]).1

/-- An mbuf of external storage. -/
def extMbuf (data : List UInt8) : Mbuf :=
  { plainMbuf .data data with ext := some ⟨0, data.length, true⟩ }

theorem sbdrop_oneMbuf {m : Mbuf} (hne : m.len ≠ 0) {len : Int} (hlen : len ≤ 0) :
    sbdrop (oneMbuf m).1 (oneMbuf m).2 len = some (oneMbuf m) := by
  have hloop : sbdropLoop (2 * (oneMbuf m).1.bound) (oneMbuf m).1 (oneMbuf m).2 (some 1) none len
      = some ((oneMbuf m).1, (oneMbuf m).2, some 1, none) := if_pos hlen
  have hempty : sbdropEmpty (oneMbuf m).1.bound (oneMbuf m).1 (oneMbuf m).2 (some 1)
      = some ((oneMbuf m).1, (oneMbuf m).2, some 1) := if_neg hne
  have hheap : (oneMbuf m).1.setNextpktOf (some 1) none = (oneMbuf m).1 := by
    have hupd : update (oneMbuf m).1.nextpkt 1 none = (oneMbuf m).1.nextpkt :=
      update_eq_self_iff.2 rfl
    simp only [MbufHeap.setNextpktOf, MbufHeap.setNextpkt, hupd]
  have hmb : (oneMbuf m).2.mb = some 1 := rfl
  have hnextpkt : (some 1).bind (oneMbuf m).1.nextpkt = none := rfl
  simp only [sbdrop, hmb, hnextpkt, hloop, hempty, hheap, Option.bind_eq_bind, Option.bind_some]
  rfl

theorem sbflush_oneMbuf {m : Mbuf} (hne : m.len ≠ 0) (hcnt : (oneMbuf m).2.mbcnt ≠ 0)
    (hneg : ((oneMbuf m).2.cc.setWidth 32).toInt ≤ 0) (fuel : Nat) :
    sbflush fuel (oneMbuf m).1 (oneMbuf m).2 = none := by
  have hloop : sbflushLoop fuel (oneMbuf m).1 (oneMbuf m).2 = none := by
    induction fuel with
    | zero => rfl
    | succ fuel ih =>
      simp only [sbflushLoop, if_neg hcnt, sbdrop_oneMbuf hne hneg, Option.bind_eq_bind,
        Option.bind_some]
      exact ih
  simp only [sbflush, hloop, Option.bind_eq_bind, Option.bind_none]

theorem sbflush_extMbuf {bytes : List UInt8} (hlen : bytes.length = 2147483648) :
    CountsExact (oneMbuf (extMbuf bytes)).1 (oneMbuf (extMbuf bytes)).2 [(1, [])] ∧
      ∀ fuel, sbflush fuel (oneMbuf (extMbuf bytes)).1 (oneMbuf (extMbuf bytes)).2 = none := by
  have hrep := sbRep_oneMbuf (extMbuf bytes)
  have hweights : ∀ c, weights (oneMbuf (extMbuf bytes)).1 c (mbufs [(1, [])])
      = (extMbuf bytes).weight c := fun _ => rfl
  refine ⟨countsExact_of_lt hrep fun c => ?_, sbflush_oneMbuf ?_ ?_ ?_⟩
  · have hweight : (extMbuf bytes).weight c ≤ 256 + bytes.length := by
      cases c with
      | cc => exact Nat.le_add_left bytes.length 256
      | datacc => exact Nat.le_add_left bytes.length 256
      | mbcnt => exact Nat.le_refl (256 + bytes.length)
    rw [hweights]
    omega
  · have hlen' : (extMbuf bytes).len = bytes.length := rfl
    omega
  · have hcnt : (oneMbuf (extMbuf bytes)).2.mbcnt = BitVec.ofNat 64 (256 + bytes.length) :=
      hrep.count .mbcnt
    rw [hcnt, hlen]
    decide
  · have hcc : (oneMbuf (extMbuf bytes)).2.cc = BitVec.ofNat 64 bytes.length := hrep.count .cc
    rw [hcc, hlen]
    decide

/-- Of two marks in a chain one is left, and `sbflush` does not empty a buffer of 2^31
    bytes. -/
theorem not_sockbuf_stream :
    (∃ h₂ sb₂ rs₂, SbRep markedHeap (sbInit markedHeap 0 0).sb [] ∧
      FreshChain markedHeap [] (some 1) [1, 2] ∧
      sbappendstream markedHeap (sbInit markedHeap 0 0).sb (some 1) = some (h₂, sb₂) ∧
      SbRep h₂ sb₂ rs₂ ∧ marksOf markedHeap [1, 2] = {1, 2} ∧
      contents h₂ rs₂ = [([7, 8], {2})]) ∧
    ∃ bytes : List UInt8, bytes = List.replicate 2147483648 0 ∧
      SbRep (oneMbuf (extMbuf bytes)).1 (oneMbuf (extMbuf bytes)).2 [(1, [])] ∧
      CountsExact (oneMbuf (extMbuf bytes)).1 (oneMbuf (extMbuf bytes)).2 [(1, [])] ∧
      ∀ fuel, sbflush fuel (oneMbuf (extMbuf bytes)).1 (oneMbuf (extMbuf bytes)).2 = none := by
  have hrep : SbRep markedHeap (sbInit markedHeap 0 0).sb [] :=
    .empty rfl rfl fun c => by cases c <;> rfl
  have hfresh : FreshChain markedHeap [] (some 1) [1, 2] :=
    ⟨⟨rfl, rfl, rfl⟩, by decide, by decide, by decide, by decide⟩
  constructor
  · obtain ⟨h₂, sb₂, rs₂, hrun, hr₂, hcont⟩ :=
      sbappendstream_contents hrep (Nat.zero_le 1) rfl hfresh
    exact ⟨h₂, sb₂, rs₂, hrep, hfresh, hrun, hr₂, by decide, hcont.trans (by decide)⟩
  · obtain ⟨hexact, hflush⟩ := sbflush_extMbuf (length_replicate (n := 2147483648) (a := 0))
    exact ⟨_, Eq.refl _, sbRep_oneMbuf _, hexact, hflush⟩

end OpenBsd.Kern
