/-
  OpenBsd.Kern.UipcSocket2Run

  Runs of calls on a socket buffer, and the checks of `SOCKBUF_DEBUG` in the states they
  reach.
-/

import OpenBsd.Kern.UipcSocket2Safe

namespace OpenBsd.Kern

open OpenBsd.Lib List Function

section Run

variable {α : Type} [DecidableEq α] {h : MbufHeap α} {sb : Sockbuf α} {rs : List (α × List α)}

/-! ## Chains of callers -/

/-- The memory in which a caller has built a chain. -/
structure Built (h h' : MbufHeap α) (p : Option α) (l : List (α × Mbuf)) : Prop where
  linked : LinkedList h'.next p (l.map Prod.fst)
  pkt : ∀ x ∈ l.map Prod.fst, h'.nextpkt x = none
  contents : (l.map Prod.fst).map h'.mbuf = l.map Prod.snd
  next_eq : ∀ x, x ∉ l.map Prod.fst → h'.next x = h.next x
  nextpkt_eq : ∀ x, x ∉ l.map Prod.fst → h'.nextpkt x = h.nextpkt x
  mbuf_eq : ∀ x, x ∉ l.map Prod.fst → h'.mbuf x = h.mbuf x
  live : ∀ x, x ∈ h'.live ↔ x ∈ l.map Prod.fst ∨ x ∈ h.live
  refs : h'.refs = h.refs

omit [DecidableEq α] in
theorem Built.free {h' : MbufHeap α} {p : Option α} {l : List (α × Mbuf)} {xs : List α}
    (hb : Built h h' p l) (hfree : ∀ x ∈ xs, x ∉ h.live)
    (hdisj : ∀ y ∈ l.map Prod.fst, ∀ x ∈ xs, y ≠ x) : ∀ x ∈ xs, x ∉ h'.live := by
  intro x hx hlive
  rcases (hb.live x).1 hlive with hy | hlive
  · exact hdisj x hy x hx rfl
  · exact hfree x hx hlive

theorem allocChain_built (l : List (α × Mbuf)) (hnodup : (l.map Prod.fst).Nodup) :
    Built h (h.allocChain l).1 (h.allocChain l).2 l := by
  induction l with
  | nil =>
    exact ⟨rfl, by simp, rfl, fun _ _ => rfl, fun _ _ => rfl, fun _ _ => rfl, by simp [MbufHeap.allocChain],
      rfl⟩
  | cons r l ih =>
    obtain ⟨a, m⟩ := r
    rw [map_cons, nodup_cons] at hnodup
    obtain ⟨ha, hl⟩ := hnodup
    have ih := ih hl
    have hne : ∀ x ∈ l.map Prod.fst, x ≠ a := by
      rintro x hx rfl
      exact ha hx
    refine ⟨⟨rfl, ?_⟩, ?_, ?_, ?_, ?_, ?_, ?_, ih.refs⟩
    · simp only [MbufHeap.allocChain, MbufHeap.alloc, update_self]
      exact ih.linked.congr fun x hx => update_of_ne (hne x hx) _ _
    · intro x hx
      rcases mem_cons.1 hx with rfl | hx
      · simp [MbufHeap.allocChain, MbufHeap.alloc]
      · simp only [MbufHeap.allocChain, MbufHeap.alloc]
        rw [update_of_ne (hne x hx)]
        exact ih.pkt x hx
    · simp only [map_cons, MbufHeap.allocChain, MbufHeap.alloc, update_self]
      rw [← ih.contents]
      congr 1
      exact map_congr_left fun x hx => update_of_ne (hne x hx) _ _
    · intro x hx
      simp only [MbufHeap.allocChain, MbufHeap.alloc]
      rw [update_of_ne (ne_of_not_mem_cons hx)]
      exact ih.next_eq x (not_mem_of_not_mem_cons hx)
    · intro x hx
      simp only [MbufHeap.allocChain, MbufHeap.alloc]
      rw [update_of_ne (ne_of_not_mem_cons hx)]
      exact ih.nextpkt_eq x (not_mem_of_not_mem_cons hx)
    · intro x hx
      simp only [MbufHeap.allocChain, MbufHeap.alloc]
      rw [update_of_ne (ne_of_not_mem_cons hx)]
      exact ih.mbuf_eq x (not_mem_of_not_mem_cons hx)
    · intro x
      simp only [MbufHeap.allocChain, MbufHeap.alloc, map_cons, mem_cons, ih.live x]
      tauto

variable {h' : MbufHeap α} {p : Option α} {l : List (α × Mbuf)}

omit [DecidableEq α] in
theorem Built.rep (hb : Built h h' p l) (hfree : ∀ x ∈ l.map Prod.fst, x ∉ h.live)
    (hr : SbRep h sb rs) : SbRep h' sb rs := by
  have hout : ∀ x ∈ mbufs rs, x ∉ l.map Prod.fst := fun x hx hxl => hfree x hxl (hr.live x hx)
  exact hr.frame (fun x hx => hb.next_eq x (hout x hx)) (fun x hx => hb.nextpkt_eq x (hout x hx))
    (fun x hx => hb.mbuf_eq x (hout x hx)) fun x hx => (hb.live x).2 (.inr hx)

omit [DecidableEq α] in
theorem Built.fresh (hb : Built h h' p l) (hnodup : (l.map Prod.fst).Nodup)
    (hfree : ∀ x ∈ l.map Prod.fst, x ∉ h.live) (hr : SbRep h sb rs) :
    FreshChain h' rs p (l.map Prod.fst) where
  linked := hb.linked
  nodup := hnodup
  live := fun x hx => (hb.live x).2 (.inl hx)
  out := fun x hx hxrs => hfree x hx (hr.live x hxrs)
  pkt := hb.pkt

omit [DecidableEq α] in
theorem Built.chain (hb : Built h h' p l) (hfree : ∀ x ∈ l.map Prod.fst, x ∉ h.live)
    {q : Option α} {ms : List α} (hf : FreshChain h rs q ms) : FreshChain h' rs q ms := by
  have hout : ∀ x ∈ ms, x ∉ l.map Prod.fst := fun x hx hxl => hfree x hxl (hf.live x hx)
  exact hf.frame (fun x hx => hb.next_eq x (hout x hx)) (fun x hx => hb.nextpkt_eq x (hout x hx))
    fun x hx => (hb.live x).2 (.inr hx)

/-! ## Steps -/

/-- A call that keeps `sb_mbtail` up to date.  When a new record comes last, more than
    its first mbuf has to stay of the chain; when one comes before others, nothing may
    stay behind its first mbuf. -/
def CallKeepsTail (h : MbufHeap α) (rs : List (α × List α)) : SbCall α → Prop
  | .sbappend ((_, m0) :: rest) =>
    LastEor h rs → becomesOne h.refs m0 (rest.map Prod.snd) = false
  | .sbappendrecord ((_, m0) :: rest) => becomesOne h.refs m0 (rest.map Prod.snd) = false
  | .sbinsertoob ((_, m0) :: rest) =>
    (∀ r ∈ rs, oobFirst h (r.1 :: r.2) = true) ↔ becomesOne h.refs m0 (rest.map Prod.snd) = false
  | _ => True

/-- The records that the pointers of a buffer lead to. -/
def Records (h : MbufHeap α) (sb : Sockbuf α) (rs : List (α × List α)) : Prop :=
  LinkedList h.nextpkt sb.mb (rs.map Prod.fst) ∧
    ∀ r ∈ rs, LinkedList h.next (h.next r.1) r.2

/-- The condition on a step of a run. -/
def KeepsTail (s : SbState α) (e : SbCall α) : Prop :=
  ∀ rs, Records s.heap s.sb rs → CallKeepsTail s.heap rs e

def Panics (h : MbufHeap α) (rs : List (α × List α)) : SbCall α → Prop
  | .sbappendaddr _ ((_, m0) :: _) _ _ => m0.pkthdr = false
  | .sbappendcontrol _ [] => True
  | .sbdrop len => len > weights h .cc (mbufs rs)
  | _ => False

omit [DecidableEq α] in
theorem oobFirst_congr {l : List α} (heq : ∀ x ∈ l, h'.mbuf x = h.mbuf x) :
    oobFirst h' l = oobFirst h l := by
  induction l with
  | nil => rfl
  | cons a l ih =>
    rw [oobFirst, oobFirst, heq a mem_cons_self, ih fun x hx => heq x (mem_cons_of_mem a hx)]

omit [DecidableEq α] in
theorem lastEor_congr (heq : ∀ x ∈ mbufs rs, h'.mbuf x = h.mbuf x) :
    LastEor h' rs ↔ LastEor h rs := by
  have hall : ∀ r ∈ rs.getLast?, ∀ x ∈ r.1 :: r.2, h'.mbuf x = h.mbuf x := fun r hr x hx =>
    heq x (mem_mbufs_of_mem (mem_of_getLast? hr) x hx)
  constructor
  · rintro ⟨r, hr, x, hx, heor⟩
    exact ⟨r, hr, x, hx, by rwa [← hall r hr x hx]⟩
  · rintro ⟨r, hr, x, hx, heor⟩
    exact ⟨r, hr, x, hx, by rwa [hall r hr x hx]⟩

/-- What a call leaves: the buffer, and its tail if the call keeps it. -/
def CallOk (h : MbufHeap α) (sb : Sockbuf α) (rs : List (α × List α)) (e : SbCall α)
    (r : MbufHeap α × Sockbuf α) : Prop :=
  ∃ rs₂, SbRep r.1 r.2 rs₂ ∧
    (sb.mbtail = tailOf rs → CallKeepsTail h rs e → r.2.mbtail = tailOf rs₂)

theorem chainCall_spec (op : MbufHeap α → Sockbuf α → Option α → Option (MbufHeap α × Sockbuf α))
    {e : SbCall α} (hr : SbRep h sb rs) (hnodup : (l.map Prod.fst).Nodup)
    (hfree : ∀ x ∈ l.map Prod.fst, x ∉ h.live)
    (hnull : ∀ h sb, op h sb none = some (h, sb))
    (hop : ∀ {h' a m0 rest}, l = (a, m0) :: rest → SbRep h' sb rs →
      FreshChain h' rs (some a) (a :: rest.map Prod.fst) →
      ∃ h₂ sb₂ rs₂, op h' sb (some a) = some (h₂, sb₂) ∧ SbRep h₂ sb₂ rs₂ ∧
        (sb.mbtail = tailOf rs → (∀ x ∈ mbufs rs, h'.mbuf x = h.mbuf x) → h'.refs = h.refs →
          h'.mbuf a = m0 → (rest.map Prod.fst).map h'.mbuf = rest.map Prod.snd →
          CallKeepsTail h rs e → sb₂.mbtail = tailOf rs₂)) :
    ∃ r, op (h.allocChain l).1 sb (h.allocChain l).2 = some r ∧ CallOk h sb rs e r := by
  have hb := allocChain_built (h := h) l hnodup
  have hrep := hb.rep hfree hr
  have hfresh := hb.fresh hnodup hfree hr
  cases l with
  | nil =>
    refine ⟨(h, sb), hnull h sb, rs, hr, fun ht _ => ht⟩
  | cons q rest =>
    obtain ⟨a, m0⟩ := q
    obtain ⟨h₂, sb₂, rs₂, hrun, hdone, htail⟩ := hop rfl hrep hfresh
    refine ⟨(h₂, sb₂), hrun, rs₂, hdone, fun ht hkeep => htail ht ?_ hb.refs ?_ ?_ hkeep⟩
    · intro x hx
      exact hb.mbuf_eq x fun hxl => hfree x hxl (hr.live x hx)
    · have := hb.contents
      simp only [map_cons, List.cons.injEq] at this
      exact this.1
    · have := hb.contents
      simp only [map_cons, List.cons.injEq] at this
      exact this.2

/-- One call on a well formed buffer: it returns unless it panics, and what it leaves is
    well formed. -/
theorem sbCall_spec (hr : SbRep h sb rs) (e : SbCall α) (hnodup : e.taken.Nodup)
    (hfree : ∀ a ∈ e.taken, a ∉ h.live) :
    (∀ r, sbCall h sb e = some r → CallOk h sb rs e r) ∧
      (¬Panics h rs e → ∃ r, sbCall h sb e = some r) := by
  -- a call that always returns
  have total : ∀ {e : SbCall α}, (∃ r, sbCall h sb e = some r ∧ CallOk h sb rs e r) →
      (∀ r, sbCall h sb e = some r → CallOk h sb rs e r) ∧
        (¬Panics h rs e → ∃ r, sbCall h sb e = some r) := by
    rintro e ⟨r, hrun, hok⟩
    refine ⟨fun r' hrun' => ?_, fun _ => ⟨r, hrun⟩⟩
    obtain rfl : r = r' := Option.some.inj (hrun.symm.trans hrun')
    exact hok
  cases e with
  | sbappend l =>
    refine total (chainCall_spec Kern.sbappend hr hnodup hfree (fun _ _ => rfl) ?_)
    rintro h' a m0 rest rfl hrep hf
    obtain ⟨h₂, sb₂, rs₂, hrun, hdone, htail, -⟩ := sbappend_spec hrep hf
    refine ⟨h₂, sb₂, rs₂, hrun, hdone, fun ht hmb hrefs ha hrest hkeep => htail ht fun heor => ?_⟩
    rw [hrefs, ha, hrest]
    exact hkeep ((lastEor_congr hmb).1 heor)
  | sbappendrecord l =>
    refine total (chainCall_spec Kern.sbappendrecord hr hnodup hfree (fun _ _ => rfl) ?_)
    rintro h' a m0 rest rfl hrep hf
    obtain ⟨h₂, sb₂, links, hrun, hdone, htail, -, hbec⟩ := sbappendrecord_spec hrep hf
    refine ⟨h₂, sb₂, _, hrun, hdone, fun _ _ hrefs ha hrest hkeep => ?_⟩
    rw [hrefs, ha, hrest] at hbec
    have hne : links ≠ [] := by
      intro hnil
      have hone : becomesOne h.refs m0 (rest.map Prod.snd) = false := hkeep
      rw [hbec.1 hnil] at hone
      exact absurd hone (by decide)
    rw [htail]
    cases links using List.reverseRecOn with
    | nil => exact absurd rfl hne
    | append_singleton l' b => simp [tailOf]
  | sbinsertoob l =>
    refine total (chainCall_spec Kern.sbinsertoob hr hnodup hfree (fun _ _ => rfl) ?_)
    rintro h' a m0 rest rfl hrep hf
    obtain ⟨h₂, sb₂, rs₂, hrun, hdone, htail⟩ := sbinsertoob_spec hrep hf
    refine ⟨h₂, sb₂, rs₂, hrun, hdone, fun ht hmb hrefs ha hrest hkeep => htail ht ?_⟩
    rw [hrefs, ha, hrest]
    have hoob : (∀ r ∈ rs, oobFirst h' (r.1 :: r.2) = true) ↔
        ∀ r ∈ rs, oobFirst h (r.1 :: r.2) = true :=
      forall₂_congr fun r hrs => by
        rw [oobFirst_congr fun x hx => hmb x (mem_mbufs_of_mem hrs x hx)]
    exact hoob.trans hkeep
  | sbappendaddr asa m0 control mget =>
    rw [SbCall.taken, nodup_append] at hnodup
    obtain ⟨-, hboth, hget⟩ := hnodup
    obtain ⟨hm0, hcontrol, hdisj⟩ := nodup_append.1 hboth
    have hfree0 : ∀ x ∈ m0.map Prod.fst, x ∉ h.live := fun x hx =>
      hfree x (mem_append_right _ (mem_append_left _ hx))
    have hb0 := allocChain_built (h := h) m0 hm0
    have hbc := allocChain_built (h := (h.allocChain m0).1) control hcontrol
    have hfreec := hb0.free (fun x hx => hfree x (mem_append_right _ (mem_append_right _ hx))) hdisj
    have hr0 := hb0.rep hfree0 hr
    have hds := hbc.chain hfreec (hb0.fresh hm0 hfree0 hr)
    have hcs := hbc.fresh hcontrol hfreec hr0
    have hgetc := hbc.free
      (hb0.free (fun m hm => hfree m (mem_append_left _ hm)) fun y hy m hm =>
        (hget m hm y (mem_append_left _ hy)).symm)
      fun y hy m hm => (hget m hm y (mem_append_right _ hy)).symm
    by_cases hpkt : ∃ k, pktSpace ((h.allocChain m0).1.allocChain control).1 (h.allocChain m0).2 =
        some k
    · obtain ⟨h₂, sb₂, b, rs₂, hrun, hdone, htail⟩ :=
        sbappendaddr_spec asa (hbc.rep hfreec hr0) hcs hds
          (fun x hx hx0 => hdisj x hx0 x hx rfl) (by simpa using hgetc) hpkt
      exact total ⟨(h₂, sb₂), by simp [sbCall, hrun], rs₂, hdone, fun ht _ => htail ht⟩
    · have hnone : pktSpace ((h.allocChain m0).1.allocChain control).1 (h.allocChain m0).2 =
          none := by
        rw [Option.eq_none_iff_forall_ne_some]
        exact fun k hk => hpkt ⟨k, hk⟩
      refine ⟨fun r hrun => by simp [sbCall, sbappendaddr, hnone] at hrun, fun hnot => ?_⟩
      cases m0 with
      | nil => simp [MbufHeap.allocChain, pktSpace] at hnone
      | cons q rest =>
        obtain ⟨a, m⟩ := q
        refine absurd ?_ hnot
        have ha : ((h.allocChain ((a, m) :: rest)).1.allocChain control).1.mbuf a = m := by
          rw [hbc.mbuf_eq a fun hx => hdisj a (by simp) a hx rfl]
          have := hb0.contents
          simp only [map_cons, List.cons.injEq] at this
          exact this.1
        have hsome : (h.allocChain ((a, m) :: rest)).2 = some a := rfl
        rw [hsome, pktSpace, ha] at hnone
        simpa [Panics] using hnone
  | sbappendcontrol m0 control =>
    obtain ⟨hm0, hcontrol, hdisj⟩ := nodup_append.1 hnodup
    have hfree0 : ∀ x ∈ m0.map Prod.fst, x ∉ h.live := fun x hx =>
      hfree x (mem_append_left _ hx)
    have hb0 := allocChain_built (h := h) m0 hm0
    have hbc := allocChain_built (h := (h.allocChain m0).1) control hcontrol
    have hfreec := hb0.free (fun x hx => hfree x (mem_append_right _ hx)) hdisj
    have hr0 := hb0.rep hfree0 hr
    have hds := hbc.chain hfreec (hb0.fresh hm0 hfree0 hr)
    have hcs := hbc.fresh hcontrol hfreec hr0
    cases control with
    | nil =>
      exact ⟨fun r hrun => by simp [sbCall, sbappendcontrol, MbufHeap.allocChain] at hrun,
        fun hnot => absurd trivial hnot⟩
    | cons q rest =>
      obtain ⟨a, m⟩ := q
      obtain ⟨h₂, sb₂, b, rs₂, hrun, hdone, htail⟩ :=
        sbappendcontrol_spec (hbc.rep hfreec hr0) hcs hds fun x hx hx0 => hdisj x hx0 x hx rfl
      have hsome : ((h.allocChain m0).1.allocChain ((a, m) :: rest)).2 = some a := rfl
      exact total ⟨(h₂, sb₂), by simp [sbCall, hsome, hrun], rs₂, hdone, fun ht _ => htail ht⟩
  | sbdrop len =>
    refine ⟨fun r hrun => ?_, fun hnot => ?_⟩
    · obtain ⟨rs₂, hdone, htail, -⟩ := sbdrop_spec hr hrun
      exact ⟨rs₂, hdone, fun ht _ => htail ht⟩
    · refine sbdrop_total hr ?_
      simpa [Panics] using hnot
  | sbdroprecord =>
    obtain ⟨h₂, sb₂, rs₂, hrun, hdone, htail⟩ := sbdroprecord_spec hr
    exact total ⟨(h₂, sb₂), hrun, rs₂, hdone, fun ht _ => htail ht⟩
  | extref refs =>
    refine total ⟨({ h with refs := refs }, sb), rfl, rs, ?_, fun ht _ => ht⟩
    exact hr.frame (fun _ _ => rfl) (fun _ _ => rfl) (fun _ _ => rfl) fun _ hx => hx

/-! ## The checks -/

variable {ms : List α} {fuel : Nat}

omit [DecidableEq α] in
theorem walkLast_spec {next : α → Option α} (hfuel : ms.length < fuel)
    (hl : LinkedList next p ms) : walkLast next fuel p = some ms.getLast? := by
  induction ms generalizing p fuel with
  | nil =>
    obtain ⟨fuel, rfl⟩ := Nat.exists_eq_add_one.2 hfuel
    have hp : p = none := hl
    subst hp
    rfl
  | cons a ms ih =>
    obtain ⟨fuel, rfl⟩ := Nat.exists_eq_add_one.2 (Nat.zero_lt_of_lt hfuel)
    obtain ⟨rfl, hl⟩ := hl
    cases ms with
    | nil =>
      have hnone : next a = none := hl
      simp [walkLast, hnone]
    | cons b ms =>
      have hsome : next a = some b := hl.1
      have hrest := ih (by simpa using hfuel) hl
      rw [hsome] at hrest
      simp only [walkLast, hsome, hrest, getLast?_cons_cons]

theorem sblastrecordchk_passes (hr : SbRep h sb rs) : sblastrecordchk h sb = some () := by
  have hwalk := walkLast_spec (by simpa using hr.length_lt_bound) hr.heads
  simp [sblastrecordchk, hwalk, hr.last]

theorem sblastmbufchk_passes (hr : SbRep h sb rs) (htail : sb.mbtail = tailOf rs) :
    sblastmbufchk h sb = some () := by
  have hwalk := walkLast_spec (by simpa using hr.length_lt_bound) hr.heads
  simp only [sblastmbufchk, hwalk, Option.bind_eq_bind, Option.bind_some]
  cases rs using List.reverseRecOn with
  | nil =>
    have hnone : walkLast h.next h.bound none = some none := rfl
    simp [hnone, htail, tailOf]
  | append_singleton rs r =>
    have hmem : r ∈ rs ++ [r] := by simp
    have hnodup : (r.1 :: r.2).Nodup := by
      have := hr.nodup
      rw [mbufs_append, nodup_append] at this
      simpa using this.2.1
    have hlast : ((rs ++ [r]).map Prod.fst).getLast? = some r.1 := by simp
    have hrec : LinkedList h.next (some r.1) (r.1 :: r.2) := ⟨rfl, hr.chain r hmem⟩
    have hwalk' := walkLast_spec
      (length_lt_bound hnodup fun x hx => hr.live x (mem_mbufs_of_mem hmem x hx)) hrec
    rw [hlast, hwalk', htail]
    simp [tailOf, getLast?_cons]

theorem sbcheckTrain_spec {m : α} (len mbcnt : Nat)
    (hfuel : ms.length < fuel) (hl : LinkedList h.next p ms)
    (hpkt : ∀ x ∈ ms, x ≠ m → h.nextpkt x = none) :
    sbcheckTrain h m fuel p (BitVec.ofNat 64 len, BitVec.ofNat 64 mbcnt) =
      some (BitVec.ofNat 64 (len + weights h .cc ms), BitVec.ofNat 64 (mbcnt + weights h .mbcnt ms)) := by
  induction ms generalizing p fuel len mbcnt with
  | nil =>
    obtain ⟨fuel, rfl⟩ := Nat.exists_eq_add_one.2 hfuel
    have hp : p = none := hl
    subst hp
    rfl
  | cons a ms ih =>
    obtain ⟨fuel, rfl⟩ := Nat.exists_eq_add_one.2 (Nat.zero_lt_of_lt hfuel)
    obtain ⟨rfl, hl⟩ := hl
    have hnot : ¬(m ≠ a ∧ h.nextpkt a ≠ none) := fun hboth =>
      hboth.2 (hpkt a mem_cons_self hboth.1.symm)
    simp only [sbcheckTrain, if_neg hnot, ← BitVec.ofNat_add]
    rw [ih _ _ (by simpa using hfuel) hl fun x hx => hpkt x (mem_cons_of_mem a hx)]
    simp only [weights_cons, Nat.add_assoc, Mbuf.weight]

theorem sbcheckLoop_spec (len mbcnt : Nat) (hfuel : rs.length < fuel)
    (hheads : LinkedList h.nextpkt p (rs.map Prod.fst))
    (hchain : ∀ r ∈ rs, LinkedList h.next (h.next r.1) r.2 ∧ (r.1 :: r.2).length < h.bound ∧
      ∀ x ∈ r.2, h.nextpkt x = none) :
    sbcheckLoop h fuel p (BitVec.ofNat 64 len, BitVec.ofNat 64 mbcnt) =
      some (BitVec.ofNat 64 (len + weights h .cc (mbufs rs)),
        BitVec.ofNat 64 (mbcnt + weights h .mbcnt (mbufs rs))) := by
  induction rs generalizing p fuel len mbcnt with
  | nil =>
    obtain ⟨fuel, rfl⟩ := Nat.exists_eq_add_one.2 hfuel
    have hp : p = none := hheads
    subst hp
    rfl
  | cons r rs ih =>
    obtain ⟨fuel, rfl⟩ := Nat.exists_eq_add_one.2 (Nat.zero_lt_of_lt hfuel)
    obtain ⟨rfl, hheads⟩ := hheads
    obtain ⟨hl, hlen, hpkt⟩ := hchain r mem_cons_self
    have hrec : LinkedList h.next (some r.1) (r.1 :: r.2) := ⟨rfl, hl⟩
    have htrain := sbcheckTrain_spec (m := r.1) len mbcnt hlen hrec
      fun x hx hne => hpkt x (mem_of_ne_of_mem hne hx)
    simp only [sbcheckLoop, htrain, Option.bind_eq_bind, Option.bind_some]
    rw [ih _ _ (by simpa using hfuel) hheads fun q hq => hchain q (mem_cons_of_mem r hq)]
    simp only [mbufs_cons, weights_cons, weights_append, Nat.add_assoc]

theorem sbcheck_passes (hr : SbRep h sb rs) : sbcheck h sb = some () := by
  have hrec : ∀ r ∈ rs, LinkedList h.next (h.next r.1) r.2 ∧ (r.1 :: r.2).length < h.bound ∧
      ∀ x ∈ r.2, h.nextpkt x = none := by
    intro r hrs
    refine ⟨hr.chain r hrs, ?_, hr.inner r hrs⟩
    have hlen := length_lt_bound hr.nodup hr.live
    obtain ⟨p, q, rfl⟩ := append_of_mem hrs
    simp only [mbufs_append, mbufs_cons, length_append, length_cons] at hlen ⊢
    omega
  have hloop := sbcheckLoop_spec 0 0 hr.length_lt_bound hr.heads hrec
  have hcc : sb.cc = BitVec.ofNat 64 (weights h .cc (mbufs rs)) := hr.count .cc
  have hmbcnt : sb.mbcnt = BitVec.ofNat 64 (weights h .mbcnt (mbufs rs)) := hr.count .mbcnt
  simp only [Nat.zero_add] at hloop
  simp only [sbcheck]
  rw [show ((0 : BitVec 64), (0 : BitVec 64)) = (BitVec.ofNat 64 0, BitVec.ofNat 64 0) from rfl,
    hloop]
  simp [hcc, hmbcnt]

/-! ## Runs -/

theorem sbStep_spec {s s' : SbState α} {e : SbCall α} (hr : SbRep s.heap s.sb rs)
    (hs : sbStep s e = some s') :
    ∃ rs', SbRep s'.heap s'.sb rs' ∧
      (s.sb.mbtail = tailOf rs → CallKeepsTail s.heap rs e → s'.sb.mbtail = tailOf rs') := by
  rw [sbStep] at hs
  split at hs
  · next hfresh =>
    obtain ⟨r, hrun, rfl⟩ := Option.map_eq_some_iff.1 hs
    exact (sbCall_spec hr e hfresh.1 hfresh.2).1 r hrun
  · exact absurd hs (by simp)

/-- The buffer is what its counters and cached pointers say, its checks pass, and a call
    that does not panic returns. -/
def SockbufOk (s : SbState α) : Prop :=
  ∃ rs, Records s.heap s.sb rs ∧
    s.sb.cc = BitVec.ofNat 64 ((mbufs rs).map fun x => (s.heap.mbuf x).len).sum ∧
    s.sb.datacc = BitVec.ofNat 64
      ((mbufs rs).map fun x => if (s.heap.mbuf x).isData then (s.heap.mbuf x).len else 0).sum ∧
    s.sb.mbcnt = BitVec.ofNat 64 ((mbufs rs).map fun x => msize + (s.heap.mbuf x).extSize).sum ∧
    s.sb.lastrecord = (rs.map Prod.fst).getLast? ∧
    s.sb.mbtail = tailOf rs ∧
    sbcheck s.heap s.sb = some () ∧
    sblastrecordchk s.heap s.sb = some () ∧
    sblastmbufchk s.heap s.sb = some () ∧
    ∀ e : SbCall α, e.taken.Nodup → (∀ a ∈ e.taken, a ∉ s.heap.live) → ¬Panics s.heap rs e →
      ∃ s', sbStep s e = some s'

/-- In every run whose calls all keep the tail. -/
theorem sockbuf_run {hiwat mbmax : BitVec 64} {es : List (SbCall α)} {s : SbState α}
    (hrun : Run sbStep KeepsTail (sbInit h hiwat mbmax) es s) : SockbufOk s := by
  have hstep : ∀ (s : SbState α) (e : SbCall α) (s' : SbState α),
      (∃ rs, SbRep s.heap s.sb rs ∧ s.sb.mbtail = tailOf rs) → KeepsTail s e →
      sbStep s e = some s' → ∃ rs, SbRep s'.heap s'.sb rs ∧ s'.sb.mbtail = tailOf rs := by
    rintro s e s' ⟨rs, hr, ht⟩ hkeep hs
    obtain ⟨rs', hr', ht'⟩ := sbStep_spec hr hs
    exact ⟨rs', hr', ht' ht (hkeep rs ⟨hr.heads, hr.chain⟩)⟩
  obtain ⟨rs, hr, ht⟩ := hrun.invariant hstep ⟨[], .empty rfl rfl fun c => by cases c <;> rfl, rfl⟩
  refine ⟨rs, ⟨hr.heads, hr.chain⟩, hr.count .cc, hr.count .datacc, hr.count .mbcnt, hr.last, ht,
    sbcheck_passes hr, sblastrecordchk_passes hr, sblastmbufchk_passes hr ht, ?_⟩
  intro e hnodup hfree hnot
  obtain ⟨r, hr⟩ := (sbCall_spec hr e hnodup hfree).2 hnot
  exact ⟨_, by rw [sbStep, if_pos ⟨hnodup, hfree⟩, hr]; rfl⟩

end Run

/-- An mbuf with these bytes. -/
def plainMbuf (mtype : MbufType) (data : List UInt8) : Mbuf where
  data := data
  off := 0
  mtype := mtype
  eor := false
  pkthdr := false
  zeroize := false
  pktLen := 0
  ext := none

/-- A memory without mbufs in use. -/
def emptyHeap : MbufHeap Nat where
  mbuf := fun _ => plainMbuf .free []
  next := fun _ => none
  nextpkt := fun _ => none
  live := []
  refs := fun _ => 0

/-- Control and data, appended as a record. -/
theorem sockbuf_run_record : ∃ s, Run sbStep KeepsTail (sbInit emptyHeap 1000 8000)
    [.sbappendrecord [(1, plainMbuf .control [7]), (2, plainMbuf .data [8, 9])]] s ∧
    SockbufOk s := by
  have hrun : Run sbStep KeepsTail (sbInit emptyHeap 1000 8000)
      [.sbappendrecord [(1, plainMbuf .control [7]), (2, plainMbuf .data [8, 9])]] _ :=
    .cons (fun _ _ => by simp only [CallKeepsTail]; decide) rfl (.nil _)
  exact ⟨_, hrun, sockbuf_run hrun⟩

/-- A record of one mbuf in an empty buffer: `sb_mbtail` stays `NULL`. -/
theorem lone_record_tail : ∃ s, Run sbStep (fun _ _ => True) (sbInit emptyHeap 1000 8000)
    [.sbappendrecord [(1, plainMbuf .data [7])]] s ∧ s.sb.mb = some 1 ∧
    s.sb.lastrecord = some 1 ∧ s.sb.mbtail = none ∧ ¬SockbufOk s := by
  have hrun : Run sbStep (fun _ _ => True) (sbInit emptyHeap 1000 8000)
      [.sbappendrecord [(1, plainMbuf .data [7])]] _ := .cons trivial rfl (.nil _)
  refine ⟨_, hrun, rfl, rfl, rfl, ?_⟩
  rintro ⟨rs, -, -, -, -, -, -, -, -, hchk, -⟩
  exact absurd hchk (by decide)

end OpenBsd.Kern
