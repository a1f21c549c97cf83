/-
  OpenBsd.Net.PfReass6Header

  The packet that `pf_reassemble6` makes of a complete queue has the headers of the first
  fragment, with the right next header field, just when the fragment that came last has its
  next header field at the same place.
-/

import OpenBsd.Net.PfFragRun
import OpenBsd.Net.PfReass6

namespace OpenBsd.Net

open OpenBsd.Lib OpenBsd.Netinet List Option

/-! ## The queue without `fe_extoff` -/

theorem cutAfter_inet6 {after : List PfFrent6} {frent : PfFrent6}
    (h : ∀ next, after.head? = some next → frent.frent.stop ≤ next.frent.feOff) :
    cutAfter frent.frent (after.map PfFrent6.frent) = after.map PfFrent6.frent := by
  cases after with
  | nil => rfl
  | cons next rest =>
    rw [map_cons, cutAfter, if_neg (Nat.not_lt.mpr (h next rfl))]

theorem insertAfter_inet6 (before after : List PfFrent6) (frent : PfFrent6) :
    insertFrent.insertAfter .inet6 (before.map PfFrent6.frent) (after.map PfFrent6.frent)
        frent.frent =
      if after.head?.any (fun next => frent.frent.stop > next.frent.feOff) then .freed
      else .filled ((before ++ frent :: after).map PfFrent6.frent) := by
  have hhead : (after.head?.any fun next => decide (frent.frent.stop > next.frent.feOff)) = true ↔
      ∃ next ∈ (after.map PfFrent6.frent).head?, frent.frent.stop > next.feOff := by
    cases after <;> simp
  unfold insertFrent.insertAfter
  by_cases hover : (after.head?.any fun next => frent.frent.stop > next.frent.feOff) = true
  · rw [if_pos hover, if_pos ⟨rfl, hhead.mp hover⟩]
  · rw [if_neg hover, if_neg fun hno => hover (hhead.mpr hno.2), cutAfter_inet6, map_append,
      map_cons]
    intro next hnext
    refine Nat.not_lt.mp fun hlt => hover ?_
    rw [hnext]
    exact decide_eq_true hlt

theorem insertFrent_inet6 (before after : List PfFrent6) (frent : PfFrent6) :
    insertFrent .inet6 (before.map PfFrent6.frent) (after.map PfFrent6.frent) frent.frent =
      if overlapsNext before after frent then .freed
      else .filled ((before ++ frent :: after).map PfFrent6.frent) := by
  rw [insertFrent, getLast?_map, insertAfter_inet6, overlapsNext]
  cases before.getLast? with
  | none => rfl
  | some prev =>
    simp only [map_some, any_some, if_true]
    by_cases hover : prev.frent.stop > frent.frent.feOff
    · simp only [if_pos hover, decide_eq_true hover, Bool.true_or, if_true]
    · simp only [if_neg hover, decide_eq_false hover, Bool.false_or]

theorem pfFillupFragment6_frents (frag : Option PfFragment6) (frent : PfFrent6) (mem : Bool) :
    (pfFillupFragment6 frag frent mem).map (fun r => (r.1.map PfFragment6.frents, r.2)) =
      pfFillupFragment .inet6 (frag.map PfFragment6.frents) frent.frent mem := by
  unfold pfFillupFragment6 pfFillupFragment
  by_cases hbad : badFragment frent.frent = true
  · rw [if_pos hbad, if_pos hbad]
    rfl
  · rw [if_neg hbad, if_neg hbad]
    cases frag with
    | none => cases mem <;> rfl
    | some g =>
      simp only [map_some, PfFragment6.frents, getLast?_map]
      cases g.frQueue.getLast? with
      | none => rfl
      | some last =>
        simp only [map_some]
        by_cases hend : badEnd last.frent frent.frent = true
        · rw [if_pos hend, if_pos hend]
          rfl
        · have hp : (fun e : PfFrent => !decide (e.feOff > frent.frent.feOff)) ∘ PfFrent6.frent =
              fun e => !decide (e.frent.feOff > frent.frent.feOff) := rfl
          rw [if_neg hend, if_neg hend, takeWhile_map, dropWhile_map, hp, insertFrent_inet6]
          simp only [map_eq_nil_iff]
          split
          · rfl
          · split <;> rfl

/-! ## Packets -/

/-- What `pf_setup_pdesc` and `pf_pull_hdr` see to: the headers up to the fragment header are in
    the packet, and the packet is not shorter than it says. -/
structure Pf6Packet.Ok (p : Pf6Packet) : Prop where
  hdr : ip6HdrLen + ip6FragLen ≤ p.hdrlen
  hdrlen_lt : p.hdrlen < 2 ^ 16
  plen : p.hdrlen ≤ ip6HdrLen + half p.m 4
  whole : ip6HdrLen + half p.m 4 ≤ p.m.length
  extoff : p.extoff = 0 ∨ ip6HdrLen ≤ p.extoff ∧ p.extoff < p.hdrlen - ip6FragLen

theorem half_lt (m : List UInt8) (i : Nat) : half m i < 2 ^ 16 := by
  have h0 := (m.getD i 0).toNat_lt
  have h1 := (m.getD (i + 1) 0).toNat_lt
  unfold half
  omega

theorem Pf6Packet.Ok.frent_whole {p : Pf6Packet} (h : p.Ok) : (frentOf6 p).frent.Whole := by
  have hhdr := h.hdr
  have hplen := h.plen
  have hwhole := h.whole
  have hlt := half_lt p.m 4
  simp only [ip6HdrLen, ip6FragLen] at hhdr hplen hwhole
  simp only [PfFrent.Whole, frentOf6, ip6HdrLen]
  omega

theorem Pf6Packet.Ok.nextField {p : Pf6Packet} (h : p.Ok) :
    6 ≤ nextField p.extoff ∧ nextField p.extoff < p.hdrlen - ip6FragLen := by
  have hhdr := h.hdr
  have hext := h.extoff
  simp only [ip6HdrLen, ip6FragLen] at hhdr hext ⊢
  unfold Net.nextField
  split <;> omega

/-! ## Runs -/

/-- The queue is one that fragments lead to, and has entries of packets. -/
def Pf6State.Good (s : Pf6State) : Prop :=
  (∃ received, PfFragState.Reach .inet6 ⟨s.frag.map PfFragment6.frents, received⟩) ∧
    ∀ g, s.frag = some g → ∀ e ∈ g.frQueue, ∃ p : Pf6Packet, p.Ok ∧ e = frentOf6 p

theorem Pf6State.none_good : Pf6State.none.Good :=
  ⟨⟨[], .start⟩, fun g hg => by cases hg⟩

variable {s s' : Pf6State} {p : Pf6Packet} {mem : Pf6Mem}

theorem Pf6State.Good.fillup (h : s.Good) (hp : p.Ok) {frag' : Option PfFragment6} {filled : Bool}
    (hfill : pfFillupFragment6 s.frag (frentOf6 p) mem.frag = some (frag', filled))
    (accepted rejected : List PfFrent6) : Pf6State.Good ⟨frag', accepted, rejected⟩ := by
  obtain ⟨⟨received, hreach⟩, hentries⟩ := h
  refine ⟨⟨(frentOf6 p).frent :: received, ?_⟩, ?_⟩
  · refine .fillup (frentOf6 p).frent mem.frag hreach hp.frent_whole ?_
    rw [PfFragState.fillup, ← pfFillupFragment6_frents, hfill]
    rfl
  · intro g hg e he
    obtain rfl : frag' = some g := hg
    rcases pfFillupFragment6_cases hfill with ⟨-, -, -, maxlen, heq⟩ |
      ⟨g₀, before, after, maxlen, -, hfrag, -, -, hsplit, -, -, heq⟩ | ⟨-, heq⟩ |
      ⟨g₀, maxlen, -, hfrag, heq, -⟩
    · cases heq
      rw [mem_singleton.mp he]
      exact ⟨p, hp, rfl⟩
    · cases heq
      have hold : e ∈ before ++ after → ∃ p : Pf6Packet, p.Ok ∧ e = frentOf6 p := by
        intro hmem
        exact hentries g₀ hfrag e (by rw [hsplit]; exact hmem)
      rcases mem_append.mp he with he | he
      · exact hold (mem_append_left _ he)
      · rcases mem_cons.mp he with rfl | he
        · exact ⟨p, hp, rfl⟩
        · exact hold (mem_append_right _ he)
    · cases heq
    · cases heq
      exact hentries g₀ hfrag e he

theorem Pf6State.receive_good (h : s.Good) (hp : p.Ok) (hrecv : s.receive p mem = some s') :
    s'.Good := by
  unfold Pf6State.receive at hrecv
  cases hcreate : mem.create with
  | false =>
    rw [hcreate] at hrecv
    cases hrecv
    dsimp only
    split
    · exact h
    · exact Pf6State.none_good
  | true =>
    rw [hcreate] at hrecv
    obtain ⟨⟨frag', filled⟩, hfill, heq⟩ := map_eq_some_iff.mp hrecv
    have hgood := h.fillup hp hfill
    cases frag' with
    | none =>
      cases heq
      exact Pf6State.none_good
    | some g =>
      cases filled <;> cases heq <;> exact hgood _ _

theorem Pf6State.Reach.good (hr : s.Reach fun _ p _ => p.Ok) : s.Good := by
  induction hr with
  | start => exact Pf6State.none_good
  | step p mem _ hp hstep ih =>
    obtain ⟨r, -, hstep⟩ := bind_eq_some_iff.mp hstep
    obtain ⟨s₁, hrecv, hstep⟩ := bind_eq_some_iff.mp hstep
    cases hstep
    split
    · exact Pf6State.receive_good ih hp hrecv
    · exact Pf6State.none_good
  | free => exact Pf6State.none_good

/-! ## Complete queues -/

/-- The fragment of the packet completes the queue. -/
structure Pf6State.Completes (s : Pf6State) (p : Pf6Packet) (mem : Pf6Mem) (g : PfFragment6) :
    Prop where
  create : mem.create = true
  filled : pfFillupFragment6 s.frag (frentOf6 p) mem.frag = some (some g, true)
  full : pfIsfullFragment g.frents = some true

variable {l : List PfFrent} {off : Nat}

theorem Contig.le (h : Contig off l) : ∀ e ∈ l, off ≤ e.feOff := by
  induction l generalizing off with
  | nil => exact fun e he => absurd he not_mem_nil
  | cons e₀ es ih =>
    intro e he
    rcases mem_cons.mp he with rfl | he
    · exact Nat.le_of_eq h.1.symm
    · have hle := ih h.2 e he
      have hoff := h.1
      unfold PfFrent.stop at hle
      omega

theorem Contig.window (h : Contig off l)
    (hlen : ∀ e ∈ l, e.payload.length = e.feLen) :
    ∀ e ∈ l, ((l.map PfFrent.payload).flatten.drop (e.feOff - off)).take e.feLen = e.payload := by
  induction l generalizing off with
  | nil => exact fun e he => absurd he not_mem_nil
  | cons e₀ es ih =>
    obtain ⟨hoff, hrest⟩ := h
    have hlen₀ := hlen e₀ mem_cons_self
    intro e he
    rw [map_cons, flatten_cons]
    rcases mem_cons.mp he with rfl | he
    · rw [hoff, Nat.sub_self, List.drop_zero, ← hlen₀, take_left]
    · have hle := hrest.le e he
      have hwindow := ih hrest (fun e he => hlen e (mem_cons_of_mem e₀ he)) e he
      have hskip : e.feOff - off = e₀.payload.length + (e.feOff - e₀.stop) := by
        unfold PfFrent.stop at hle ⊢
        omega
      rw [hskip, drop_append, drop_of_length_le (Nat.le_add_right _ _), nil_append,
        Nat.add_sub_cancel_left]
      exact hwindow

/-- A complete queue: its first entry, and the payload that the entries have together. -/
structure Complete6 (g : PfFragment6) (first : Pf6Packet) (payload : List UInt8) : Prop where
  ok : first.Ok
  head : g.frQueue.head? = some (frentOf6 first)
  off : (frentOf6 first).frent.feOff = 0
  window : ∀ e ∈ g.frQueue, (payload.drop e.frent.feOff).take e.frent.feLen = e.frent.payload
  total : ∃ last, g.frQueue.getLast? = some last ∧ payload.length = last.frent.stop ∧
    last.frent.stop ≤ ipMaxpacket
  join : pfJoinFragment g.frents = first.m.take first.hdrlen ++ payload

theorem Pf6State.Good.complete (h : s.Good) (hp : p.Ok) {g : PfFragment6}
    (hc : s.Completes p mem g) : ∃ first payload, Complete6 g first payload := by
  obtain ⟨⟨received, hreach⟩, hentries⟩ := h.fillup hp hc.filled s.accepted s.rejected
  have hok : FragOk (FragCarried received) g.frents := (hreach.ok g.frents rfl).1
  obtain ⟨last, hlast⟩ : ∃ last, g.frents.getLast? = some last :=
    isSome_iff_exists.mp (getLast?_isSome.mpr hok.ne)
  obtain ⟨hpieces, hend⟩ := hok.upto hlast
  have hmax := (hok.last hlast).2.1
  rcases pfIsfullFragment_spec hok hlast with ⟨-, -, hcont⟩ | ⟨hnot, -⟩
  · obtain ⟨-, hlen⟩ := contig_payload hpieces hok.ne hend hcont
    have hlens : ∀ e ∈ g.frents, e.payload.length = e.feLen := by
      intro e he
      obtain ⟨a, d, -, -, hat, -⟩ := hok.pieces.mem he
      rw [hat.payload, hat.len]
    cases hq : g.frQueue with
    | nil => exact absurd (congrArg (List.map PfFrent6.frent) hq) hok.ne
    | cons e es =>
      obtain ⟨first, hfirst, rfl⟩ := hentries g rfl e (by rw [hq]; exact mem_cons_self)
      have hfrents : g.frents = (frentOf6 first).frent :: es.map PfFrent6.frent := by
        rw [PfFragment6.frents, hq, map_cons]
      rw [hfrents] at hcont
      refine ⟨first, (g.frents.map PfFrent.payload).flatten, hfirst, by rw [hq]; rfl, hcont.1,
        ?_, ?_, ?_⟩
      · intro e' he'
        rw [← hfrents] at hcont
        exact hcont.window hlens e'.frent (List.mem_map_of_mem he')
      · rw [PfFragment6.frents, getLast?_map] at hlast
        obtain ⟨last', hlast', rfl⟩ := map_eq_some_iff.mp hlast
        exact ⟨last', hlast', by omega, hmax⟩
      · rw [hfrents]
        exact pfJoinFragment_eq _ _
  · rw [hc.full] at hnot
    cases hnot

/-! ## Writes to a packet -/

variable {i j : Nat}

theorem set_eq_set_iff {α : Type} {l : List α} {b : α} (hi : i < l.length)
    (hj : j < l.length) : l.set i b = l.set j b ↔ i = j ∨ l[i]? = some b ∧ l[j]? = some b := by
  constructor
  · intro h
    by_cases hij : i = j
    · exact .inl hij
    · refine .inr ⟨?_, ?_⟩
      · rw [← getElem?_set_ne (Ne.symm hij) (a := b), ← h, getElem?_set_self hi]
      · rw [← getElem?_set_ne hij (a := b), h, getElem?_set_self hj]
  · have hsame : ∀ {k : Nat}, l[k]? = some b → l.set k b = l := by
      intro k hk
      obtain ⟨hlt, rfl⟩ := List.getElem?_eq_some_iff.mp hk
      exact set_getElem_self hlt
    rintro (rfl | ⟨hi', hj'⟩)
    · rfl
    · rw [hsame hi', hsame hj']

@[simp] theorem setHalf_length (m : List UInt8) (i v : Nat) :
    (setHalf m i v).length = m.length := by
  rw [setHalf, length_set, length_set]

theorem setHalf_append {m n : List UInt8} (v : Nat) (h : i + 1 < m.length) :
    setHalf (m ++ n) i v = setHalf m i v ++ n := by
  rw [setHalf, set_append_left _ _ (by omega), set_append_left _ _ (by simpa using h), setHalf]

theorem setHalf_getElem? {m : List UInt8} (v : Nat) (h : i + 1 < j) :
    (setHalf m i v)[j]? = m[j]? := by
  rw [setHalf, getElem?_set_ne (by omega), getElem?_set_ne (by omega)]

/-! ## The packet -/

/-- The next header value of the fragment header. -/
def ip6fNxt (p : Pf6Packet) : UInt8 := p.m.getD (p.hdrlen - ip6FragLen) 0

/-- The headers in front of the fragment header. -/
def unfragHdr (p : Pf6Packet) : List UInt8 := p.m.take (p.hdrlen - ip6FragLen)

/-- The headers of the first fragment without the fragment header, whose next header value they
    have instead, with the length of the payload, and the payload. -/
def rebuilt6 (first : Pf6Packet) (payload : List UInt8) : List UInt8 :=
  let plen := first.hdrlen - ip6FragLen - ip6HdrLen + payload.length
  (setHalf (unfragHdr first) 4 plen).set (nextField first.extoff) (ip6fNxt first) ++ payload

/-- The next header field is at the same place in both packets, or it makes no difference which
    of the two places is written. -/
def SameNextField (first p : Pf6Packet) (payload : List UInt8) : Prop :=
  nextField p.extoff = nextField first.extoff ∨
    (unfragHdr first ++ payload)[nextField p.extoff]? = some (ip6fNxt first) ∧
      (unfragHdr first)[nextField first.extoff]? = some (ip6fNxt first)

theorem Pf6Packet.Ok.unfragHdr_length (h : p.Ok) :
    (unfragHdr p).length = p.hdrlen - ip6FragLen := by
  have hplen := h.plen
  have hwhole := h.whole
  rw [unfragHdr, length_take]
  omega

variable {payload : List UInt8} {first : Pf6Packet} {g : PfFragment6}

/-- The packet with its fragment header taken out. -/
theorem Complete6.delete (h : Complete6 g first payload) :
    mGetbyte (pfJoinFragment g.frents) (first.hdrlen - ip6FragLen) = some (ip6fNxt first) ∧
      ∀ split, frag6Deletefraghdr (pfJoinFragment g.frents) (first.hdrlen - ip6FragLen) split =
        if split then some (unfragHdr first ++ payload) else none := by
  have hhdr := h.ok.hdr
  have hplen := h.ok.plen
  have hwhole := h.ok.whole
  have hlen : first.hdrlen - ip6FragLen < (first.m.take first.hdrlen).length := by
    rw [length_take]
    simp only [ip6HdrLen, ip6FragLen] at hhdr ⊢
    omega
  have hfull : (first.m.take first.hdrlen).length = first.hdrlen := by
    rw [length_take]
    omega
  rw [h.join]
  refine ⟨?_, ?_⟩
  · have hlt : first.hdrlen - ip6FragLen < first.m.length := by
      rw [length_take] at hlen
      omega
    rw [mGetbyte, getElem?_append_left hlen, getElem?_take_of_lt (by omega),
      ip6fNxt, getD_eq_getElem?_getD, getElem?_eq_getElem hlt, getD_some]
  · intro split
    cases split with
    | false => rfl
    | true =>
      have hle : first.hdrlen - ip6FragLen ≤ (first.m.take first.hdrlen ++ payload).length := by
        rw [length_append]
        omega
      rw [frag6Deletefraghdr, decide_eq_true hle, Bool.true_and, if_pos rfl, if_pos rfl, mAdj,
        if_pos (by omega), Int.toNat_natCast, List.drop_drop, take_append_of_le_length (Nat.le_of_lt hlen),
        take_take, Nat.min_eq_left (by omega), unfragHdr]
      have hend : first.hdrlen - ip6FragLen + ip6FragLen = (first.m.take first.hdrlen).length := by
        rw [hfull]
        simp only [ip6HdrLen, ip6FragLen] at hhdr ⊢
        omega
      rw [hend, drop_left]

/-- `pf_reassemble6` with a complete queue. -/
theorem pfComplete6_eq (h : Complete6 g first payload) (extoff : Nat) :
    let plen := first.hdrlen - ip6FragLen - ip6HdrLen + payload.length
    let mtag : PfFragmentTag := ⟨first.hdrlen - ip6FragLen, extoff, g.frMaxlen⟩
    pfComplete6 g extoff mem =
      if mem.split = false then some ⟨none, .drop, some (pfJoinFragment g.frents), none⟩
      else if mem.mtag = false then some ⟨none, .drop, some (unfragHdr first ++ payload), none⟩
      else
        (mSetbyte (setHalf (unfragHdr first ++ payload) 4 plen) (nextField extoff)
            (ip6fNxt first)).bind fun m =>
          if plen > ipv6Maxpacket then some ⟨none, .drop, some (setHalf m 4 0), some mtag⟩
          else some ⟨none, .pass, some m, some mtag⟩ := by
  intro plen mtag
  obtain ⟨last, hlast, htotal, hmax⟩ := h.total
  obtain ⟨hget, hdelete⟩ := h.delete
  have hhdr := h.ok.hdr
  have hlt := h.ok.hdrlen_lt
  simp only [ipMaxpacket] at hmax
  have hhead : g.frents.head? = some (frentOf6 first).frent := by
    rw [PfFragment6.frents, head?_map, h.head, map_some]
  have hlast' : g.frents.getLast? = some last.frent := by
    rw [PfFragment6.frents, getLast?_map, hlast, map_some]
  have hhdrlen : ((frentOf6 first).frent.feHdrlen + 2 ^ 16 - ip6FragLen) % 2 ^ 16 =
      first.hdrlen - ip6FragLen := by
    simp only [frentOf6, ip6HdrLen, ip6FragLen] at hhdr ⊢
    omega
  have hplen : (first.hdrlen - ip6FragLen + 2 ^ 64 - ip6HdrLen + last.frent.stop % 2 ^ 16) %
      2 ^ 64 = plen := by
    simp only [ip6HdrLen, ip6FragLen, plen, htotal] at hhdr ⊢
    omega
  rw [pfComplete6, hhead, hlast']
  simp only [hhdrlen, hplen, hget, hdelete, bind_eq_bind, bind_some]
  cases mem.split with
  | false => rfl
  | true =>
    cases mem.mtag with
    | false => rfl
    | true => rfl

theorem mSetbyte_eq_rebuilt6_iff (payload : List UInt8) (hfirst : first.Ok)
    (hp : p.Ok) :
    let plen := first.hdrlen - ip6FragLen - ip6HdrLen + payload.length
    mSetbyte (setHalf (unfragHdr first ++ payload) 4 plen) (nextField p.extoff) (ip6fNxt first) =
      some (rebuilt6 first payload) ↔ SameNextField first p payload := by
  intro plen
  obtain ⟨hlo, hhi⟩ := hfirst.nextField
  have hlo' := hp.nextField.1
  have hlen := hfirst.unfragHdr_length
  have hfield : nextField first.extoff < (unfragHdr first).length := by omega
  have hin : nextField first.extoff < (setHalf (unfragHdr first ++ payload) 4 plen).length := by
    rw [setHalf_length, length_append]
    omega
  have hrebuilt : rebuilt6 first payload =
      (setHalf (unfragHdr first ++ payload) 4 plen).set (nextField first.extoff)
        (ip6fNxt first) := by
    rw [rebuilt6, setHalf_append _ (by omega), set_append_left _ _ (by simpa using hfield)]
  have hbyte : ∀ {j : Nat}, 6 ≤ j → (setHalf (unfragHdr first ++ payload) 4 plen)[j]? =
      (unfragHdr first ++ payload)[j]? := fun hj => setHalf_getElem? _ (by omega)
  rw [hrebuilt, mSetbyte, SameNextField]
  by_cases hlt : nextField p.extoff < (setHalf (unfragHdr first ++ payload) 4 plen).length
  · rw [if_pos hlt, some_inj, set_eq_set_iff hlt hin, hbyte hlo', hbyte hlo,
      getElem?_append_left hfield]
  · rw [if_neg hlt]
    refine ⟨fun hno => (by cases hno), ?_⟩
    rintro (hsame | ⟨hat, -⟩)
    · exact absurd (hsame ▸ hin) hlt
    · rw [← hbyte hlo', getElem?_eq_none (Nat.not_lt.mp hlt)] at hat
      cases hat

/-- A fragment that completes its queue.  Where memory and the length of the packet allow it,
    `pf_reassemble6` gives the headers of the first fragment and the payload just when the next
    header field is at the same place in the first and in the last fragment that came. -/
theorem pfReassemble6_rebuilds_iff (hr : s.Reach fun _ p _ => p.Ok) (hp : p.Ok) {g : PfFragment6}
    (hc : s.Completes p mem g) :
    ∃ first payload, first.Ok ∧ g.frQueue.head? = some (frentOf6 first) ∧
      (frentOf6 first).frent.feOff = 0 ∧
      (∀ e ∈ g.frQueue, (payload.drop e.frent.feOff).take e.frent.feLen = e.frent.payload) ∧
      (∃ last, g.frQueue.getLast? = some last ∧ payload.length = last.frent.stop) ∧
      (∀ r, pfReassemble6 s.frag p mem = some r → r.verdict = .pass →
        mem.split = true ∧ mem.mtag = true ∧
          first.hdrlen - ip6FragLen - ip6HdrLen + payload.length ≤ ipv6Maxpacket) ∧
      (mem.split = true → mem.mtag = true →
        first.hdrlen - ip6FragLen - ip6HdrLen + payload.length ≤ ipv6Maxpacket →
        ((∃ mtag, pfReassemble6 s.frag p mem =
            some ⟨none, .pass, some (rebuilt6 first payload), mtag⟩) ↔
          SameNextField first p payload)) := by
  obtain ⟨first, payload, hcomplete⟩ := hr.good.complete hp hc
  obtain ⟨last, hlast, htotal, -⟩ := hcomplete.total
  have hres : pfReassemble6 s.frag p mem = pfComplete6 g p.extoff mem := by
    rw [pfReassemble6, hc.create]
    simp only [Bool.not_true, Bool.false_eq_true, if_false, hc.filled, hc.full]
    rfl
  rw [hres, pfComplete6_eq hcomplete]
  refine ⟨first, payload, hcomplete.ok, hcomplete.head, hcomplete.off, hcomplete.window,
    ⟨last, hlast, htotal⟩, ?_, ?_⟩
  · intro r hr hpass
    cases hsplit : mem.split with
    | false =>
      rw [hsplit] at hr
      cases hr
      cases hpass
    | true =>
      cases hmtag : mem.mtag with
      | false =>
        rw [hsplit, hmtag] at hr
        cases hr
        cases hpass
      | true =>
        rw [hsplit, hmtag] at hr
        obtain ⟨m, -, hr⟩ := bind_eq_some_iff.mp hr
        split at hr
        · cases hr
          cases hpass
        · rename_i hfits
          exact ⟨rfl, rfl, Nat.not_lt.mp hfits⟩
  · intro hsplit hmtag hfits
    refine Iff.trans ?_ (mSetbyte_eq_rebuilt6_iff payload hcomplete.ok hp)
    rw [hsplit, hmtag]
    simp only [Bool.true_eq_false, if_false, if_neg (Nat.not_lt.mpr hfits)]
    constructor
    · rintro ⟨mtag, hmtag⟩
      obtain ⟨m, hm, heq⟩ := bind_eq_some_iff.mp hmtag
      cases heq
      exact hm
    · intro hm
      rw [hm]
      exact ⟨_, rfl⟩

/-- A fragment of UDP data behind the extension header `ext`, if there is one. -/
def udpFragment (ext : List UInt8) (ip6fOfflg : Nat) (data : List UInt8) : Pf6Packet where
  m := [0x60, 0, 0, 0, 0, UInt8.ofNat (ext.length + 8 + data.length),
      if ext = [] then 44 else 60, 64] ++ List.replicate 32 0 ++ ext ++
    [17, 0, 0, UInt8.ofNat ip6fOfflg, 0, 0, 0, 1] ++ data
  ip6fOfflg
  hdrlen := 48 + ext.length
  extoff := if ext = [] then 0 else 40

/-- The first 8 bytes. -/
def udpFirst : Pf6Packet := udpFragment [] 1 [1, 2, 3, 4, 5, 6, 7, 8]

/-- The queue that it creates. -/
def udpFirstState : Pf6State := ⟨some ⟨[frentOf6 udpFirst], 8⟩, [frentOf6 udpFirst], []⟩

theorem udpFirstState_reach : udpFirstState.Reach fun _ p _ => p.Ok :=
  .step udpFirst .all .start ⟨by decide, by decide, by decide, by decide, by decide⟩
    (by decide)

theorem pfReassemble6_rebuilds_two :
    ∃ first payload mtag, payload.length = 10 ∧
      pfReassemble6 udpFirstState.frag (udpFragment [] 8 [9, 10]) .all =
        some ⟨none, .pass, some (rebuilt6 first payload), mtag⟩ := by
  have hp : (udpFragment [] 8 [9, 10]).Ok := ⟨by decide, by decide, by decide, by decide, by decide⟩
  have hc : udpFirstState.Completes (udpFragment [] 8 [9, 10]) .all
      ⟨[frentOf6 udpFirst, frentOf6 (udpFragment [] 8 [9, 10])], 8⟩ :=
    ⟨rfl, by decide, by decide⟩
  obtain ⟨first, payload, -, hhead, -, -, ⟨last, hlast, hlen⟩, -, hiff⟩ :=
    pfReassemble6_rebuilds_iff udpFirstState_reach hp hc
  have hfirst : frentOf6 udpFirst = frentOf6 first := Option.some.inj hhead
  have hhdrlen : udpFirst.hdrlen = first.hdrlen :=
    congrArg (fun e : PfFrent6 => e.frent.feHdrlen) hfirst
  have hextoff : udpFirst.extoff = first.extoff := congrArg PfFrent6.feExtoff hfirst
  have hten : payload.length = 10 := by
    cases hlast
    exact hlen
  obtain ⟨mtag, hres⟩ := (hiff rfl rfl (by rw [← hhdrlen, hten]; decide)).mpr
    (.inl (by rw [← hextoff]; rfl))
  exact ⟨first, payload, mtag, hten, hres⟩

/-- A destination options header in front of the last fragment header only: its place in the
    packet of the first fragment is in the payload, and `ip6_nxt` stays 44. -/
theorem pfReassemble6_writes_payload :
    ∃ p g r, p.Ok ∧ udpFirstState.Reach (fun _ p _ => p.Ok) ∧
      udpFirstState.Completes p .all g ∧ g.frQueue.head? = some (frentOf6 udpFirst) ∧
      pfReassemble6 udpFirstState.frag p .all = some r ∧ r.verdict = .pass ∧
      ∀ payload, r.m ≠ some (rebuilt6 udpFirst payload) := by
  have hrun : (pfReassemble6 udpFirstState.frag
      (udpFragment [44, 0, 1, 4, 0, 0, 0, 0] 8 [9, 10]) .all).any (fun r =>
        r.verdict = .pass ∧ r.m.map (fun m => m.getD 6 0) = some 44) = true := by
    decide
  obtain ⟨r, hres, hr⟩ := (Option.any_eq_true _ _).mp hrun
  obtain ⟨hpass, hbyte⟩ := of_decide_eq_true hr
  refine ⟨udpFragment [44, 0, 1, 4, 0, 0, 0, 0] 8 [9, 10],
    ⟨[frentOf6 udpFirst, frentOf6 (udpFragment [44, 0, 1, 4, 0, 0, 0, 0] 8 [9, 10])], 8⟩, r,
    ⟨by decide, by decide, by decide, by decide, by decide⟩, udpFirstState_reach,
    ⟨rfl, by decide, by decide⟩, rfl, hres, hpass, ?_⟩
  intro payload heq
  have hlen : ∀ v, 6 < (setHalf (unfragHdr udpFirst) 4 v).length := by
    intro v
    rw [setHalf_length]
    decide
  have hfield : nextField udpFirst.extoff = 6 := rfl
  rw [heq, map_some, rebuilt6, getD_eq_getElem?_getD, hfield,
    getElem?_append_left (by rw [length_set]; exact hlen _), getElem?_set_self (hlen _)] at hbyte
  exact absurd hbyte (by decide)

end OpenBsd.Net
