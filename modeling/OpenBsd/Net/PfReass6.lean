/-
  OpenBsd.Net.PfReass6

  `pf_reassemble6` of `sys/net/pf_norm.c` and what it uses of `sys/netinet6/frag6.c`, for the
  queue of one key.

  A panic, a failed `KASSERT` and an access behind the data of a packet are `none`.
-/

import OpenBsd.Net.PfFrag

namespace OpenBsd.Net

open OpenBsd.Lib OpenBsd.Netinet

/-! ## Fragments -/

/-- `struct pf_frent` with `fe_extoff`. -/
structure PfFrent6 where
  frent : PfFrent
  feExtoff : Nat
  deriving DecidableEq

/-- What a queue has of `struct pf_fragment`. -/
structure PfFragment6 where
  frQueue : List PfFrent6
  frMaxlen : Nat
  deriving DecidableEq

def PfFragment6.frents (frag : PfFragment6) : List PfFrent := frag.frQueue.map PfFrent6.frent

/-- `sizeof(struct ip6_hdr)`. -/
def ip6HdrLen : Nat := 40

/-- `sizeof(struct ip6_frag)`. -/
def ip6FragLen : Nat := 8

/-- `IP6F_OFF_MASK` and `IP6F_MORE_FRAG`, in host byte order. -/
def ip6fOffMask : Nat := 0xfff8
def ip6fMoreFrag : Nat := 1

def ipv6Maxpacket : Nat := 65535

/-- What `pf_reassemble6` is called with: the packet, `ip6f_offlg` of its fragment header, the
    length up to the end of that header, and the offset of the extension header before it,
    or 0. -/
structure Pf6Packet where
  m : List UInt8
  ip6fOfflg : Nat
  hdrlen : Nat
  extoff : Nat

/-- The entry for a packet. -/
def frentOf6 (p : Pf6Packet) : PfFrent6 where
  frent :=
    { feHdrlen := p.hdrlen
      feLen := (ip6HdrLen + half p.m 4 + 2 ^ 16 - p.hdrlen) % 2 ^ 16
      feOff := p.ip6fOfflg &&& ip6fOffMask
      feMff := p.ip6fOfflg &&& ip6fMoreFrag ≠ 0
      feM := p.m }
  feExtoff := p.extoff

/-! ## pf_fillup_fragment -/

/-- The fragment has a byte of the entry before it or behind it. -/
def overlapsNext (before after : List PfFrent6) (frent : PfFrent6) : Bool :=
  (before.getLast?.any fun prev => prev.frent.stop > frent.frent.feOff) ||
    after.head?.any fun next => frent.frent.stop > next.frent.feOff

/-- `pf_fillup_fragment` for IPv6, where no entry is ever cut. -/
def pfFillupFragment6 (frag : Option PfFragment6) (frent : PfFrent6) (mem : Bool) :
    Option (Option PfFragment6 × Bool) :=
  if badFragment frent.frent then some (frag, false)
  else
    match frag with
    | none => if mem then some (some ⟨[frent], frent.frent.feLen⟩, true) else some (none, false)
    | some frag =>
      let maxlen := max frag.frMaxlen frent.frent.feLen
      match frag.frQueue.getLast? with
      | none => none
      | some last =>
        if badEnd last.frent frent.frent then some (some ⟨frag.frQueue, maxlen⟩, false)
        else
          let before := frag.frQueue.takeWhile fun e => !decide (e.frent.feOff > frent.frent.feOff)
          let after := frag.frQueue.dropWhile fun e => !decide (e.frent.feOff > frent.frent.feOff)
          if before = [] ∧ after = [] then none
          else if overlapsNext before after frent then some (none, false)
          else some (some ⟨before ++ frent :: after, maxlen⟩, true)

/-! ## pf_reassemble6 -/

/-- `m_getptr` and the byte there. -/
def mGetbyte (m : List UInt8) (loc : Nat) : Option UInt8 := m[loc]?

/-- `m_getptr` and a write there. -/
def mSetbyte (m : List UInt8) (loc : Nat) (b : UInt8) : Option (List UInt8) :=
  if loc < m.length then some (m.set loc b) else none

/-- `frag6_deletefraghdr`; `split` says whether `m_split` has memory, where it is needed. -/
def frag6Deletefraghdr (m : List UInt8) (offset : Nat) (split : Bool) : Option (List UInt8) :=
  if split && offset ≤ m.length then some (m.take offset ++ mAdj (m.drop offset) ip6FragLen)
  else none

/-- `struct pf_fragment_tag`. -/
structure PfFragmentTag where
  ftHdrlen : Nat
  ftExtoff : Nat
  ftMaxlen : Nat
  deriving DecidableEq

/-- Which requests for memory succeed: `pf_create_fragment`, `pf_frag_pl` at the latest after
    a flush, `m_split` and `m_tag_get`. -/
structure Pf6Mem where
  create : Bool
  frag : Bool
  split : Bool
  mtag : Bool

/-- All of them succeed. -/
def Pf6Mem.all : Pf6Mem := ⟨true, true, true, true⟩

/-- The queue that is left, the verdict, the packet and its tag. -/
structure Pf6Result where
  frag : Option PfFragment6
  verdict : PfVerdict
  m : Option (List UInt8)
  mtag : Option PfFragmentTag
  deriving DecidableEq

/-- The next header field in front of the payload: that of the extension header, or `ip6_nxt`. -/
def nextField (extoff : Nat) : Nat := if extoff ≠ 0 then extoff else 6

/-- What `pf_reassemble6` makes of a complete queue. -/
def pfComplete6 (frag : PfFragment6) (extoff : Nat) (mem : Pf6Mem) : Option Pf6Result :=
  match frag.frents.head?, frag.frents.getLast? with
  | some frent, some last => do
    let total := last.stop % 2 ^ 16
    let hdrlen := (frent.feHdrlen + 2 ^ 16 - ip6FragLen) % 2 ^ 16
    let m := pfJoinFragment frag.frents
    let proto ← mGetbyte m hdrlen
    match frag6Deletefraghdr m hdrlen mem.split with
    | none => some ⟨none, .drop, some m, none⟩
    | some m =>
      if !mem.mtag then some ⟨none, .drop, some m, none⟩
      else
        let mtag : PfFragmentTag := ⟨hdrlen, extoff, frag.frMaxlen⟩
        let plen := (hdrlen + 2 ^ 64 - ip6HdrLen + total) % 2 ^ 64
        let m ← mSetbyte (setHalf m 4 plen) (nextField extoff) proto
        if plen > ipv6Maxpacket then some ⟨none, .drop, some (setHalf m 4 0), some mtag⟩
        else some ⟨none, .pass, some m, some mtag⟩
  | _, _ => none

/-- `pf_reassemble6`.  `extoff` is that of the fragment that came last. -/
def pfReassemble6 (frag : Option PfFragment6) (p : Pf6Packet) (mem : Pf6Mem) : Option Pf6Result :=
  if !mem.create then some ⟨frag, .drop, some p.m, none⟩
  else
    let frent := frentOf6 p
    match pfFillupFragment6 frag frent mem.frag with
    | none => none
    | some (some frag, true) =>
      match pfIsfullFragment frag.frents with
      | none => none
      | some false => some ⟨some frag, .pass, none, none⟩
      | some true => pfComplete6 frag frent.feExtoff mem
    | some (frag, _) => some ⟨frag, .drop, some p.m, none⟩

/-! ## Runs -/

/-- The queue of a key, with the fragments that came since it was created: those that went into
    it and those that did not. -/
structure Pf6State where
  frag : Option PfFragment6
  accepted : List PfFrent6
  rejected : List PfFrent6
  deriving DecidableEq

/-- No queue. -/
def Pf6State.none : Pf6State := ⟨Option.none, [], []⟩

/-- `pf_create_fragment` and `pf_fillup_fragment` for a packet. -/
def Pf6State.receive (s : Pf6State) (p : Pf6Packet) (mem : Pf6Mem) : Option Pf6State :=
  let frent := frentOf6 p
  let reject (frag : Option PfFragment6) : Pf6State :=
    if frag.isSome then ⟨frag, s.accepted, frent :: s.rejected⟩ else .none
  if !mem.create then some (reject s.frag)
  else
    (pfFillupFragment6 s.frag frent mem.frag).map fun
      | (some frag, true) => ⟨some frag, frent :: s.accepted, s.rejected⟩
      | (frag, _) => reject frag

/-- `pf_reassemble6`; a queue that is complete is freed. -/
def Pf6State.step (s : Pf6State) (p : Pf6Packet) (mem : Pf6Mem) : Option Pf6State := do
  let r ← pfReassemble6 s.frag p mem
  let s' ← s.receive p mem
  some (if r.frag.isSome then s' else .none)

/-- The states reached from no queue by packets that meet `ok`.  The queue may expire or be
    flushed at any time. -/
inductive Pf6State.Reach (ok : Pf6State → Pf6Packet → Pf6Mem → Prop) : Pf6State → Prop where
  | start : Reach ok .none
  | step {s s' : Pf6State} (p : Pf6Packet) (mem : Pf6Mem) : Reach ok s → ok s p mem →
      s.step p mem = some s' → Reach ok s'
  | free {s : Pf6State} : Reach ok s → Reach ok .none

/-! ## What the functions do -/

/-- What `pf_fillup_fragment` does with a fragment: a new queue, an entry of the queue, no queue
    any more, or a fragment that is turned away. -/
theorem pfFillupFragment6_cases {frag frag' : Option PfFragment6} {frent : PfFrent6}
    {mem filled : Bool}
    (h : pfFillupFragment6 frag frent mem = some (frag', filled)) :
    (badFragment frent.frent = false ∧ frag = none ∧ filled = true ∧
        ∃ maxlen, frag' = some ⟨[frent], maxlen⟩) ∨
      (∃ g before after maxlen, badFragment frent.frent = false ∧ frag = some g ∧ filled = true ∧
        (∀ last, g.frQueue.getLast? = some last → badEnd last.frent frent.frent = false) ∧
        g.frQueue = before ++ after ∧ (∀ e ∈ before, e.frent.feOff ≤ frent.frent.feOff) ∧
        overlapsNext before after frent = false ∧
        frag' = some ⟨before ++ frent :: after, maxlen⟩) ∨
      (filled = false ∧ frag' = none) ∨
      ∃ g maxlen, filled = false ∧ frag = some g ∧ frag' = some ⟨g.frQueue, maxlen⟩ ∧
        (badFragment frent.frent = true ∨
          ∃ last, g.frQueue.getLast? = some last ∧ badEnd last.frent frent.frent = true) := by
  unfold pfFillupFragment6 at h
  by_cases hbad : badFragment frent.frent = true
  · rw [if_pos hbad] at h
    cases h
    cases frag with
    | none => exact .inr (.inr (.inl ⟨rfl, rfl⟩))
    | some g => exact .inr (.inr (.inr ⟨g, g.frMaxlen, rfl, rfl, rfl, .inl hbad⟩))
  · rw [if_neg hbad] at h
    rw [Bool.not_eq_true] at hbad
    cases frag with
    | none =>
      cases mem with
      | false =>
        cases h
        exact .inr (.inr (.inl ⟨rfl, rfl⟩))
      | true =>
        cases h
        exact .inl ⟨hbad, rfl, rfl, _, rfl⟩
    | some g =>
      dsimp only at h
      cases hlast : g.frQueue.getLast? with
      | none =>
        rw [hlast] at h
        cases h
      | some last =>
        rw [hlast] at h
        dsimp only at h
        split at h
        · rename_i hend
          cases h
          exact .inr (.inr (.inr ⟨g, _, rfl, rfl, rfl, .inr ⟨last, hlast, hend⟩⟩))
        · rename_i hend
          split at h
          · cases h
          · split at h
            · cases h
              exact .inr (.inr (.inl ⟨rfl, rfl⟩))
            · rename_i hover
              cases h
              refine .inr (.inl ⟨g, _, _, _, hbad, rfl, rfl, ?_,
                List.takeWhile_append_dropWhile.symm, ?_, Bool.eq_false_iff.mpr hover, rfl⟩)
              · intro last' hlast'
                cases hlast.symm.trans hlast'
                exact Bool.eq_false_iff.mpr hend
              · intro e he
                have hp := List.all_eq_true.mp List.all_takeWhile e he
                simpa using hp

theorem pfReassemble6_complete {s : Pf6State} {p : Pf6Packet} {mem : Pf6Mem} {r : Pf6Result}
    (hres : pfReassemble6 s.frag p mem = some r)
    (hpass : r.verdict = .pass) (hm : r.m.isSome = true) :
    ∃ g, s.receive p mem = some ⟨some g, frentOf6 p :: s.accepted, s.rejected⟩ ∧
      pfIsfullFragment g.frents = some true := by
  unfold pfReassemble6 at hres
  unfold Pf6State.receive
  cases hcreate : mem.create with
  | false =>
    rw [hcreate] at hres
    cases hres
    cases hpass
  | true =>
    rw [hcreate] at hres
    simp only [Bool.not_true, Bool.false_eq_true, if_false] at hres ⊢
    split at hres
    · cases hres
    · rename_i g hfill
      split at hres
      · cases hres
      · cases hres
        cases hm
      · rename_i hfull
        exact ⟨g, by rw [hfill]; rfl, hfull⟩
    · cases hres
      cases hpass

end OpenBsd.Net
