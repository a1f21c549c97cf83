/-
  OpenBsd.Netinet.IpFragmentReass

  A datagram that is fragmented, its fragments again and so on, is reassembled from the
  fragments in any order.
-/

import OpenBsd.Netinet.IpFragment
import OpenBsd.Netinet.IpMaxqueue
import Mathlib.Data.Nat.Bitwise

namespace OpenBsd.Netinet

open OpenBsd.Lib List

/-! ## Pieces of a payload -/

/-- The packets are a payload in order from an offset on; all but the last have `IP_MF`, and
    the last has it as `mff` says. -/
inductive PartsOf (mff : Bool) : Nat → List UInt8 → List IpPkt → Prop where
  | last {ip : IpPkt} : ip.entry.ipqeMff = mff → ip.data ≠ [] →
      PartsOf mff ip.entry.ipOff ip.data [ip]
  | more {ip : IpPkt} {rest : List UInt8} {ips : List IpPkt} : ip.entry.ipqeMff = true →
      ip.data ≠ [] → PartsOf mff (ip.entry.ipOff + ip.data.length) rest ips →
      PartsOf mff ip.entry.ipOff (ip.data ++ rest) (ip :: ips)

section

variable {mff : Bool} {off : Nat} {payload rest : List UInt8} {ips A B : List IpPkt} {q : IpPkt}

theorem PartsOf.ne_nil (h : PartsOf mff off payload ips) : ips ≠ [] := by
  cases h with
  | last _ _ => exact cons_ne_nil _ _
  | more _ _ _ => exact cons_ne_nil _ _

theorem PartsOf.fragmentsOf (h : PartsOf false off payload ips) : FragmentsOf off payload ips := by
  induction h with
  | last hmff hne => exact ⟨rfl, hmff, rfl, hne⟩
  | @more ip rest ips hmff hne hrest ih =>
    obtain ⟨g, gs, rfl⟩ := exists_cons_of_ne_nil hrest.ne_nil
    exact ⟨rfl, hmff, hne, rest, rfl, ih⟩

theorem PartsOf.mff_of_mem_dropLast (h : PartsOf mff off payload ips) (hq : q ∈ ips.dropLast) :
    q.entry.ipqeMff = true := by
  induction h with
  | last _ _ => exact absurd hq not_mem_nil
  | more hmff _ hrest ih =>
    rw [dropLast_cons_of_ne_nil hrest.ne_nil] at hq
    rcases mem_cons.mp hq with rfl | hq
    · exact hmff
    · exact ih hq

theorem PartsOf.append (h : PartsOf true off payload A)
    (h' : PartsOf mff (off + payload.length) rest B) :
    PartsOf mff off (payload ++ rest) (A ++ B) := by
  induction h with
  | last hmff hne => exact PartsOf.more hmff hne h'
  | @more ip tail ips hmff hne _ ih =>
    rw [append_assoc]
    apply PartsOf.more hmff hne
    apply ih
    rw [length_append, ← Nat.add_assoc] at h'
    exact h'

theorem PartsOf.member (h : PartsOf mff off payload ips) (hq : q ∈ ips) :
    off ≤ q.entry.ipOff ∧ q.entry.ipOff + q.data.length ≤ off + payload.length := by
  induction h with
  | @last ip hmff hne =>
    obtain rfl := mem_singleton.mp hq
    exact ⟨Nat.le_refl _, Nat.le_refl _⟩
  | @more ip rest ips hmff hne _ ih =>
    rw [length_append]
    rcases mem_cons.mp hq with rfl | hq
    · omega
    · have h1 := ih hq
      omega

theorem PartsOf.replace {fs : List IpPkt} (h : PartsOf mff off payload (A ++ q :: B))
    (hq : PartsOf q.entry.ipqeMff q.entry.ipOff q.data fs) :
    PartsOf mff off payload (A ++ fs ++ B) := by
  induction A generalizing off payload with
  | nil =>
    rw [nil_append] at h ⊢
    cases h with
    | last hmff hne =>
      rw [hmff] at hq
      rw [append_nil]
      exact hq
    | more hmff hne hrest =>
      rw [hmff] at hq
      exact hq.append hrest
  | cons a A ih =>
    generalize hl : A ++ q :: B = l at h
    have hne : A ++ q :: B ≠ [] := append_ne_nil_of_right_ne_nil A (cons_ne_nil q B)
    rw [cons_append, hl] at h
    cases h with
    | last _ _ => exact absurd hl hne
    | more hmff ha hrest =>
      rw [← hl] at hrest
      exact PartsOf.more hmff ha (ih hrest)

end

/-! ## The offset field -/

/-- The mask that takes `IP_MF` away. -/
def noMf : Nat := 2 ^ 16 - 1 - ipMf

theorem IpPkt.mff_testBit (ip : IpPkt) : ip.entry.ipqeMff = ip.ipOff.testBit 13 := by
  show decide (ip.ipOff &&& 2 ^ 13 ≠ 0) = _
  rw [Nat.and_two_pow]
  cases ip.ipOff.testBit 13 <;> rfl

theorem noMf_mod (x : Nat) : (x &&& noMf) % 2 ^ 13 = x % 2 ^ 13 := by
  rw [Nat.and_mod_two_pow]
  have hmask : noMf % 2 ^ 13 = 2 ^ 13 - 1 := by decide
  rw [hmask, Nat.and_two_pow_sub_one_eq_mod, Nat.mod_mod]

theorem noMf_testBit (x : Nat) : (x &&& noMf).testBit 13 = false := by
  rw [Nat.testBit_and]
  have hmask : noMf.testBit 13 = false := by decide
  rw [hmask, Bool.and_false]

theorem noMf_lt (x : Nat) : (x &&& noMf) < 2 ^ 16 :=
  Nat.lt_of_le_of_lt Nat.and_le_right (by decide)

theorem offset_add {x k : Nat} (hk : x % 2 ^ 13 + k < 2 ^ 13) :
    (k + (x &&& noMf)) % 2 ^ 16 % 2 ^ 13 = x % 2 ^ 13 + k ∧
      ((k + (x &&& noMf)) % 2 ^ 16).testBit 13 = false := by
  have hmod := noMf_mod x
  have hbit := noMf_testBit x
  have hlt := noMf_lt x
  rw [Nat.testBit_eq_decide_div_mod_eq] at hbit ⊢
  generalize (x &&& noMf) = z at *
  have hz : ¬ z / 2 ^ 13 % 2 = 1 := by simpa using hbit
  constructor
  · omega
  · exact decide_eq_false (by omega)

theorem offset_or_mf (x : Nat) : (x ||| ipMf) % 2 ^ 13 = x % 2 ^ 13 ∧ (x ||| ipMf).testBit 13 = true := by
  have hmf : ipMf % 2 ^ 13 = 0 := by decide
  have hbit : ipMf.testBit 13 = true := by decide
  rw [Nat.or_mod_two_pow, hmf, Nat.or_zero, Nat.testBit_or, hbit, Bool.or_true]
  exact ⟨rfl, rfl⟩

/-! ## One packet -/

/-- The header is as long as `ip_hl` says, and its options are well-formed. -/
structure IpPkt.HeaderOk (ip : IpPkt) : Prop where
  whole : ip.Whole
  hl : 5 ≤ ip.ipHl
  optlen : ip.hdr.options.length + sizeofIp = ip.hlen
  options : OptionsOk ip.hdr.options

theorem IpPkt.hlen_eq (ip : IpPkt) : ip.hlen = 4 * ip.ipHl := by
  unfold IpPkt.hlen
  rw [Nat.shiftLeft_eq]
  omega

theorem fragHdr_ok {q : IpPkt} (h : q.HeaderOk) :
    ∃ hl options, fragHdr q = some (hl, options) ∧ 5 ≤ hl ∧ hl <<< 2 ≤ q.hlen ∧
      options.length + sizeofIp = hl <<< 2 ∧ OptionsOk options := by
  have hlen := q.hlen_eq
  have hopt := h.optlen
  have h5 := h.hl
  unfold fragHdr
  by_cases hlong : sizeofIp < q.hlen
  · rw [if_pos hlong]
    obtain ⟨l, hl, hok, hword, hle⟩ := ipOptcopy_ok h.options (by unfold sizeofIp at *; omega)
    rw [hl]
    refine ⟨(l.length + sizeofIp) >>> 2, l, rfl, ?_, ?_, ?_, hok⟩
    · rw [Nat.shiftRight_eq_div_pow]
      unfold sizeofIp at *
      omega
    · rw [Nat.shiftRight_eq_div_pow, Nat.shiftLeft_eq]
      unfold sizeofIp at *
      omega
    · rw [Nat.shiftRight_eq_div_pow, Nat.shiftLeft_eq]
      unfold sizeofIp at *
      omega
  · rw [if_neg hlong]
    refine ⟨q.ipHl, [], rfl, h5, Nat.le_refl _, ?_, OptionsOk.nil⟩
    show 0 + sizeofIp = q.hlen
    unfold sizeofIp at *
    omega

/-- What comes out for one packet: a whole one within `mtu`, from the same datagram. -/
structure PieceOk (q : IpPkt) (mtu : Nat) (f : IpPkt) : Prop where
  header : f.HeaderOk
  short : f.ipLen ≤ mtu
  tos : f.ipTos = q.ipTos

/-- A piece of the packet behind its first one. -/
theorem fragPiece_ok {q : IpPkt} {hl : Nat} {options : List UInt8} {off len mtu : Nat} {last : Bool}
    (hq : q.HeaderOk) (hsize : q.entry.ipOff + q.data.length < 2 ^ 16)
    (hhl : 5 ≤ hl) (hoptlen : options.length + sizeofIp = hl <<< 2) (hopt : OptionsOk options)
    (hoff : q.hlen ≤ off) (h8 : (off - q.hlen) % 8 = 0) (hlen : off + len ≤ q.ipLen)
    (hpos : 0 < len) (hmtu : len + hl <<< 2 ≤ mtu) (hmtu16 : mtu < 2 ^ 16) :
    PieceOk q mtu (fragPiece q hl options off len last) ∧
      (fragPiece q hl options off len last).entry.ipOff = q.entry.ipOff + (off - q.hlen) ∧
      (fragPiece q hl options off len last).entry.ipqeMff = (q.entry.ipqeMff || !last) ∧
      (fragPiece q hl options off len last).data = (q.data.drop (off - q.hlen)).take len ∧
      (fragPiece q hl options off len last).data.length = len := by
  have hw : q.ipLen = q.hlen + q.data.length := hq.whole.1
  have hdata : ((q.data.drop (off - q.hlen)).take len).length = len := by
    rw [length_take, length_drop]
    omega
  rw [q.entry_off] at hsize ⊢
  have hk : q.ipOff % 2 ^ 13 + (off - q.hlen) >>> 3 < 2 ^ 13 := by
    rw [Nat.shiftRight_eq_div_pow]
    omega
  obtain ⟨hadd, hclear⟩ := offset_add hk
  have hlt : ((off - q.hlen) >>> 3 + (q.ipOff &&& noMf)) % 2 ^ 16 < 2 ^ 16 := Nat.mod_lt _ (by decide)
  have hshift : (off - q.hlen) >>> 3 * 8 = off - q.hlen := by
    rw [Nat.shiftRight_eq_div_pow]
    omega
  have hmff : (q.ipOff &&& ipMf ≠ 0) ↔ q.entry.ipqeMff = true := by
    show _ ↔ decide (q.ipOff &&& ipMf ≠ 0) = true
    rw [decide_eq_true_eq]
  -- the field, with and without `IP_MF`
  have hfield : (fragPiece q hl options off len last).ipOff % 2 ^ 13 =
        q.ipOff % 2 ^ 13 + (off - q.hlen) >>> 3 ∧
      (fragPiece q hl options off len last).ipOff.testBit 13 = (q.entry.ipqeMff || !last) ∧
      (fragPiece q hl options off len last).ipOff < 2 ^ 16 := by
    show (if q.ipOff &&& ipMf ≠ 0 ∨ last = false then _ else _ : Nat) % 2 ^ 13 = _ ∧
      (if q.ipOff &&& ipMf ≠ 0 ∨ last = false then _ else _ : Nat).testBit 13 = _ ∧
      (if q.ipOff &&& ipMf ≠ 0 ∨ last = false then _ else _ : Nat) < 2 ^ 16
    by_cases hset : q.ipOff &&& ipMf ≠ 0 ∨ last = false
    · rw [if_pos hset, (offset_or_mf _).1, (offset_or_mf _).2]
      refine ⟨hadd, ?_, Nat.or_lt_two_pow hlt (by decide)⟩
      rcases hset with h1 | h1
      · rw [hmff.mp h1, Bool.true_or]
      · rw [h1, Bool.not_false, Bool.or_true]
    · rw [if_neg hset]
      refine ⟨hadd, ?_, hlt⟩
      rw [not_or] at hset
      have h1 : q.entry.ipqeMff = false := by
        cases hb : q.entry.ipqeMff with
        | false => rfl
        | true => exact absurd (hmff.mpr hb) hset.1
      have h2 : last = true := by simpa using hset.2
      rw [h1, h2]
      exact hclear
  have hiplen : (fragPiece q hl options off len last).ipLen = hl <<< 2 + len := by
    show (len + hl <<< 2) % 2 ^ 16 = _
    rw [Nat.mod_eq_of_lt (by omega), Nat.add_comm]
  refine ⟨⟨⟨⟨?_, ?_, hfield.2.2⟩, hhl, hoptlen, hopt⟩, ?_, rfl⟩, ?_, ?_, rfl, hdata⟩
  · rw [hiplen]
    show _ = hl <<< 2 + List.length (List.take _ _)
    rw [hdata]
  · rw [hiplen]
    omega
  · rw [hiplen]
    omega
  · rw [IpPkt.entry_off, hfield.1]
    omega
  · rw [IpPkt.mff_testBit, hfield.2.1]

/-- The loop takes what is left of the packet apart. -/
theorem fragLoop_ok {q : IpPkt} {hl mtu : Nat} {options : List UInt8}
    (hq : q.HeaderOk) (hsize : q.entry.ipOff + q.data.length < 2 ^ 16)
    (hhl : 5 ≤ hl) (hoptlen : options.length + sizeofIp = hl <<< 2) (hopt : OptionsOk options)
    (hmtu16 : mtu < 2 ^ 16) :
    ∀ {fuel off len : Nat}, q.hlen ≤ off → (off - q.hlen) % 8 = 0 → off < q.ipLen →
      len % 8 = 0 → 0 < len → len + hl <<< 2 ≤ mtu → q.ipLen ≤ off + fuel →
      PartsOf q.entry.ipqeMff (q.entry.ipOff + (off - q.hlen)) (q.data.drop (off - q.hlen))
        (fragLoop q hl options fuel off len) ∧
      ∀ f ∈ fragLoop q hl options fuel off len, PieceOk q mtu f := by
  have hw : q.ipLen = q.hlen + q.data.length := hq.whole.1
  intro fuel
  induction fuel with
  | zero =>
    intro off len _ _ hlt _ _ _ hfuel
    exact absurd hlt (by omega)
  | succ fuel ih =>
    intro off len hoff h8 hlt hlen8 hpos hmtu hfuel
    unfold fragLoop
    rw [if_pos hlt]
    by_cases hlast : q.ipLen ≤ off + len
    · -- the last piece
      rw [if_pos hlast]
      have hend : fragLoop q hl options fuel (off + (q.ipLen - off)) (q.ipLen - off) = [] := by
        cases fuel with
        | zero => rfl
        | succ n => exact if_neg (by omega)
      obtain ⟨hok, hfoff, hmff, hdata, hdlen⟩ := @fragPiece_ok q hl options off (q.ipLen - off) mtu
        true hq hsize hhl hoptlen hopt hoff h8 (by omega) (by omega) (by omega) hmtu16
      rw [hend]
      have hall : (q.data.drop (off - q.hlen)).take (q.ipLen - off) = q.data.drop (off - q.hlen) := by
        apply take_of_length_le
        rw [length_drop]
        omega
      rw [← hfoff, ← hall, ← hdata]
      refine ⟨PartsOf.last (by simpa using hmff) ?_, ?_⟩
      · intro hnil
        rw [hnil, length_nil] at hdlen
        omega
      · intro f hf
        rw [mem_singleton.mp hf]
        exact hok
    · rw [if_neg hlast]
      obtain ⟨hok, hfoff, hmff, hdata, hdlen⟩ := @fragPiece_ok q hl options off len mtu
        false hq hsize hhl hoptlen hopt hoff h8 (by omega) hpos hmtu hmtu16
      obtain ⟨hparts, hall⟩ := @ih (off + len) len (by omega) (by omega) (by omega) hlen8 hpos hmtu
        (by omega)
      have hsplit : q.data.drop (off - q.hlen) =
          (fragPiece q hl options off len false).data ++ q.data.drop (off + len - q.hlen) := by
        have hsub : off + len - q.hlen = off - q.hlen + len := by omega
        rw [hdata, hsub, ← List.drop_drop, take_append_drop]
      rw [← hfoff, hsplit]
      refine ⟨PartsOf.more (by simpa using hmff) ?_ ?_, ?_⟩
      · intro hnil
        rw [hnil, length_nil] at hdlen
        omega
      · rw [hfoff, hdlen]
        have hsum : q.entry.ipOff + (off - q.hlen) + len = q.entry.ipOff + (off + len - q.hlen) := by
          omega
        rw [hsum]
        exact hparts
      · intro f hf
        rcases mem_cons.mp hf with rfl | hf
        · exact hok
        · exact hall f hf

/-- `ip_fragment` on a packet that is longer than `mtu`: it succeeds, the fragments are the
    packet in pieces, each of them whole and within `mtu`, and the first one has its header. -/
theorem ipFragment_ok {q : IpPkt} {mtu : Nat} (hq : q.HeaderOk)
    (hsize : q.entry.ipOff + q.data.length < 2 ^ 16) (hmin : q.hlen + 8 ≤ mtu)
    (hlong : mtu < q.ipLen) :
    ∃ f fs, ipFragment q mtu = .ok (f :: fs) ∧
      PartsOf q.entry.ipqeMff q.entry.ipOff q.data (f :: fs) ∧
      (∀ g ∈ f :: fs, PieceOk q mtu g) ∧ f.ipHl = q.ipHl ∧ f.hdr = q.hdr ∧ fs ≠ [] := by
  obtain ⟨hl, options, hhdr, hhl, hle, hoptlen, hopt⟩ := fragHdr_ok hq
  have hw : q.ipLen = q.hlen + q.data.length := hq.whole.1
  have hlt := hq.whole.2.1
  have hfrag : ipFragment q mtu = .ok (fragFirst q ((mtu - q.hlen) / 8 * 8) ::
      fragLoop q hl options q.ipLen (q.hlen + (mtu - q.hlen) / 8 * 8) ((mtu - q.hlen) / 8 * 8)) := by
    unfold ipFragment
    dsimp only
    rw [if_neg (by omega), hhdr]
  have hl8 : (mtu - q.hlen) / 8 * 8 % 8 = 0 := Nat.mul_mod_left _ _
  have hlpos : 8 ≤ (mtu - q.hlen) / 8 * 8 := by omega
  have hlmtu : (mtu - q.hlen) / 8 * 8 + q.hlen ≤ mtu := by omega
  generalize (mtu - q.hlen) / 8 * 8 = len at *
  -- the first fragment keeps the header
  have hfdata : (fragFirst q len).data = q.data.take len := by
    show q.data.take (q.data.length - (q.ipLen - (q.hlen + len))) = _
    congr 1
    omega
  have hfdlen : (fragFirst q len).data.length = len := by
    rw [hfdata, length_take]
    omega
  have hflen : (fragFirst q len).ipLen = q.hlen + len := by
    show (q.hlen + len) % 2 ^ 16 = _
    exact Nat.mod_eq_of_lt (by omega)
  have hfoff : (fragFirst q len).entry.ipOff = q.entry.ipOff := by
    rw [IpPkt.entry_off, IpPkt.entry_off]
    show (q.ipOff ||| ipMf) % 2 ^ 13 * 8 = _
    rw [(offset_or_mf q.ipOff).1]
  have hfmff : (fragFirst q len).entry.ipqeMff = true := by
    rw [IpPkt.mff_testBit]
    exact (offset_or_mf q.ipOff).2
  have hfirst : PieceOk q mtu (fragFirst q len) := by
    refine ⟨⟨⟨?_, by omega, Nat.or_lt_two_pow hq.whole.2.2 (by decide)⟩, hq.hl, hq.optlen,
      hq.options⟩, by omega, rfl⟩
    rw [hflen, hfdlen]
    rfl
  obtain ⟨hparts, hall⟩ := @fragLoop_ok q hl mtu options hq hsize hhl hoptlen hopt (by omega)
    q.ipLen (q.hlen + len) len (by omega) (by rw [Nat.add_sub_cancel_left]; exact hl8) (by omega)
    hl8 (by omega) (by omega) (by omega)
  rw [Nat.add_sub_cancel_left] at hparts
  refine ⟨_, _, hfrag, ?_, ?_, rfl, rfl, hparts.ne_nil⟩
  · have happ := @PartsOf.more q.entry.ipqeMff (fragFirst q len) (q.data.drop len) _ hfmff
      (fun hnil => by rw [hnil, length_nil] at hfdlen; omega)
      (by rw [hfoff, hfdlen]; exact hparts)
    rw [hfoff, hfdata, take_append_drop] at happ
    exact happ
  · intro g hg
    rcases mem_cons.mp hg with rfl | hg
    · exact hfirst
    · exact hall g hg

/-! ## Trees of fragments -/

/-- A datagram that nobody fragmented and that may be fragmented. -/
structure IpPkt.Datagram (p : IpPkt) : Prop where
  header : p.HeaderOk
  off : p.ipOff &&& (ipDf ||| ipMf ||| ipOffmask) = 0

/-- The leaves of a tree of applications of `ip_fragment`, in order, each with the mtu it was made
    for. -/
inductive FragTree (p : IpPkt) : List (IpPkt × Option Nat) → Prop where
  | datagram : FragTree p [(p, none)]
  | fragment {A B : List (IpPkt × Option Nat)} {q : IpPkt} {lim : Option Nat} {mtu : Nat}
      {fs : List IpPkt} : FragTree p (A ++ (q, lim) :: B) → q.hlen + 8 ≤ mtu → mtu < q.ipLen →
      ipFragment q mtu = .ok fs → FragTree p (A ++ fs.map (fun f => (f, some mtu)) ++ B)

/-- What holds of the leaves. -/
structure TreeOk (p : IpPkt) (leaves : List (IpPkt × Option Nat)) : Prop where
  parts : p.data ≠ [] → PartsOf false 0 p.data (leaves.map Prod.fst)
  empty : p.data = [] → leaves = [(p, none)]
  header : ∀ f ∈ leaves, f.1.HeaderOk ∧ f.1.ipTos = p.ipTos
  short : ∀ f mtu, (f, some mtu) ∈ leaves → f.ipLen ≤ mtu
  first : ∃ f tail, leaves.map Prod.fst = f :: tail ∧ f.ipHl = p.ipHl ∧ f.hdr = p.hdr
  root : leaves = [(p, none)] ∨ 2 ≤ leaves.length

variable {p : IpPkt}

theorem IpPkt.Datagram.entry (h : p.Datagram) :
    p.entry.ipOff = 0 ∧ p.entry.ipqeMff = false := by
  have hmask : ipDf ||| ipMf ||| ipOffmask = 2 ^ 15 - 1 := by decide
  have hoff := h.off
  rw [hmask, Nat.and_two_pow_sub_one_eq_mod] at hoff
  rw [IpPkt.entry_off, IpPkt.mff_testBit, Nat.testBit_eq_decide_div_mod_eq]
  constructor
  · omega
  · exact decide_eq_false (by omega)

variable {leaves : List (IpPkt × Option Nat)}

theorem TreeOk.leaf {q : IpPkt} (h : TreeOk p leaves)
    (hp : p.Datagram) (hne : p.data ≠ []) (hq : q ∈ leaves.map Prod.fst) :
    q.entry.ipOff + q.data.length < 2 ^ 16 := by
  have hmem := ((h.parts hne).member hq).2
  have hw : p.ipLen = p.ipHl <<< 2 + p.data.length := hp.header.whole.1
  have hlt := hp.header.whole.2.1
  omega

theorem FragTree.ok (hp : p.Datagram) {leaves : List (IpPkt × Option Nat)}
    (h : FragTree p leaves) : TreeOk p leaves := by
  induction h with
  | datagram =>
    obtain ⟨hoff, hmff⟩ := hp.entry
    refine ⟨?_, fun _ => rfl, ?_, ?_, ⟨p, [], rfl, rfl, rfl⟩, Or.inl rfl⟩
    · intro hne
      rw [← hoff]
      exact PartsOf.last hmff hne
    · intro f hf
      rw [mem_singleton.mp hf]
      exact ⟨hp.header, rfl⟩
    · intro f mtu hf
      exact absurd (mem_singleton.mp hf) (by simp)
  | @fragment A B q lim mtu fs htree hmin hlong hfs ih =>
    have hq : (q, lim) ∈ A ++ (q, lim) :: B := mem_append_right A mem_cons_self
    obtain ⟨hqhdr, hqtos⟩ := ih.header _ hq
    -- an empty datagram cannot be longer than the mtu
    have hne : p.data ≠ [] := by
      intro hnil
      have hroot := ih.empty hnil
      have hqp : (q, lim) ∈ [(p, (none : Option Nat))] := hroot ▸ hq
      obtain ⟨rfl, -⟩ := Prod.mk.inj (mem_singleton.mp hqp)
      have hw : q.ipLen = q.ipHl <<< 2 + q.data.length := hqhdr.whole.1
      rw [hnil, length_nil] at hw
      have hhlen : q.hlen = q.ipHl <<< 2 := rfl
      omega
    have hparts := ih.parts hne
    have hsize := ih.leaf hp hne (mem_map.mpr ⟨_, hq, rfl⟩)
    obtain ⟨f, tail, hok, hpieces, hall, hhl, hhdr, htwo⟩ := ipFragment_ok hqhdr hsize hmin hlong
    rw [hfs] at hok
    obtain rfl := Except.ok.inj hok
    have hmap : ((A ++ (f :: tail).map (fun f => (f, some mtu)) ++ B).map Prod.fst) =
        A.map Prod.fst ++ (f :: tail) ++ B.map Prod.fst := by
      rw [map_append, map_append, map_map]
      congr 2
      exact map_id _
    have hnew : ∀ x ∈ A ++ (f :: tail).map (fun f => (f, some mtu)) ++ B,
        x ∈ A ++ (q, lim) :: B ∨ ∃ g ∈ f :: tail, x = (g, some mtu) := by
      intro x hx
      rcases mem_append.mp hx with hx | hx
      · rcases mem_append.mp hx with hx | hx
        · exact Or.inl (mem_append_left _ hx)
        · obtain ⟨g, hg, rfl⟩ := mem_map.mp hx
          exact Or.inr ⟨g, hg, rfl⟩
      · exact Or.inl (mem_append_right _ (mem_cons_of_mem _ hx))
    refine ⟨fun _ => ?_, fun hnil => absurd hnil hne, ?_, ?_, ?_, Or.inr ?_⟩
    · rw [hmap]
      rw [map_append, map_cons] at hparts
      exact hparts.replace hpieces
    · intro x hx
      rcases hnew x hx with hold | ⟨g, hg, rfl⟩
      · exact ih.header x hold
      · exact ⟨(hall g hg).header, (hall g hg).tos.trans hqtos⟩
    · intro g lim' hg
      rcases hnew _ hg with hold | ⟨g', hg', heq⟩
      · exact ih.short g lim' hold
      · obtain ⟨rfl, hlim⟩ := Prod.mk.inj heq
        rw [Option.some.inj hlim]
        exact (hall g hg').short
    · -- the first leaf changes only if it is the one that is fragmented
      obtain ⟨f₀, tail₀, hlist, hhl₀, hhdr₀⟩ := ih.first
      rw [hmap]
      cases A with
      | nil =>
        obtain ⟨rfl, -⟩ := List.cons.inj hlist
        exact ⟨f, tail ++ B.map Prod.fst, rfl, hhl.trans hhl₀, hhdr.trans hhdr₀⟩
      | cons a A =>
        obtain ⟨rfl, -⟩ := List.cons.inj hlist
        exact ⟨a.1, _, rfl, hhl₀, hhdr₀⟩
    · obtain ⟨g, gs, rfl⟩ := exists_cons_of_ne_nil htwo
      simp only [length_append, length_map, length_cons]
      omega

/-! ## The round trip -/

theorem TreeOk.fragmented (h : TreeOk p leaves)
    (hp : p.Datagram) (hne : p.data ≠ []) (htwo : 2 ≤ leaves.length) :
    Fragmented p.data (leaves.map Prod.fst) := by
  have hleaf : ∀ f ∈ leaves.map Prod.fst, f.HeaderOk ∧ f.ipTos = p.ipTos := by
    intro f hf
    obtain ⟨x, hx, rfl⟩ := mem_map.mp hf
    exact h.header x hx
  refine ⟨(h.parts hne).fragmentsOf, by simpa using htwo, fun f hf => (hleaf f hf).1.whole, ?_, ?_⟩
  · intro f hf g hg
    rw [(hleaf f hf).2, (hleaf g hg).2]
  · intro f hf
    obtain ⟨f₀, tail, hlist, hhl, -⟩ := h.first
    rw [hlist] at hf
    obtain rfl := Option.some.inj hf
    rw [hhl, ← hp.header.whole.1]
    have hlt := hp.header.whole.2.1
    unfold ipMaxpacket
    omega

theorem ipRun_append (fp : Option Ipq) (xs ys : List IpPkt) :
    ipRun fp (xs ++ ys) =
      ((ipRun (ipRun fp xs).1 ys).1, (ipRun fp xs).2 ++ (ipRun (ipRun fp xs).1 ys).2) := by
  induction xs generalizing fp with
  | nil => rfl
  | cons x xs ih =>
    show ((ipRun _ (xs ++ ys)).1, _ :: (ipRun _ (xs ++ ys)).2) = _
    rw [ih]
    rfl

/-- The fragments in any order, each of them once. -/
theorem Fragmented.permuted {payload : List UInt8} {fs order : List IpPkt}
    (h : Fragmented payload fs) (hperm : order.Perm fs) :
    ∃ m, ipRun none order = (none, (order.dropLast.map fun _ => none) ++ [some m]) ∧
      m.data = payload ∧ m.ipLen = m.ipHl <<< 2 + payload.length ∧ HeadOf fs m := by
  have hne : order ≠ [] := by
    rintro rfl
    have hlen := hperm.length_eq
    have htwo := h.two
    rw [length_nil] at hlen
    omega
  obtain ⟨xs, x, rfl⟩ : ∃ xs x, order = xs ++ [x] :=
    ⟨order.dropLast, order.getLast hne, (dropLast_append_getLast hne).symm⟩
  obtain ⟨hbounds, hpair⟩ := h.parts.bounds
  have hnodup : fs.Nodup := by
    apply (nodup_iff_pairwise_ne).mpr
    apply List.Pairwise.imp_of_mem _ hpair
    rintro f g hf - hfg rfl
    exact not_before_self (hbounds f hf).2 hfg
  have hx : x ∈ fs := hperm.subset (mem_append_right xs mem_cons_self)
  have hxs : xs ⊆ fs := fun y hy => hperm.subset (mem_append_left _ hy)
  have hxnot : x ∉ xs := by
    have hnd := hperm.nodup_iff.mpr hnodup
    intro hmem
    exact (nodup_append.mp hnd).2.2 x hmem x mem_cons_self rfl
  have hmem : ∀ f, f ∈ xs.reverse ++ [] ↔ f ∈ xs := by simp
  have hmiss : ¬ ∀ f ∈ fs, f ∈ xs.reverse ++ [] := by
    intro hall
    exact hxnot ((hmem x).mp (hall x hx))
  obtain ⟨hout, hend⟩ := @Fragmented.run payload fs [] none h xs hxs (.inl ⟨rfl, rfl⟩) hmiss
  rcases h.step hx hend hmiss with ⟨hno, -⟩ | ⟨-, m, hours, hdata, hlen, hhead⟩
  · refine absurd (fun f hf => ?_) hno
    have hin := hperm.symm.subset hf
    simpa [or_comm] using hin
  · refine ⟨m, ?_, hdata, hlen, hhead⟩
    rw [ipRun_append, hout, dropLast_concat]
    show ((ipOurs _ x true true).1, _ ++ [(ipOurs _ x true true).2]) = _
    rw [hours]

/-- Reassembly undoes fragmentation.  For every tree over a datagram, the packets that may be
    fragmented further are fragmented without an error, each leaf is within its mtu, all
    but the last carry a multiple of eight bytes, and as many leaves as `ip_maxqueue` allows give
    the datagram back in any order, with its header but for the flags of `ipOff`. -/
theorem reass_undoes_fragment (p : IpPkt) (hp : p.Datagram) (leaves : List (IpPkt × Option Nat))
    (htree : FragTree p leaves) :
    (∀ f ∈ leaves, ∀ mtu, f.1.hlen + 8 ≤ mtu → mtu < f.1.ipLen →
      ∃ fs, ipFragment f.1 mtu = .ok fs) ∧
    (∀ f mtu, (f, some mtu) ∈ leaves → f.ipLen ≤ mtu) ∧
    (∀ f ∈ leaves.dropLast, f.1.data.length % 8 = 0) ∧
    ∀ (maxqueue : Nat) (order : List IpPkt), leaves.length ≤ maxqueue →
      order.Perm (leaves.map Prod.fst) →
      ∃ m, ipRunMax maxqueue none order = (none, (order.dropLast.map fun _ => none) ++ [some m]) ∧
        m = { p with ipOff := m.ipOff } ∧ m.ipOff &&& (ipMf ||| ipOffmask) = 0 := by
  have h := htree.ok hp
  have hroot : p.data = [] ∨ (p.data ≠ [] ∧ leaves = [(p, none)]) ∨
      (p.data ≠ [] ∧ 2 ≤ leaves.length) := by
    by_cases hnil : p.data = []
    · exact Or.inl hnil
    · rcases h.root with hr | hr
      · exact Or.inr (Or.inl ⟨hnil, hr⟩)
      · exact Or.inr (Or.inr ⟨hnil, hr⟩)
  refine ⟨?_, h.short, ?_, ?_⟩
  · intro f hf mtu hmin hlong
    have hne : p.data ≠ [] := by
      intro hnil
      rw [h.empty hnil] at hf
      have hfp := mem_singleton.mp hf
      subst hfp
      have hw : p.ipLen = p.ipHl <<< 2 + p.data.length := hp.header.whole.1
      rw [hnil, length_nil] at hw
      have hhlen : p.hlen = p.ipHl <<< 2 := rfl
      change p.hlen + 8 ≤ mtu at hmin
      change mtu < p.ipLen at hlong
      omega
    obtain ⟨g, gs, hok, -⟩ := ipFragment_ok (h.header f hf).1
      (h.leaf hp hne (mem_map.mpr ⟨f, hf, rfl⟩)) hmin hlong
    exact ⟨_, hok⟩
  · intro f hf
    have hmap : f.1 ∈ (leaves.map Prod.fst).dropLast := by
      rw [← map_dropLast]
      exact mem_map.mpr ⟨f, hf, rfl⟩
    rcases hroot with hnil | ⟨-, hr⟩ | ⟨hne, htwo⟩
    · rw [h.empty hnil] at hf
      exact absurd hf not_mem_nil
    · rw [hr] at hf
      exact absurd hf not_mem_nil
    · have hparts := h.parts hne
      have hfrag := hparts.fragmentsOf.fragment (.inl (by simpa using htwo)) f.1
        ((dropLast_sublist _).subset hmap)
      exact hfrag.2 (hparts.mff_of_mem_dropLast hmap)
  · intro maxqueue order hroom hperm
    have hlength : order.length = leaves.length := by
      rw [hperm.length_eq, length_map]
    rw [ipRunMax_eq (by show 0 + _ ≤ _; omega)]
    by_cases htwo : 2 ≤ leaves.length
    · have hne : p.data ≠ [] := by
        intro hnil
        rw [h.empty hnil] at htwo
        exact absurd htwo (by simp)
      obtain ⟨m, hrun, hdata, hlen, hhead⟩ := (h.fragmented hp hne htwo).permuted hperm
      obtain ⟨f, tail, hlist, hhl, hhdr⟩ := h.first
      rw [hlist] at hhead
      obtain ⟨h1, h2, h3, h4⟩ := hhead f rfl
      have hftos : f.ipTos = p.ipTos := by
        have hf : f ∈ leaves.map Prod.fst := hlist ▸ mem_cons_self
        obtain ⟨x, hx, rfl⟩ := mem_map.mp hf
        exact (h.header x hx).2
      refine ⟨m, hrun, ?_, by rw [h4]; rfl⟩
      have hplen : p.ipLen = m.ipLen := by
        rw [hlen, h1, hhl]
        exact hp.header.whole.1
      obtain ⟨hl, tos, len, off, data, hdr⟩ := m
      obtain ⟨hl', tos', len', off', data', hdr'⟩ := p
      dsimp only at *
      rw [h1, hhl, h2, hftos, hplen, hdata, h3, hhdr]
    · have hone := h.root.resolve_right htwo
      subst hone
      obtain rfl := perm_singleton.mp hperm
      obtain ⟨hoff, hmff⟩ := hp.entry
      refine ⟨p, ?_, rfl, ?_⟩
      · have hnot : ¬ p.IsFragment := by
          rw [p.isFragment_iff, hoff, hmff]
          simp
        show ((ipOurs none p true true).1, [(ipOurs none p true true).2]) = _
        unfold ipOurs
        rw [if_neg hnot]
        rfl
      · have hmask : ipDf ||| ipMf ||| ipOffmask = 2 ^ 15 - 1 := by decide
        have hmask' : ipMf ||| ipOffmask = 2 ^ 14 - 1 := by decide
        have hpoff := hp.off
        rw [hmask, Nat.and_two_pow_sub_one_eq_mod] at hpoff
        rw [hmask', Nat.and_two_pow_sub_one_eq_mod]
        omega

/-- A datagram with an option that is copied and one that is not. -/
def twoOptions : IpPkt where
  ipHl := 7
  ipTos := 0
  ipLen := 52
  ipOff := 0
  data := (List.range 24).map UInt8.ofNat
  hdr := { ipId := 9, options := [0x94, 4, 0, 0, 7, 3, 4, 0] }

theorem twoOptions_datagram : twoOptions.Datagram := by
  refine ⟨⟨by decide, by decide, by decide, ?_⟩, by decide⟩
  exact @OptionsOk.opt 0x94 4 [0, 0] _ (by decide) (by decide) (by decide)
    (@OptionsOk.opt 7 3 [4] _ (by decide) (by decide) (by decide) (OptionsOk.eol []))

/-- It is fragmented, and its first fragment again; the fragments come last to first. -/
theorem reass_undoes_fragment_twice :
    ∃ a b c : IpPkt, FragTree twoOptions [(a, some 36), (b, some 36), (c, some 44)] ∧
      a.ipHl = 7 ∧ b.ipHl = 6 ∧ c.ipHl = 6 ∧
      ∃ m, ipRunMax ipMaxqueue none [c, b, a] = (none, [none, none, some m]) ∧
        m = { twoOptions with ipOff := m.ipOff } := by
  have hone : FragTree twoOptions _ := FragTree.fragment (@FragTree.datagram twoOptions |>
    fun h => (h : FragTree twoOptions ([] ++ (twoOptions, none) :: []))) (by decide)
    (by decide : 44 < twoOptions.ipLen) rfl
  have htwo := @FragTree.fragment twoOptions [] _ _ _ 36 _ hone (by decide) (by decide) rfl
  obtain ⟨-, -, -, hrun⟩ := reass_undoes_fragment twoOptions twoOptions_datagram _ htwo
  obtain ⟨m, hm, heq, -⟩ := hrun ipMaxqueue _ (by decide) (reverse_perm _)
  exact ⟨_, _, _, htwo, by decide, by decide, by decide, m, hm, heq⟩

/-- A datagram with 301 fragments of at most eight bytes. -/
def manyBytes : IpPkt where
  ipHl := 5
  ipTos := 0
  ipLen := 2421
  ipOff := 0
  data := List.replicate 2401 0
  hdr := {}

theorem manyBytes_datagram : manyBytes.Datagram := by
  have hlen : manyBytes.data.length = 2401 := length_replicate
  have hwhole : manyBytes.Whole := by
    refine ⟨?_, by decide, by decide⟩
    rw [hlen]
    decide
  exact ⟨⟨hwhole, by decide, by decide, OptionsOk.nil⟩, by decide⟩

/-- They are not put together: the last one does not fit into `ip_maxqueue`. -/
theorem many_fragments_flushed :
    ∃ leaves, FragTree manyBytes leaves ∧
      (ipRunMax ipMaxqueue none (leaves.map Prod.fst)).2 = leaves.map fun _ => none := by
  have hlen : ((fragLoop manyBytes 5 [] 2421 28 8).dropLast).length = 299 := by decide +kernel
  have hok : ipFragment manyBytes 28 =
      .ok (fragFirst manyBytes 8 :: fragLoop manyBytes 5 [] 2421 28 8) := rfl
  have htree := @FragTree.fragment manyBytes [] [] manyBytes none 28 _
    FragTree.datagram (by decide) (by decide) hok
  refine ⟨_, htree, ?_⟩
  have hdata : manyBytes.data ≠ [] := cons_ne_nil 0 (List.replicate 2400 0)
  generalize fragLoop manyBytes 5 [] 2421 28 8 = tail at hlen htree ⊢
  generalize fragFirst manyBytes 8 = f at htree ⊢
  have hne : tail ≠ [] := by
    rintro rfl
    exact absurd hlen (by decide)
  have hmap : (([] ++ (f :: tail).map (fun f => (f, some 28)) ++ [] :
      List (IpPkt × Option Nat)).map Prod.fst) = f :: tail := by
    rw [nil_append, append_nil, map_map]
    exact map_id _
  have hfrag := (htree.ok manyBytes_datagram).fragmented manyBytes_datagram hdata (by
    have hpos := length_pos_iff.mpr hne
    simp only [nil_append, append_nil, length_map, length_cons]
    omega)
  have hsplit : f :: tail = (f :: tail.dropLast) ++ [tail.getLast hne] := by
    rw [cons_append, dropLast_append_getLast]
  rw [hmap, hsplit] at hfrag
  have hdrop := hfrag.beyond_limit
  have hmax : (f :: tail.dropLast).length = ipMaxqueue := by
    rw [length_cons, hlen]
    rfl
  rw [hmax, ← hsplit] at hdrop
  rw [hmap, hdrop, nil_append, append_nil, map_map]
  rfl

end OpenBsd.Netinet
