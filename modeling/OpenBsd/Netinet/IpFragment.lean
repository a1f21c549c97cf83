/-
  OpenBsd.Netinet.IpFragment

  `ip_fragment` and `ip_optcopy` of `sys/netinet/ip_output.c`.

  Allocations succeed, and `m_copym` and `m_adj` take slices.
-/

import OpenBsd.Netinet.IpReass

namespace OpenBsd.Netinet

open List

/-! ## Options -/

def ipoptEol : UInt8 := 0

def ipoptNop : UInt8 := 1

def ipoptCopied (o : UInt8) : Bool := o &&& 0x80 ≠ 0

/-- The loop of `ip_optcopy` over the options that are left; `none` is the panic on a malformed
    one.  Each turn takes one byte at least. -/
def optcopyLoop : Nat → List UInt8 → Option (List UInt8)
  | 0, _ => some []
  | fuel + 1, cp =>
    match cp with
    | [] => some []
    | opt :: rest =>
      if opt = ipoptEol then some []
      -- preserve for IP mcast tunnel's LSRR alignment
      else if opt = ipoptNop then (optcopyLoop fuel rest).map (ipoptNop :: ·)
      else
        match rest with
        | [] => none
        | optlen :: _ =>
          if optlen.toNat < 2 ∨ cp.length < optlen.toNat then none
          else if ipoptCopied opt then
            (optcopyLoop fuel (cp.drop optlen.toNat)).map (cp.take optlen.toNat ++ ·)
          else optcopyLoop fuel (cp.drop optlen.toNat)

/-- The options are filled up to a multiple of four bytes. -/
def optPad (dp : List UInt8) : List UInt8 := dp ++ List.replicate ((4 - dp.length % 4) % 4) ipoptEol

/-- `ip_optcopy`: the options of `jp`. -/
def ipOptcopy (options : List UInt8) : Option (List UInt8) :=
  (optcopyLoop options.length options).map optPad

/-! ## ip_fragment -/

/-- `sizeof (struct ip)`. -/
def sizeofIp : Nat := 20

def IpPkt.hlen (ip : IpPkt) : Nat := ip.ipHl <<< 2

/-- The header of the fragments behind the first one: `ip_hl` and the options. -/
def fragHdr (ip : IpPkt) : Option (Nat × List UInt8) :=
  if sizeofIp < ip.hlen then
    (ipOptcopy ip.hdr.options).map fun options => ((options.length + sizeofIp) >>> 2, options)
  else some (ip.ipHl, [])

/-- One fragment behind the first: `len` bytes from `off` on, which counts the header. -/
def fragPiece (ip : IpPkt) (hl : Nat) (options : List UInt8) (off len : Nat) (last : Bool) : IpPkt :=
  let ipOff := ((off - ip.hlen) >>> 3 + (ip.ipOff &&& (2 ^ 16 - 1 - ipMf))) % 2 ^ 16
  { ip with
    ipHl := hl
    ipOff := if ip.ipOff &&& ipMf ≠ 0 ∨ last = false then ipOff ||| ipMf else ipOff
    ipLen := (len + hl <<< 2) % 2 ^ 16
    data := (ip.data.drop (off - ip.hlen)).take len
    hdr := { ip.hdr with options := options } }

/-- The loop through the packet after the first fragment. -/
def fragLoop (ip : IpPkt) (hl : Nat) (options : List UInt8) : Nat → Nat → Nat → List IpPkt
  | 0, _, _ => []
  | fuel + 1, off, len =>
    if off < ip.ipLen then
      -- the last piece has what is left, and the loop ends behind it
      if ip.ipLen ≤ off + len then
        fragPiece ip hl options off (ip.ipLen - off) true ::
          fragLoop ip hl options fuel (off + (ip.ipLen - off)) (ip.ipLen - off)
      else
        fragPiece ip hl options off len false :: fragLoop ip hl options fuel (off + len) len
    else []

/-- The first fragment, without what was copied out. -/
def fragFirst (ip : IpPkt) (firstlen : Nat) : IpPkt :=
  { ip with
    data := ip.data.take (ip.data.length - (ip.ipLen - (ip.hlen + firstlen)))
    ipLen := (ip.hlen + firstlen) % 2 ^ 16
    ipOff := ip.ipOff ||| ipMf }

/-- Why there are no fragments. -/
inductive FragError where
  | emsgsize
  | panic
  deriving DecidableEq

/-- `ip_fragment`, which is called for packets longer than `mtu`. -/
def ipFragment (ip : IpPkt) (mtu : Nat) : Except FragError (List IpPkt) :=
  let len := (mtu - ip.hlen) / 8 * 8
  if len < 8 then .error .emsgsize
  else
    match fragHdr ip with
    | none => .error .panic
    | some (hl, options) =>
      .ok (fragFirst ip len :: fragLoop ip hl options ip.ipLen (ip.hlen + len) len)

/-! ## Well-formed options -/

/-- Options as `ip_dooptions` accepts them. -/
inductive OptionsOk : List UInt8 → Prop where
  | nil : OptionsOk []
  | eol (rest : List UInt8) : OptionsOk (ipoptEol :: rest)
  | nop {rest : List UInt8} : OptionsOk rest → OptionsOk (ipoptNop :: rest)
  | opt {opt optlen : UInt8} {body rest : List UInt8} : opt ≠ ipoptEol → opt ≠ ipoptNop →
      optlen.toNat = 2 + body.length → OptionsOk rest →
      OptionsOk (opt :: optlen :: (body ++ rest))

theorem OptionsOk.replicate (k : Nat) : OptionsOk (List.replicate k ipoptEol) := by
  cases k with
  | zero => exact OptionsOk.nil
  | succ k => exact OptionsOk.eol _

theorem OptionsOk.pad {l : List UInt8} (h : OptionsOk l) (k : Nat) :
    OptionsOk (l ++ List.replicate k ipoptEol) := by
  induction h with
  | nil => exact OptionsOk.replicate k
  | eol rest => exact OptionsOk.eol _
  | nop _ ih => exact OptionsOk.nop ih
  | @opt opt optlen body rest h1 h2 hlen _ ih =>
    show OptionsOk (opt :: optlen :: (body ++ rest ++ List.replicate k ipoptEol))
    rw [append_assoc]
    exact OptionsOk.opt h1 h2 hlen ih

/-- Well-formed options are copied without a panic; the copy is well-formed and not longer. -/
theorem optcopyLoop_ok {cp : List UInt8} (h : OptionsOk cp) :
    ∀ {fuel : Nat}, cp.length ≤ fuel →
      ∃ l, optcopyLoop fuel cp = some l ∧ OptionsOk l ∧ l.length ≤ cp.length := by
  induction h with
  | nil =>
    intro fuel _
    refine ⟨[], ?_, OptionsOk.nil, Nat.le_refl _⟩
    cases fuel <;> rfl
  | eol rest =>
    intro fuel hfuel
    obtain ⟨n, rfl⟩ : ∃ n, fuel = n + 1 := ⟨fuel - 1, by rw [length_cons] at hfuel; omega⟩
    exact ⟨[], rfl, OptionsOk.nil, Nat.zero_le _⟩
  | @nop rest _ ih =>
    intro fuel hfuel
    obtain ⟨n, rfl⟩ : ∃ n, fuel = n + 1 := ⟨fuel - 1, by rw [length_cons] at hfuel; omega⟩
    obtain ⟨l, hl, hok, hle⟩ := @ih n (by rw [length_cons] at hfuel; omega)
    refine ⟨ipoptNop :: l, ?_, OptionsOk.nop hok, by simpa using hle⟩
    have hne : ipoptNop ≠ ipoptEol := by decide
    unfold optcopyLoop
    dsimp only
    rw [if_neg hne, if_pos rfl, hl]
    rfl
  | @opt opt optlen body rest h1 h2 hlen _ ih =>
    intro fuel hfuel
    rw [length_cons, length_cons, length_append] at hfuel
    obtain ⟨n, rfl⟩ : ∃ n, fuel = n + 1 := ⟨fuel - 1, by omega⟩
    obtain ⟨l, hl, hok, hle⟩ := @ih n (by omega)
    have hdrop : (opt :: optlen :: (body ++ rest)).drop optlen.toNat = rest := by
      rw [hlen, Nat.add_comm, drop_succ_cons, drop_succ_cons]
      exact drop_left
    have htake : (opt :: optlen :: (body ++ rest)).take optlen.toNat = opt :: optlen :: body := by
      rw [hlen, Nat.add_comm, take_succ_cons, take_succ_cons, take_left]
    have hgood : ¬ (optlen.toNat < 2 ∨ (opt :: optlen :: (body ++ rest)).length < optlen.toNat) := by
      rw [length_cons, length_cons, length_append]
      omega
    unfold optcopyLoop
    dsimp only
    rw [if_neg h1, if_neg h2, if_neg hgood, hdrop, htake, hl]
    by_cases hcopied : ipoptCopied opt = true
    · rw [if_pos hcopied]
      refine ⟨opt :: optlen :: (body ++ l), rfl, OptionsOk.opt h1 h2 hlen hok, ?_⟩
      simp only [length_cons, length_append]
      omega
    · rw [if_neg hcopied]
      refine ⟨l, rfl, hok, ?_⟩
      simp only [length_cons, length_append]
      omega

theorem ipOptcopy_ok {options : List UInt8} (h : OptionsOk options) (hword : options.length % 4 = 0) :
    ∃ l, ipOptcopy options = some l ∧ OptionsOk l ∧ l.length % 4 = 0 ∧
      l.length ≤ options.length := by
  obtain ⟨l, hl, hok, hle⟩ := @optcopyLoop_ok options h options.length (Nat.le_refl _)
  refine ⟨optPad l, ?_, hok.pad _, ?_, ?_⟩
  · unfold ipOptcopy
    rw [hl]
    rfl
  · unfold optPad
    rw [length_append, length_replicate]
    omega
  · unfold optPad
    rw [length_append, length_replicate]
    omega

end OpenBsd.Netinet
