/-
  OpenBsd.Netinet.InCksum

  The checksum of `sys/netinet/in_cksum.c`, on a little endian machine with 32-bit `int`s in
  two's complement.

  Memory is a function from addresses to bytes, `w` an address in it.
-/

import OpenBsd.Lib.OnesComplement

namespace OpenBsd.Netinet

open OpenBsd.Lib List

/-! ## Chains of mbufs -/

/-- `m_data` and `m_len` of an mbuf. -/
structure CksumMbuf where
  mData : Nat
  mLen : Nat

/-- `n` bytes from the address `w` on. -/
def bytesAt (mem : Nat → BitVec 8) (w n : Nat) : List (BitVec 8) :=
  (List.range' w n).map mem

def chainBytes (mem : Nat → BitVec 8) (m : List CksumMbuf) : List (BitVec 8) :=
  m.flatMap fun m => bytesAt mem m.mData m.mLen

/-- The 16-bit words of a list of bytes, a single last byte padded with zero. -/
def cksumWords : List (BitVec 8) → List (BitVec 16)
  | [] => []
  | [a] => [(0#8 ++ a : BitVec 16)]
  | a :: b :: l => (b ++ a : BitVec 16) :: cksumWords l

/-- The Internet checksum of a list of bytes. -/
def internetChecksum (l : List (BitVec 8)) : BitVec 16 := ~~~ onesSum (cksumWords l)

/-! ## in_cksum -/

def sUtil (c0 c1 : BitVec 8) : BitVec 32 := (c1 ++ c0 : BitVec 16).setWidth 32

/-- `*w`. -/
def wordAt (mem : Nat → BitVec 8) (w : Nat) : BitVec 32 := sUtil (mem w) (mem (w + 1))

def cksumReduce (sum : BitVec 32) : BitVec 32 :=
  let x := (sum.extractLsb' 0 16).setWidth 32 + (sum.extractLsb' 16 16).setWidth 32
  if (65535#32).slt x then x - 65535#32 else x

/-- `sum += w[0]; sum += w[1]; ..` up to `w[n - 1]`. -/
def addWords (mem : Nat → BitVec 8) : Nat → Nat → BitVec 32 → BitVec 32
  | 0, _, sum => sum
  | n + 1, w, sum => addWords mem n (w + 2) (sum + wordAt mem w)

/-- What the loops over words change. -/
structure CksumScan where
  sum : BitVec 32
  w : Nat
  mlen : Int

/-- `while ((mlen -= 2 * n) >= 0)`, with `n` words added in each round. -/
def wordLoop (mem : Nat → BitVec 8) (n : Nat) : Nat → CksumScan → CksumScan
  | 0, s => s
  | fuel + 1, s =>
    if 0 ≤ s.mlen - 2 * n then
      wordLoop mem n fuel ⟨addWords mem n s.w s.sum, s.w + 2 * n, s.mlen - 2 * n⟩
    else { s with mlen := s.mlen - 2 * n }

/-- What `in_cksum` keeps from one mbuf to the next; `c0` is `s_util.c[0]`. -/
structure CksumState where
  sum : BitVec 32
  mlen : Int
  c0 : BitVec 8
  len : Int

def cksumUnrolled (mem : Nat → BitVec 8) (s : CksumScan) : CksumScan :=
  let s := wordLoop mem 16 (s.mlen.toNat + 1) s
  let s := wordLoop mem 4 ((s.mlen + 32).toNat + 1) ⟨s.sum, s.w, s.mlen + 32⟩
  ⟨s.sum, s.w, s.mlen + 8⟩

/-- `REDUCE` and the loop behind it. -/
def cksumRest (mem : Nat → BitVec 8) (s : CksumScan) : CksumScan :=
  wordLoop mem 1 (s.mlen.toNat + 1) ⟨cksumReduce s.sum, s.w, s.mlen⟩

/-- The body of the loop over the mbufs behind `len -= mlen`. -/
def cksumBody (mem : Nat → BitVec 8) (w : Nat) (st : CksumState) : CksumState :=
  -- force to even boundary
  if w % 2 = 1 ∧ 0 < st.mlen then
    let c0 := mem w
    let s := cksumRest mem
      (cksumUnrolled mem ⟨cksumReduce st.sum <<< 8, w + 1, st.mlen - 1⟩)
    let sum := cksumReduce s.sum <<< 8
    if s.mlen = -1 then ⟨sum + sUtil c0 (mem s.w), 0, c0, st.len⟩ else ⟨sum, -1, c0, st.len⟩
  else
    let s := cksumUnrolled mem ⟨st.sum, w, st.mlen⟩
    if s.mlen = 0 then ⟨s.sum, s.mlen, st.c0, st.len⟩
    else
      let s := cksumRest mem s
      if s.mlen = -1 then ⟨s.sum, s.mlen, mem s.w, st.len⟩ else ⟨s.sum, s.mlen, st.c0, st.len⟩

def cksumMbuf (mem : Nat → BitVec 8) (m : CksumMbuf) (st : CksumState) : CksumState :=
  if m.mLen = 0 then st
  else
    let spans := decide (st.mlen = -1)
    let sum := if spans then st.sum + sUtil st.c0 (mem m.mData) else st.sum
    let w := if spans then m.mData + 1 else m.mData
    let mlen : Int := if spans then (m.mLen : Int) - 1 else m.mLen
    let len := if spans then st.len - 1 else st.len
    let mlen := if len < mlen then len else mlen
    cksumBody mem w ⟨sum, mlen, st.c0, len - mlen⟩

/-- The loop over the mbufs. -/
def cksumLoop (mem : Nat → BitVec 8) : List CksumMbuf → CksumState → CksumState
  | [], st => st
  | m :: ms, st => if st.len = 0 then st else cksumLoop mem ms (cksumMbuf mem m st)

def inCksum (mem : Nat → BitVec 8) (m : List CksumMbuf) (len : Int) : BitVec 32 :=
  let st := cksumLoop mem m ⟨0, 0, 0, len⟩
  let sum := if st.mlen = -1 then st.sum + sUtil st.c0 0 else st.sum
  ~~~ cksumReduce sum &&& 0xffff#32

/-! ## Sums of words -/

/-- The number that bytes are in little endian. -/
def cksumVal (l : List (BitVec 8)) : Nat := Nat.ofDigits 256 (l.map BitVec.toNat)

section

variable {mem : Nat → BitVec 8} {n w q k fuel : Nat} {sum : BitVec 32} {P Q : List (BitVec 8)}

@[simp] theorem length_bytesAt (mem : Nat → BitVec 8) (w n : Nat) :
    (bytesAt mem w n).length = n := by
  rw [bytesAt, length_map, length_range']

theorem bytesAt_succ (mem : Nat → BitVec 8) (w n : Nat) :
    bytesAt mem w (n + 1) = mem w :: bytesAt mem (w + 1) n := rfl

theorem bytesAt_add (mem : Nat → BitVec 8) (w n k : Nat) :
    bytesAt mem w (n + k) = bytesAt mem w n ++ bytesAt mem (w + n) k := by
  rw [bytesAt, bytesAt, bytesAt, ← map_append, ← range'_append_1]

theorem cksumVal_cons (a : BitVec 8) (l : List (BitVec 8)) :
    cksumVal (a :: l) = a.toNat + 256 * cksumVal l := Nat.ofDigits_cons ..

theorem cksumVal_append (P Q : List (BitVec 8)) :
    cksumVal (P ++ Q) = cksumVal P + 256 ^ P.length * cksumVal Q := by
  rw [cksumVal, map_append, Nat.ofDigits_append, length_map]
  rfl

theorem onesEq_even {j : Nat} (hj : j % 2 = 0) (n : Nat) : OnesEq 65535 (256 ^ j * n) n := by
  obtain ⟨k, rfl⟩ : ∃ k, j = 2 * k := ⟨j / 2, by omega⟩
  have hone : OnesEq 65535 (256 ^ 2) 1 := onesEq_carry 65535 1
  have hpow := (hone.pow k).mul (.refl n)
  rwa [Nat.one_pow, Nat.one_mul, ← Nat.pow_mul] at hpow

theorem cksumVal_even (hP : P.length % 2 = 0) (Q : List (BitVec 8)) :
    OnesEq 65535 (cksumVal (P ++ Q)) (cksumVal P + cksumVal Q) := by
  rw [cksumVal_append]
  exact (OnesEq.refl _).add (onesEq_even hP _)

theorem cksumVal_odd (hP : P.length % 2 = 1) (a : BitVec 8) :
    OnesEq 65535 (cksumVal (P ++ [a])) (cksumVal P + 256 * a.toNat) := by
  obtain ⟨j, hj⟩ : ∃ j, P.length = 2 * j + 1 := ⟨P.length / 2, by omega⟩
  rw [cksumVal_append, cksumVal_cons, hj, Nat.pow_succ, Nat.mul_assoc]
  exact (OnesEq.refl _).add (onesEq_even (by omega) _)

theorem cksumVal_words (l : List (BitVec 8)) :
    OnesEq 65535 ((cksumWords l).map BitVec.toNat).sum (cksumVal l) := by
  induction l using cksumWords.induct with
  | case1 => exact .refl _
  | case2 a =>
    refine .of_eq ?_
    show (0#8 ++ a : BitVec 16).toNat + 0 = _
    rw [BitVec.toNat_append, cksumVal_cons, BitVec.toNat_ofNat, Nat.zero_mod, Nat.zero_shiftLeft,
      Nat.zero_or]
    rfl
  | case3 a b l ih =>
    show OnesEq 65535 ((b ++ a : BitVec 16).toNat + ((cksumWords l).map BitVec.toNat).sum) _
    have hword : (b ++ a : BitVec 16).toNat = a.toNat + 256 * b.toNat := by
      rw [BitVec.toNat_append, ← Nat.shiftLeft_add_eq_or_of_lt a.isLt, Nat.shiftLeft_eq]
      omega
    have hrest : OnesEq 65535 (256 ^ 2 * cksumVal l) (cksumVal l) := onesEq_even rfl _
    rw [hword, cksumVal_cons, cksumVal_cons, Nat.mul_add, ← Nat.add_assoc, ← Nat.mul_assoc]
    exact (OnesEq.refl _).add (ih.trans hrest.symm)

theorem toNat_sUtil (a b : BitVec 8) : (sUtil a b).toNat = a.toNat + 256 * b.toNat := by
  have ha := a.isLt
  have hb := b.isLt
  rw [sUtil, BitVec.toNat_setWidth, BitVec.toNat_append, ← Nat.shiftLeft_add_eq_or_of_lt ha,
    Nat.shiftLeft_eq]
  omega

theorem sUtil_le (a b : BitVec 8) : (sUtil a b).toNat ≤ 65535 := by
  have ha := a.isLt
  have hb := b.isLt
  rw [toNat_sUtil]
  omega

theorem cksumReduce_spec (sum : BitVec 32) :
    OnesEq 65535 (cksumReduce sum).toNat sum.toNat ∧ (cksumReduce sum).toNat ≤ 65535 := by
  have hsum := sum.isLt
  have hx : ((sum.extractLsb' 0 16).setWidth 32 + (sum.extractLsb' 16 16).setWidth 32).toNat
      = sum.toNat % 65536 + sum.toNat / 65536 := by
    simp only [BitVec.toNat_add, BitVec.toNat_setWidth, BitVec.extractLsb'_toNat,
      Nat.shiftRight_eq_div_pow, Nat.pow_zero, Nat.div_one]
    rw [show sum.toNat / 2 ^ 16 % 2 ^ 16 % 2 ^ 32 = sum.toNat / 65536 by omega,
      show sum.toNat % 2 ^ 16 % 2 ^ 32 = sum.toNat % 65536 by omega]
    exact Nat.mod_eq_of_lt (by omega)
  have hfold := onesEq_fold 65535 sum.toNat
  rw [cksumReduce]
  generalize (sum.extractLsb' 0 16).setWidth 32 + (sum.extractLsb' 16 16).setWidth 32 = x at hx
  have hslt : (65535#32).slt x = true ↔ 65535 < x.toNat := by
    rw [BitVec.slt_iff_toInt_lt, BitVec.toInt_eq_toNat_cond, BitVec.toInt_eq_toNat_cond]
    have : (65535#32).toNat = 65535 := rfl
    omega
  by_cases hcarry : 65535 < x.toNat
  · have hsub : (x - 65535#32).toNat = x.toNat - 65535 := by
      rw [BitVec.toNat_sub]
      have : (65535#32).toNat = 65535 := rfl
      omega
    rw [if_pos (hslt.2 hcarry), hsub]
    exact ⟨(onesEq_sub hcarry).trans (hx ▸ hfold), by omega⟩
  · rw [if_neg (mt hslt.1 hcarry)]
    exact ⟨hx ▸ hfold, by omega⟩

theorem cksumSwap_spec (sum : BitVec 32) :
    OnesEq 65535 (cksumReduce sum <<< 8).toNat (256 * sum.toNat) ∧
      (cksumReduce sum <<< 8).toNat ≤ 16776960 := by
  obtain ⟨hones, hle⟩ := cksumReduce_spec sum
  have hshift : (cksumReduce sum <<< 8).toNat = 256 * (cksumReduce sum).toNat := by
    rw [BitVec.toNat_shiftLeft, Nat.shiftLeft_eq]
    omega
  rw [hshift]
  exact ⟨(OnesEq.refl 256).mul hones, by omega⟩

/-! ## Loops -/

theorem addWords_add (mem : Nat → BitVec 8) (n k w : Nat) (sum : BitVec 32) :
    addWords mem (n + k) w sum = addWords mem k (w + 2 * n) (addWords mem n w sum) := by
  induction n generalizing w sum with
  | zero => rw [Nat.zero_add, Nat.mul_zero, Nat.add_zero, addWords]
  | succ n ih =>
    rw [Nat.add_right_comm, addWords, addWords, ih, Nat.add_assoc, Nat.mul_succ, Nat.add_comm 2]

theorem addWords_spec (mem : Nat → BitVec 8) (n w : Nat) (sum : BitVec 32)
    (hsum : sum.toNat + 65535 * n < 2 ^ 32) :
    OnesEq 65535 (addWords mem n w sum).toNat (sum.toNat + cksumVal (bytesAt mem w (2 * n))) ∧
      (addWords mem n w sum).toNat ≤ sum.toNat + 65535 * n := by
  induction n generalizing w sum with
  | zero => exact ⟨.refl _, Nat.le_refl _⟩
  | succ n ih =>
    have hword : (wordAt mem w).toNat = (mem w).toNat + 256 * (mem (w + 1)).toNat :=
      toNat_sUtil ..
    have hle : (wordAt mem w).toNat ≤ 65535 := sUtil_le ..
    have hadd : (sum + wordAt mem w).toNat = sum.toNat + (wordAt mem w).toNat := by
      rw [BitVec.toNat_add, Nat.mod_eq_of_lt (by omega)]
    obtain ⟨hones, hbound⟩ := ih (w + 2) (sum + wordAt mem w) (by omega)
    rw [hadd] at hones hbound
    refine ⟨?_, by rw [addWords]; omega⟩
    have hrest : OnesEq 65535 (256 ^ 2 * cksumVal (bytesAt mem (w + 2) (2 * n)))
      (cksumVal (bytesAt mem (w + 2) (2 * n))) := onesEq_even rfl _
    have hval : cksumVal (bytesAt mem w (2 * (n + 1)))
        = (wordAt mem w).toNat + 256 ^ 2 * cksumVal (bytesAt mem (w + 2) (2 * n)) := by
      rw [Nat.mul_succ, bytesAt_succ, bytesAt_succ, cksumVal_cons, cksumVal_cons, hword]
      ring
    rw [addWords, hval, ← Nat.add_assoc]
    exact hones.trans ((OnesEq.refl _).add hrest.symm)

theorem wordLoop_eq (mem : Nat → BitVec 8) (hn : 0 < n) (hfuel : k < fuel) (w : Nat)
    (sum : BitVec 32) :
    wordLoop mem n fuel ⟨sum, w, k⟩ = ⟨addWords mem (n * (k / (2 * n))) w sum,
      w + 2 * (n * (k / (2 * n))), ((k % (2 * n) : Nat) : Int) - 2 * n⟩ := by
  induction fuel generalizing k w sum with
  | zero => omega
  | succ fuel ih =>
    rw [wordLoop]
    dsimp only
    by_cases hround : 2 * n ≤ k
    · obtain ⟨j, rfl⟩ := Nat.exists_eq_add_of_le hround
      have hmlen : ((2 * n + j : Nat) : Int) - 2 * n = (j : Int) := by omega
      rw [if_pos (by omega), hmlen, ih (by omega), Nat.add_div_left _ (by omega),
        Nat.add_mod_left, Nat.mul_succ, Nat.add_comm (n * _) n, addWords_add, Nat.mul_add,
        Nat.add_assoc]
    · rw [if_neg (by omega), Nat.div_eq_of_lt (by omega), Nat.mod_eq_of_lt (by omega),
        Nat.mul_zero, addWords, Nat.mul_zero, Nat.add_zero]

theorem cksumUnrolled_eq (mem : Nat → BitVec 8) (k w : Nat) (sum : BitVec 32) :
    ∃ q r, k = 2 * q + r ∧ r < 8 ∧
      cksumUnrolled mem ⟨sum, w, k⟩ = ⟨addWords mem q w sum, w + 2 * q, r⟩ := by
  refine ⟨16 * (k / (2 * 16)) + 4 * (k % (2 * 16) / (2 * 4)), k % (2 * 16) % (2 * 4), by omega,
    Nat.mod_lt _ (by decide), ?_⟩
  have hfirst := wordLoop_eq mem (show 0 < 16 by decide) (Nat.lt_succ_self k) w sum
  have hsecond := wordLoop_eq mem (show 0 < 4 by decide) (Nat.lt_succ_self (k % (2 * 16)))
    (w + 2 * (16 * (k / (2 * 16)))) (addWords mem (16 * (k / (2 * 16))) w sum)
  rw [cksumUnrolled, Int.toNat_natCast, hfirst]
  dsimp only
  rw [show ((k % (2 * 16) : Nat) : Int) - 2 * ((16 : Nat) : Int) + 32 = ((k % (2 * 16) : Nat) : Int)
    by omega, Int.toNat_natCast, hsecond, addWords_add, Nat.mul_add, Nat.add_assoc]
  congr 1
  dsimp only
  omega

theorem cksumRest_eq (mem : Nat → BitVec 8) (r w : Nat) (sum : BitVec 32) :
    cksumRest mem ⟨sum, w, r⟩ = ⟨addWords mem (r / 2) w (cksumReduce sum), w + 2 * (r / 2),
      if r % 2 = 1 then -1 else -2⟩ := by
  have hloop := wordLoop_eq mem (show 0 < 1 by decide) (Nat.lt_succ_self r) w (cksumReduce sum)
  rw [cksumRest, Int.toNat_natCast, hloop, Nat.mul_one, Nat.one_mul]
  congr 1
  split <;> omega

theorem cksumScan_spec (mem : Nat → BitVec 8) (k w : Nat) (sum : BitVec 32)
    (hsum : sum.toNat + 65535 * (k / 2) < 2 ^ 32) :
    ∃ s : CksumScan, cksumRest mem (cksumUnrolled mem ⟨sum, w, k⟩) = s ∧
      OnesEq 65535 s.sum.toNat (sum.toNat + cksumVal (bytesAt mem w (2 * (k / 2)))) ∧
      s.sum.toNat ≤ 262140 ∧ s.w = w + 2 * (k / 2) ∧ s.mlen = if k % 2 = 1 then -1 else -2 := by
  obtain ⟨q, r, hk, hr, heq⟩ := cksumUnrolled_eq mem k w sum
  rw [heq, cksumRest_eq]
  obtain ⟨hq, hqle⟩ := addWords_spec mem q w sum (by omega)
  obtain ⟨hred, hredle⟩ := cksumReduce_spec (addWords mem q w sum)
  obtain ⟨hrest, hrestle⟩ := addWords_spec mem (r / 2) (w + 2 * q)
    (cksumReduce (addWords mem q w sum)) (by omega)
  refine ⟨_, rfl, ?_, by dsimp only; omega, by dsimp only; omega, by rw [hk, Nat.mul_add_mod]⟩
  have heven : (bytesAt mem w (2 * q)).length % 2 = 0 := by rw [length_bytesAt]; omega
  rw [show 2 * (k / 2) = 2 * q + 2 * (r / 2) by omega, bytesAt_add]
  have hsums := hrest.trans ((hred.trans hq).add (.refl _))
  rw [Nat.add_assoc] at hsums
  exact hsums.trans ((OnesEq.refl _).add (cksumVal_even heven _).symm)

/-! ## Mbufs -/

/-- What `in_cksum` keeps stands for the bytes so far; `s_util.c[0]` holds one of them if there
    is an odd number. -/
structure CksumOk (P : List (BitVec 8)) (st : CksumState) : Prop where
  parity : st.mlen = -1 ↔ P.length % 2 = 1
  value : OnesEq 65535 (st.sum.toNat + if st.mlen = -1 then st.c0.toNat else 0) (cksumVal P)
  bound : st.sum.toNat + (if st.mlen = -1 then 32768 else 0) ≤ 16776960 + 32768 * P.length

theorem cksumVal_singleton (a : BitVec 8) : cksumVal [a] = a.toNat := Nat.ofDigits_singleton ..

variable {c0 : BitVec 8} {len : Int}

/-- The bytes from an odd address on: the sum of their words is half a word off. -/
theorem cksumBody_odd (hP : P.length % 2 = 0)
    (hvalue : OnesEq 65535 sum.toNat (cksumVal P)) (hw : w % 2 = 1)
    (hlen : P.length + (k + 1) ≤ 65535) :
    CksumOk (P ++ bytesAt mem w (k + 1)) (cksumBody mem w ⟨sum, (k + 1 : Nat), c0, len⟩) ∧
      (cksumBody mem w ⟨sum, (k + 1 : Nat), c0, len⟩).len = len := by
  obtain ⟨hswap, hswaple⟩ := cksumSwap_spec sum
  obtain ⟨s, hs, hscan, hsle, hsw, hsm⟩ := cksumScan_spec mem k (w + 1)
    (cksumReduce sum <<< 8) (by omega)
  obtain ⟨hback, hbackle⟩ := cksumSwap_spec s.sum
  have hlength : (P ++ bytesAt mem w (k + 1)).length = P.length + (k + 1) := by
    rw [length_append, length_bytesAt]
  -- twice off by half a word is once around
  have hsum : OnesEq 65535 (cksumReduce s.sum <<< 8).toNat
      (cksumVal P + 256 * cksumVal (bytesAt mem (w + 1) (2 * (k / 2)))) := by
    have hscaled := hback.trans ((OnesEq.refl 256).mul (hscan.trans (hswap.add (.refl _))))
    rw [Nat.mul_add, ← Nat.mul_assoc] at hscaled
    have hround : OnesEq 65535 (256 ^ 2 * sum.toNat) (cksumVal P) :=
      (onesEq_even rfl _).trans hvalue
    exact hscaled.trans (hround.add (.refl _))
  have hbytes : OnesEq 65535 (cksumVal (P ++ bytesAt mem w (k + 1)))
      (cksumVal P + ((mem w).toNat + 256 * cksumVal (bytesAt mem (w + 1) k))) := by
    rw [bytesAt_succ, ← cksumVal_cons]
    exact cksumVal_even hP _
  have hbody : cksumBody mem w ⟨sum, (k + 1 : Nat), c0, len⟩
      = if s.mlen = -1 then
          ⟨cksumReduce s.sum <<< 8 + sUtil (mem w) (mem s.w), 0, mem w, len⟩
        else ⟨cksumReduce s.sum <<< 8, -1, mem w, len⟩ := by
    rw [cksumBody, if_pos ⟨hw, by dsimp only; omega⟩]
    dsimp only
    rw [show ((k + 1 : Nat) : Int) - 1 = (k : Int) by omega, hs]
  rw [hbody]
  by_cases hodd : k % 2 = 1
  · rw [if_pos (hsm.trans (if_pos hodd))]
    have hle := sUtil_le (mem w) (mem s.w)
    have hadd : (cksumReduce s.sum <<< 8 + sUtil (mem w) (mem s.w)).toNat
        = (cksumReduce s.sum <<< 8).toNat + (sUtil (mem w) (mem s.w)).toNat := by
      rw [BitVec.toNat_add, Nat.mod_eq_of_lt (by omega)]
    refine ⟨⟨iff_of_false (show ¬ (0 : Int) = -1 by decide) (by omega), ?_, ?_⟩, rfl⟩
    · have hlast : OnesEq 65535 (cksumVal (bytesAt mem (w + 1) k))
          (cksumVal (bytesAt mem (w + 1) (2 * (k / 2))) + (mem s.w).toNat) := by
        have hsplit := bytesAt_add mem (w + 1) (2 * (k / 2)) 1
        rw [show 2 * (k / 2) + 1 = k by omega, ← hsw] at hsplit
        rw [hsplit, ← cksumVal_singleton]
        exact cksumVal_even (by rw [length_bytesAt]; omega) _
      show OnesEq 65535 ((cksumReduce s.sum <<< 8 + sUtil (mem w) (mem s.w)).toNat + 0) _
      rw [hadd, toNat_sUtil, Nat.add_zero]
      refine (hsum.add (.refl _)).trans (.trans (.of_eq ?_) (hbytes.trans ((OnesEq.refl _).add
        ((OnesEq.refl _).add ((OnesEq.refl 256).mul hlast)))).symm)
      ring
    · show (cksumReduce s.sum <<< 8 + sUtil (mem w) (mem s.w)).toNat + 0 ≤ _
      rw [hadd, hlength]
      omega
  · rw [if_neg (by rw [hsm, if_neg hodd]; decide)]
    refine ⟨⟨iff_of_true rfl (by omega), ?_, ?_⟩, rfl⟩
    · show OnesEq 65535 ((cksumReduce s.sum <<< 8).toNat + (mem w).toNat) _
      rw [show 2 * (k / 2) = k by omega] at hsum
      refine (hsum.add (.refl _)).trans (.trans (.of_eq ?_) hbytes.symm)
      ring
    · show (cksumReduce s.sum <<< 8).toNat + 32768 ≤ _
      rw [hlength]
      omega

/-- The bytes from an even address on. -/
theorem cksumBody_even (hP : P.length % 2 = 0)
    (hvalue : OnesEq 65535 sum.toNat (cksumVal P))
    (hbound : sum.toNat ≤ 16776960 + 32768 * P.length) (hw : ¬ (w % 2 = 1 ∧ 0 < k))
    (hlen : P.length + k ≤ 65535) :
    CksumOk (P ++ bytesAt mem w k) (cksumBody mem w ⟨sum, k, c0, len⟩) ∧
      (cksumBody mem w ⟨sum, k, c0, len⟩).len = len := by
  have hlength : (P ++ bytesAt mem w k).length = P.length + k := by
    rw [length_append, length_bytesAt]
  have hbytes := cksumVal_even hP (bytesAt mem w k)
  obtain ⟨q, r, hk, hr, hunrolled⟩ := cksumUnrolled_eq mem k w sum
  obtain ⟨s, hs, hscan, hsle, hsw, hsm⟩ := cksumScan_spec mem k w sum (by omega)
  rw [hunrolled] at hs
  rw [cksumBody, if_neg (by dsimp only; omega)]
  dsimp only
  rw [hunrolled]
  dsimp only
  by_cases hzero : r = 0
  · -- nothing is left behind the unrolled loops, and the sum is not reduced
    obtain ⟨hq, hqle⟩ := addWords_spec mem q w sum (by omega)
    rw [if_pos (by omega)]
    refine ⟨⟨iff_of_false (by dsimp only; omega) (by omega), ?_, ?_⟩, rfl⟩
    · show OnesEq 65535 (_ + if (r : Int) = -1 then _ else 0) _
      rw [if_neg (by omega), Nat.add_zero]
      rw [show 2 * q = k by omega] at hq
      exact (hq.trans (hvalue.add (.refl _))).trans hbytes.symm
    · show _ + (if (r : Int) = -1 then 32768 else 0) ≤ _
      rw [if_neg (by omega), hlength]
      dsimp only
      omega
  · rw [if_neg (by omega), hs]
    by_cases hodd : k % 2 = 1
    · have hmlen : s.mlen = -1 := hsm.trans (if_pos hodd)
      rw [if_pos hmlen]
      refine ⟨⟨iff_of_true hmlen (by omega), ?_, ?_⟩, rfl⟩
      · have hlast : OnesEq 65535 (cksumVal (bytesAt mem w k))
            (cksumVal (bytesAt mem w (2 * (k / 2))) + (mem s.w).toNat) := by
          have hsplit := bytesAt_add mem w (2 * (k / 2)) 1
          rw [show 2 * (k / 2) + 1 = k by omega, ← hsw] at hsplit
          rw [hsplit, ← cksumVal_singleton]
          exact cksumVal_even (by rw [length_bytesAt]; omega) _
        show OnesEq 65535 (s.sum.toNat + if s.mlen = -1 then (mem s.w).toNat else 0) _
        rw [if_pos hmlen]
        refine ((hscan.trans (hvalue.add (.refl _))).add (.refl _)).trans ?_
        rw [Nat.add_assoc]
        exact ((OnesEq.refl _).add hlast.symm).trans hbytes.symm
      · show s.sum.toNat + (if s.mlen = -1 then 32768 else 0) ≤ _
        rw [if_pos hmlen, hlength]
        omega
    · have hmlen : s.mlen = -2 := hsm.trans (if_neg hodd)
      have hno : s.mlen ≠ -1 := by omega
      rw [if_neg hno]
      refine ⟨⟨iff_of_false hno (by omega), ?_, ?_⟩, rfl⟩
      · show OnesEq 65535 (s.sum.toNat + if s.mlen = -1 then c0.toNat else 0) _
        rw [if_neg hno, Nat.add_zero]
        rw [show 2 * (k / 2) = k by omega] at hscan
        exact (hscan.trans (hvalue.add (.refl _))).trans hbytes.symm
      · show s.sum.toNat + (if s.mlen = -1 then 32768 else 0) ≤ _
        rw [if_neg hno, hlength]
        omega

theorem cksumBody_spec {st : CksumState} (hP : P.length % 2 = 0)
    (hvalue : OnesEq 65535 st.sum.toNat (cksumVal P))
    (hbound : st.sum.toNat ≤ 16776960 + 32768 * P.length) (w : Nat) (hk : st.mlen = k)
    (hlen : P.length + k ≤ 65535) :
    CksumOk (P ++ bytesAt mem w k) (cksumBody mem w st) ∧
      (cksumBody mem w st).len = st.len := by
  obtain ⟨sum, mlen, c0, len⟩ := st
  obtain rfl : mlen = k := hk
  by_cases hodd : w % 2 = 1 ∧ 0 < k
  · obtain ⟨j, rfl⟩ : ∃ j, k = j + 1 := ⟨k - 1, by omega⟩
    exact cksumBody_odd hP hvalue hodd.1 hlen
  · exact cksumBody_even hP hvalue hbound hodd hlen

/-- One mbuf adds its bytes, as many as are asked for. -/
theorem CksumOk.mbuf {st : CksumState} (h : CksumOk P st) {l : Nat} (hl : st.len = l)
    (hpos : 0 < l) (hsize : P.length + l ≤ 65535) (mem : Nat → BitVec 8) (m : CksumMbuf) :
    CksumOk (P ++ bytesAt mem m.mData (min m.mLen l)) (cksumMbuf mem m st) ∧
      (cksumMbuf mem m st).len = (l - min m.mLen l : Nat) := by
  rw [cksumMbuf]
  by_cases hempty : m.mLen = 0
  · rw [if_pos hempty, hempty, Nat.zero_min]
    exact ⟨(append_nil P).symm ▸ h, hl⟩
  · rw [if_neg hempty]
    by_cases hspans : st.mlen = -1
    · -- the first byte completes a word
      obtain ⟨n, hn⟩ : ∃ n, min m.mLen l = n + 1 := ⟨min m.mLen l - 1, by omega⟩
      have hparity := h.parity.1 hspans
      have hvalue := h.value
      have hbound := h.bound
      rw [if_pos hspans] at hvalue hbound
      have hle := sUtil_le st.c0 (mem m.mData)
      have hadd : (st.sum + sUtil st.c0 (mem m.mData)).toNat
          = st.sum.toNat + (sUtil st.c0 (mem m.mData)).toNat := by
        rw [BitVec.toNat_add, Nat.mod_eq_of_lt (by omega)]
      have hlen1 : (P ++ [mem m.mData]).length = P.length + 1 := length_append
      have hvalue1 : OnesEq 65535 (st.sum + sUtil st.c0 (mem m.mData)).toNat
          (cksumVal (P ++ [mem m.mData])) := by
        rw [hadd, toNat_sUtil, ← Nat.add_assoc]
        exact (hvalue.add (.refl _)).trans (cksumVal_odd hparity _).symm
      simp only [hspans, decide_true, if_true]
      have hmlen : (if st.len - 1 < (m.mLen : Int) - 1 then st.len - 1 else (m.mLen : Int) - 1)
          = (n : Int) := by
        split <;> omega
      rw [hmlen]
      obtain ⟨hok, hlen⟩ := @cksumBody_spec mem n (P ++ [mem m.mData])
        ⟨st.sum + sUtil st.c0 (mem m.mData), n, st.c0, st.len - 1 - n⟩ (by omega) hvalue1
        (by rw [hadd, hlen1]; omega) (m.mData + 1) rfl (by omega)
      rw [append_assoc, singleton_append, ← bytesAt_succ, ← hn] at hok
      refine ⟨hok, hlen.trans ?_⟩
      show st.len - 1 - (n : Int) = _
      omega
    · have hparity : P.length % 2 = 0 := by
        have := mt h.parity.2 hspans
        omega
      have hvalue := h.value
      have hbound := h.bound
      rw [if_neg hspans, Nat.add_zero] at hvalue hbound
      simp only [hspans, decide_false, Bool.false_eq_true, if_false]
      have hmlen : (if st.len < (m.mLen : Int) then st.len else (m.mLen : Int))
          = (min m.mLen l : Nat) := by
        split <;> omega
      rw [hmlen]
      obtain ⟨hok, hlen⟩ := @cksumBody_spec mem (min m.mLen l) P
        ⟨st.sum, (min m.mLen l : Nat), st.c0, st.len - (min m.mLen l : Nat)⟩ hparity hvalue hbound
        m.mData rfl (by omega)
      refine ⟨hok, hlen.trans ?_⟩
      show st.len - ((min m.mLen l : Nat) : Int) = _
      omega

theorem CksumOk.chain {st : CksumState} (h : CksumOk P st) {l : Nat}
    (hl : st.len = l) (hsize : P.length + l ≤ 65535) (mem : Nat → BitVec 8) (ms : List CksumMbuf)
    (hhas : l ≤ (chainBytes mem ms).length) :
    CksumOk (P ++ (chainBytes mem ms).take l) (cksumLoop mem ms st) := by
  induction ms generalizing P st l with
  | nil =>
    rw [chainBytes, flatMap_nil, take_nil, append_nil]
    exact h
  | cons m ms ih =>
    rw [cksumLoop]
    by_cases hzero : l = 0
    · rw [if_pos (by omega), hzero, take_zero, append_nil]
      exact h
    · rw [if_neg (by omega)]
      obtain ⟨hok, hlen⟩ := h.mbuf hl (by omega) hsize mem m
      have hcons : chainBytes mem (m :: ms) = bytesAt mem m.mData m.mLen ++ chainBytes mem ms :=
        flatMap_cons
      rw [hcons, length_append, length_bytesAt] at hhas
      have hrest := ih hok hlen (by rw [length_append, length_bytesAt]; omega) (by omega)
      have htake : (bytesAt mem m.mData m.mLen).take l = bytesAt mem m.mData (min m.mLen l) := by
        rcases Nat.le_total m.mLen l with hle | hle
        · rw [Nat.min_eq_left hle, take_of_length_le (by rw [length_bytesAt]; exact hle)]
        · obtain ⟨j, hj⟩ := Nat.exists_eq_add_of_le hle
          rw [Nat.min_eq_right hle, hj, bytesAt_add, take_left' (length_bytesAt ..)]
      rw [hcons, take_append, length_bytesAt, htake, ← append_assoc,
        show l - m.mLen = l - min m.mLen l by omega]
      exact hrest

end

/-! ## The checksum -/

theorem toNat_checksum {x : BitVec 32} (hx : x.toNat ≤ 65535) :
    (~~~ x &&& 0xffff#32).toNat = 65535 - x.toNat := by
  have hlt := x.isLt
  rw [BitVec.toNat_and, BitVec.toNat_not, show (0xffff#32).toNat = 2 ^ 16 - 1 from rfl,
    Nat.and_two_pow_sub_one_eq_mod]
  omega

/-- `in_cksum` is the Internet checksum of the bytes, however they are split and aligned. -/
theorem inCksum_eq (mem : Nat → BitVec 8) (m : List CksumMbuf) (len : Nat) (hlen : len ≤ 65535)
    (hhas : len ≤ (chainBytes mem m).length) :
    inCksum mem m len = (internetChecksum ((chainBytes mem m).take len)).setWidth 32 := by
  have hno : ¬ (0 : Int) = -1 := by decide
  have hinit : CksumOk [] ⟨0, 0, 0, len⟩ := ⟨iff_of_false hno (by decide), .refl _, Nat.zero_le _⟩
  have hok := hinit.chain rfl (by rw [length_nil]; omega) mem m hhas
  rw [nil_append] at hok
  have hbytes : ((chainBytes mem m).take len).length ≤ 65535 := by
    rw [length_take]
    omega
  rw [inCksum]
  generalize cksumLoop mem m ⟨0, 0, 0, len⟩ = st at hok
  generalize (chainBytes mem m).take len = P at hok hbytes
  have hsum : OnesEq 65535
      (if st.mlen = -1 then st.sum + sUtil st.c0 0 else st.sum).toNat (cksumVal P) := by
    have hvalue := hok.value
    have hbound := hok.bound
    split
    · next hspans =>
      rw [if_pos hspans] at hvalue hbound
      have hpad : (sUtil st.c0 0).toNat = st.c0.toNat := by
        rw [toNat_sUtil]
        exact Nat.add_zero _
      have hlt := st.c0.isLt
      rwa [BitVec.toNat_add, hpad, Nat.mod_eq_of_lt (by omega)]
    · next hspans => rwa [if_neg hspans, Nat.add_zero] at hvalue
  obtain ⟨hred, hredle⟩ :=
    cksumReduce_spec (if st.mlen = -1 then st.sum + sUtil st.c0 0 else st.sum)
  have hword := eq_onesSum (cksumWords P) (Nat.lt_succ_of_le hredle)
    ((hred.trans hsum).trans (cksumVal_words P).symm)
  have hones := (onesSum (cksumWords P)).isLt
  apply BitVec.eq_of_toNat_eq
  rw [toNat_checksum hredle, hword, internetChecksum, BitVec.toNat_setWidth, BitVec.toNat_not]
  omega

/-- Three bytes at an odd address and one more elsewhere. -/
theorem inCksum_eq_odd :
    inCksum (fun w => BitVec.ofNat 8 w) [⟨1, 3⟩, ⟨20, 1⟩] 4
      = (internetChecksum [1, 2, 3, 20]).setWidth 32 :=
  inCksum_eq (fun w => BitVec.ofNat 8 w) [⟨1, 3⟩, ⟨20, 1⟩] 4 (by decide) (by decide)

end OpenBsd.Netinet
