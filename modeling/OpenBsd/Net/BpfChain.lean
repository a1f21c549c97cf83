/-
  OpenBsd.Net.BpfChain

  The verdict of `bpf_filter` on a chain of mbufs and on the same bytes in one
  buffer.

  The interpreter sees a packet only through its loads.  Two packets get the same
  verdict from every accepted program exactly if all their loads agree, and for a
  chain and its bytes that is a condition on the lengths of the mbufs: the loads
  look at one mbuf behind the first byte and at no more.
-/

import OpenBsd.Net.BpfSafe

namespace OpenBsd.Net

/-! ## Packets with the same loads -/

/-- Every load gives the same on both packets. -/
def SameLoads (pkt pkt' : Packet) : Prop :=
  ∀ (size : BpfSize) (k : UInt32), size.load pkt k = size.load pkt' k

section Congr

variable {pkt pkt' : Packet} {wirelen : UInt32} {f : List BpfInsn}

theorem exec_congr (h : SameLoads pkt pkt') (p : BpfInsn) (s : BpfState) (op : BpfOp) :
    exec pkt wirelen p s op = exec pkt' wirelen p s op := by
  cases op with
  | ldAbs size => simp only [exec, h size]
  | ldInd size => simp only [exec, h size]
  | ldxMsh =>
    have hbyte : ldByte pkt p.k = ldByte pkt' p.k := h .b p.k
    simp only [exec, hbyte]
  | _ => rfl

theorem step_congr (h : SameLoads pkt pkt') (s : BpfState) :
    bpfStep f pkt wirelen s = bpfStep f pkt' wirelen s := by
  simp only [bpfStep, exec_congr h]

theorem run_congr (h : SameLoads pkt pkt') (fuel : Nat) (s : BpfState) :
    bpfRun f pkt wirelen fuel s = bpfRun f pkt' wirelen fuel s := by
  induction fuel generalizing s with
  | zero => rfl
  | succ fuel ih => simp only [bpfRun, step_congr h, ih]

end Congr

/-- The same value from every accepted program. -/
def SameVerdict (maxbufsize : UInt32) (pkt pkt' : Packet) : Prop :=
  ∀ f : List BpfInsn, bpfValidate maxbufsize f = true →
    ∀ wirelen : UInt32, bpfFilter (some f) pkt wirelen = bpfFilter (some f) pkt' wirelen

theorem sameVerdict_iff_sameLoads {maxbufsize : UInt32} (hmax : bpfMinbufsize ≤ maxbufsize)
    {pkt pkt' : Packet} (hload : pkt'.LoadsOk) :
    SameVerdict maxbufsize pkt pkt' ↔ SameLoads pkt pkt' := by
  constructor
  · intro hsame size k
    -- one program tells whether there is data, another one tells the data
    have hdata := hsame _ (validate_readout hmax size k
      (show validateInsn maxbufsize 3 2 (bpfStmt (bpfRet ||| bpfK) 1) = true from rfl) rfl) 0
    have hvalue := hsame _ (validate_readout hmax size k
      (show validateInsn maxbufsize 3 2 (bpfStmt (bpfRet ||| bpfA) 0) = true from rfl) rfl) 0
    rw [filter_readout, filter_readout] at hdata hvalue
    obtain ⟨r', hr'⟩ := hload size k
    rw [hr'] at hdata hvalue ⊢
    cases hr : size.load pkt k with
    | error e =>
      rw [hr] at hdata
      cases r' with
      | none => cases hdata
      | some v' => cases hdata
    | ok r =>
      rw [hr] at hdata hvalue
      cases r with
      | none =>
        cases r' with
        | none => rfl
        | some v' =>
          have hzero : (Except.ok (some 0) : Except BpfFault (Option UInt32)) = .ok (some 1) := hdata
          exact absurd hzero (by decide)
      | some v =>
        cases r' with
        | none =>
          have hone : (Except.ok (some 1) : Except BpfFault (Option UInt32)) = .ok (some 0) := hdata
          exact absurd hone (by decide)
        | some v' =>
          have heq : (Except.ok (some v) : Except BpfFault (Option UInt32)) = .ok (some v') :=
            hvalue
          exact heq
  · intro h f _ wirelen
    exact run_congr h _ _

/-! ## The bytes of a chain -/

/-- The bytes of the mbufs, one after the other. -/
def chainBytes (ms : List Mbuf) : List UInt8 := ms.flatMap (·.data)

theorem length_chainBytes (ms : List Mbuf) : (chainBytes ms).length = chainLen ms := by
  simp [chainBytes, chainLen, List.length_flatMap]

section Bytes

variable {before next : List Mbuf} {m m0 : Mbuf} {i : Nat}

theorem chainLen_append (ms ms' : List Mbuf) :
    chainLen (ms ++ ms') = chainLen ms + chainLen ms' := by
  simp [chainLen]

theorem readByte_chain (hi : i < m.data.length) :
    readByte (chainBytes (before ++ m :: next)) (chainLen before + i) = readByte m.data i := by
  have hget : (chainBytes (before ++ m :: next))[chainLen before + i]? = m.data[i]? := by
    simp only [chainBytes, List.flatMap_append, List.flatMap_cons]
    rw [List.getElem?_append_right (by rw [← length_chainBytes]; exact Nat.le_add_right _ _)]
    rw [show chainLen before + i - (List.flatMap (·.data) before).length = i by
      rw [← length_chainBytes]; exact Nat.add_sub_cancel_left _ _]
    exact List.getElem?_append_left hi
  simp only [readByte, hget]

theorem readByte_chain_next (hi : i < m0.data.length) :
    readByte (chainBytes (before ++ m :: m0 :: next)) (chainLen before + (m.data.length + i)) =
      readByte m0.data i := by
  have h := @readByte_chain (before ++ [m]) next m0 i hi
  rw [List.append_assoc, chainLen_append] at h
  rw [← Nat.add_assoc]
  exact h

end Bytes

/-! ## Loads from the flat packet -/

section Flat

variable {p : List UInt8} {hne : p ≠ []} {hlt : p.length < 2 ^ 32} {k : UInt32}

theorem ldWord_flat :
    ldWord (.buffer p hne hlt) k =
      if k.toNat + 4 ≤ p.length then some <$> extractLong p k.toNat else .ok none := by
  simp only [ldWord, loadWith]
  split
  · rename_i htest
    have hroom : ¬ k.toNat + 4 ≤ p.length := not_room_of_test htest
    rw [if_neg hroom]
    rfl
  · rename_i htest
    have hroom : k.toNat + 4 ≤ p.length := room_of_test htest
    rw [if_pos hroom]
    cases extractLong p k.toNat <;> rfl

theorem ldHalf_flat :
    ldHalf (.buffer p hne hlt) k =
      if k.toNat + 2 ≤ p.length then some <$> extractShort p k.toNat else .ok none := by
  simp only [ldHalf, loadWith]
  split
  · rename_i htest
    have hroom : ¬ k.toNat + 2 ≤ p.length := not_room_of_test htest
    rw [if_neg hroom]
    rfl
  · rename_i htest
    have hroom : k.toNat + 2 ≤ p.length := room_of_test htest
    rw [if_pos hroom]
    cases extractShort p k.toNat <;> rfl

theorem ldByte_flat :
    ldByte (.buffer p hne hlt) k =
      if k.toNat < p.length then some <$> readByte p k.toNat else .ok none := by
  simp only [ldByte, loadWith, decide_eq_true_eq, ge_iff_le, UInt32.le_iff_toNat_le, buflen_toNat]
  split
  · rename_i htest
    rw [if_neg (Nat.not_lt.mpr htest)]
    rfl
  · rename_i htest
    rw [if_pos (Nat.lt_of_not_le htest)]
    cases readByte p k.toNat <;> rfl

end Flat

/-! ## Loads from the chain -/

/-- What a word load that starts in `m` relies on beyond `StraddleAt`: the mbuf behind
    `m` has the rest of the word, unless the packet has not. -/
def ReachAt (m : Mbuf) : List Mbuf → Prop
  | [] => True
  | m0 :: rest =>
    m.data.length ≠ 0 →
      chainLen rest = 0 ∨ 3 ≤ m0.data.length ∨
        m.data.length + m0.data.length + chainLen rest < 4

instance (m : Mbuf) (next : List Mbuf) : Decidable (ReachAt m next) :=
  match next with
  | [] => isTrue trivial
  | _ :: _ => inferInstanceAs (Decidable (_ → _))

/-- Every mbuf of the chain. -/
def ReachOk : List Mbuf → Prop
  | [] => True
  | m :: next => ReachAt m next ∧ ReachOk next

instance ReachOk.decide : (ms : List Mbuf) → Decidable (ReachOk ms)
  | [] => isTrue trivial
  | _ :: next =>
    have := ReachOk.decide next
    inferInstanceAs (Decidable (_ ∧ _))

theorem reachOk_iff {ms : List Mbuf} :
    ReachOk ms ↔ ∀ before m next, ms = before ++ m :: next → ReachAt m next := by
  induction ms with
  | nil => simp [ReachOk]
  | cons m₀ ms ih =>
    rw [ReachOk, ih]
    constructor
    · rintro ⟨hat, hrest⟩ before m next hms
      cases before with
      | nil =>
        obtain ⟨rfl, rfl⟩ := List.cons.inj hms
        exact hat
      | cons m₁ before =>
        obtain ⟨rfl, htail⟩ := List.cons.inj hms
        exact hrest before m next htail
    · intro h
      exact ⟨h [] m₀ ms rfl, fun before m next hms => h (m₀ :: before) m next (by rw [hms]; rfl)⟩

section At

variable {before next : List Mbuf} {m : Mbuf} {k : UInt32}

theorem extractShort_chain (hk : k.toNat + 2 ≤ m.data.length) :
    extractShort (chainBytes (before ++ m :: next)) (chainLen before + k.toNat) =
      extractShort m.data k.toNat := by
  simp only [extractShort, Nat.add_assoc]
  rw [readByte_chain (by omega), readByte_chain (by omega)]

theorem extractLong_chain (hk : k.toNat + 4 ≤ m.data.length) :
    extractLong (chainBytes (before ++ m :: next)) (chainLen before + k.toNat) =
      extractLong m.data k.toNat := by
  simp only [extractLong, Nat.add_assoc]
  rw [readByte_chain (by omega), readByte_chain (by omega), readByte_chain (by omega),
    readByte_chain (by omega)]

/-- The half word of the flat packet, with none where the packet is too short. -/
theorem xhalfAt_flat (hat : StraddleAt (chainLen before) m next) (hk : k.toNat < m.data.length)
    (hlen : chainLen (before ++ m :: next) < 2 ^ 32) :
    xhalfAt m next k =
      if chainLen before + k.toNat + 2 ≤ chainLen (before ++ m :: next) then
        some <$> extractShort (chainBytes (before ++ m :: next)) (chainLen before + k.toNat)
      else .ok none := by
  rw [chainLen_append, chainLen_cons] at hlen ⊢
  have hfits := (hat.fits_iff hk (by omega)).1
  unfold xhalfAt
  split
  · rename_i hfit
    rw [hfits] at hfit
    rw [if_pos (by omega), extractShort_chain hfit]
    cases extractShort m.data k.toNat <;> rfl
  · rename_i hfit
    rw [hfits] at hfit
    cases next with
    | nil =>
      rw [chainLen_nil, if_neg (by omega)]
      rfl
    | cons m0 rest =>
      -- one byte in each; `m0` is not empty
      have hm0 := hat.2 (by omega) (by omega) m0 rfl
      rw [chainLen_cons, if_pos (by omega)]
      have hsecond : chainLen before + k.toNat + 1 = chainLen before + (m.data.length + 0) := by
        omega
      simp only [extractShort, hsecond]
      rw [readByte_chain hk, readByte_chain_next (by omega)]
      obtain ⟨c₀, hc₀⟩ := readByte_ok hk
      obtain ⟨n₀, hn₀⟩ := readByte_ok (show 0 < m0.data.length by omega)
      simp only [hc₀, hn₀]
      rfl

/-- The word of the flat packet, with none where the packet is too short. -/
theorem xwordAt_flat (hat : StraddleAt (chainLen before) m next) (hreach : ReachAt m next)
    (hk : k.toNat < m.data.length) (hlen : chainLen (before ++ m :: next) < 2 ^ 32) :
    xwordAt m next k =
      if chainLen before + k.toNat + 4 ≤ chainLen (before ++ m :: next) then
        some <$> extractLong (chainBytes (before ++ m :: next)) (chainLen before + k.toNat)
      else .ok none := by
  rw [chainLen_append, chainLen_cons] at hlen ⊢
  have hfits := (hat.fits_iff hk (by omega)).2
  unfold xwordAt
  split
  · rename_i hfit
    rw [hfits] at hfit
    rw [if_pos (by omega), extractLong_chain hfit]
    cases extractLong m.data k.toNat <;> rfl
  · rename_i hfit
    rw [hfits] at hfit
    cases next with
    | nil =>
      rw [chainLen_nil, if_neg (by omega)]
      rfl
    | cons m0 rest =>
      have hreach := hreach (by omega)
      rw [chainLen_cons] at hlen ⊢
      have hrest : (m.len - k).toNat = m.data.length - k.toNat := by
        rw [UInt32.toNat_sub_of_le _ _ (by rw [UInt32.le_iff_toNat_le, len_toNat]; omega),
          len_toNat]
      have hsum := toNat_room m0 (UInt32.le_iff_toNat_le.mpr (by rw [len_toNat]; omega) : k ≤ m.len)
      rw [Nat.mod_eq_of_lt (by omega)] at hsum
      dsimp only
      split
      · rename_i hroom
        rw [UInt32.lt_iff_toNat_lt, hsum, show (4 : UInt32).toNat = 4 from rfl] at hroom
        rw [if_neg (by omega)]
        rfl
      · rename_i hroom
        rw [UInt32.lt_iff_toNat_lt, hsum, show (4 : UInt32).toNat = 4 from rfl] at hroom
        have henough : chainLen before + k.toNat + 4 ≤
            chainLen before + (m.data.length + (m0.data.length + chainLen rest)) := by omega
        rw [if_pos henough]
        obtain ⟨c₀, hc₀⟩ := readByte_ok hk
        obtain ⟨n₀, hn₀⟩ := readByte_ok (show 0 < m0.data.length by omega)
        have hone : ∀ d : UInt32, m.len - k = d ↔ m.data.length = k.toNat + d.toNat := by
          intro d
          rw [← UInt32.toNat_inj, hrest]
          omega
        simp only [extractLong, hone]
        split
        · -- one byte in `m`, three in `m0`
          rename_i hd
          have hd : m.data.length = k.toNat + 1 := hd
          obtain ⟨n₁, hn₁⟩ := readByte_ok (show 1 < m0.data.length by omega)
          obtain ⟨n₂, hn₂⟩ := readByte_ok (show 2 < m0.data.length by omega)
          rw [show chainLen before + k.toNat + 1 = chainLen before + (m.data.length + 0) by omega,
            show chainLen before + k.toNat + 2 = chainLen before + (m.data.length + 1) by omega,
            show chainLen before + k.toNat + 3 = chainLen before + (m.data.length + 2) by omega,
            readByte_chain hk, readByte_chain_next (by omega), readByte_chain_next (by omega),
            readByte_chain_next (by omega)]
          simp only [hc₀, hn₀, hn₁, hn₂]
          rfl
        · rename_i hd₁
          have hd₁ : ¬ m.data.length = k.toNat + 1 := hd₁
          obtain ⟨c₁, hc₁⟩ := readByte_ok (show k.toNat + 1 < m.data.length by omega)
          split
          · -- two in each
            rename_i hd
            have hd : m.data.length = k.toNat + 2 := hd
            obtain ⟨n₁, hn₁⟩ := readByte_ok (show 1 < m0.data.length by omega)
            rw [Nat.add_assoc (chainLen before) k.toNat 1,
              show chainLen before + k.toNat + 2 = chainLen before + (m.data.length + 0) by omega,
              show chainLen before + k.toNat + 3 = chainLen before + (m.data.length + 1) by omega,
              readByte_chain hk, readByte_chain (by omega), readByte_chain_next (by omega),
              readByte_chain_next (by omega)]
            simp only [hc₀, hc₁, hn₀, hn₁]
            rfl
          · -- three in `m`, one in `m0`
            rename_i hd₂
            have hd₂ : ¬ m.data.length = k.toNat + 2 := hd₂
            obtain ⟨c₂, hc₂⟩ := readByte_ok (show k.toNat + 2 < m.data.length by omega)
            rw [Nat.add_assoc (chainLen before) k.toNat 1, Nat.add_assoc (chainLen before) k.toNat 2,
              show chainLen before + k.toNat + 3 = chainLen before + (m.data.length + 0) by omega,
              readByte_chain hk, readByte_chain (by omega), readByte_chain (by omega),
              readByte_chain_next (by omega)]
            simp only [hc₀, hc₁, hc₂, hn₀]
            rfl

theorem xwordAt_none {m0 : Mbuf} {rest : List Mbuf} (hk : k.toNat < m.data.length)
    (hwrap : k.toNat + 4 < 2 ^ 32)
    (hshort : m0.data.length + (m.data.length - k.toNat) < 4) :
    xwordAt m (m0 :: rest) k = .ok none := by
  have hadd : (k + 4).toNat = k.toNat + 4 := by
    rw [UInt32.toNat_add]
    exact Nat.mod_eq_of_lt hwrap
  have hfit : ¬ m.len ≥ k + 4 := by
    rw [ge_iff_le, UInt32.le_iff_toNat_le, hadd, len_toNat]
    omega
  have hle : k ≤ m.len := by
    rw [UInt32.le_iff_toNat_le, len_toNat]
    omega
  have hroom : m0.len + m.len - k < 4 := by
    rw [UInt32.lt_iff_toNat_lt, toNat_room m0 hle, Nat.mod_eq_of_lt (by omega)]
    exact hshort
  rw [xwordAt, if_neg hfit, if_pos hroom]
  rfl

end At

/-! ## Chain and flat packet -/

section Chain

variable {m : Mbuf} {next : List Mbuf} {hne : chainBytes (m :: next) ≠ []}
  {hlt : (chainBytes (m :: next)).length < 2 ^ 32}

theorem sameLoads_of_ok (hstraddle : StraddleOk 0 (m :: next)) (hreach : ReachOk (m :: next)) :
    SameLoads (.chain m next) (.buffer (chainBytes (m :: next)) hne hlt) := by
  have hlen := length_chainBytes (m :: next)
  intro size k
  cases hidx : mindex m next k with
  | none =>
    -- behind the last byte there is nothing to load on either side
    have hk := mindex_none hidx
    cases size with
    | w =>
      simp only [BpfSize.load, ldWord_chain, bpfMXword, hidx, ldWord_flat, hlen]
      rw [if_neg (by omega)]
      rfl
    | h =>
      simp only [BpfSize.load, ldHalf_chain, bpfMXhalf, hidx, ldHalf_flat, hlen]
      rw [if_neg (by omega)]
      rfl
    | b =>
      simp only [BpfSize.load, ldByte_chain, bpfMXbyte, hidx, ldByte_flat, hlen]
      rw [if_neg (by omega)]
      rfl
  | some found =>
    obtain ⟨m', next', k'⟩ := found
    obtain ⟨before, hms, hoff, hk'⟩ := mindex_split hidx
    have hat := straddleOk_iff.mp hstraddle before m' next' hms
    rw [Nat.zero_add] at hat
    have hlt' : chainLen (before ++ m' :: next') < 2 ^ 32 := by
      rw [← hms, ← hlen]
      exact hlt
    cases size with
    | w =>
      simp only [BpfSize.load, ldWord_chain, bpfMXword, hidx, ldWord_flat, hlen]
      rw [xwordAt_flat hat (reachOk_iff.mp hreach before m' next' hms) hk' hlt', hms, hoff]
    | h =>
      simp only [BpfSize.load, ldHalf_chain, bpfMXhalf, hidx, ldHalf_flat, hlen]
      rw [xhalfAt_flat hat hk' hlt', hms, hoff]
    | b =>
      simp only [BpfSize.load, ldByte_chain, bpfMXbyte, hidx, ldByte_flat, hlen]
      rw [hms, hoff, readByte_chain hk']
      rw [if_pos (by rw [chainLen_append, chainLen_cons]; omega)]
      cases readByte m'.data k'.toNat <;> rfl

/-- Three mbufs that share a word give the flat packet data and the chain none. -/
theorem reachOk_of_sameLoads (hstraddle : StraddleOk 0 (m :: next))
    (hsame : SameLoads (.chain m next) (.buffer (chainBytes (m :: next)) hne hlt)) :
    ReachOk (m :: next) := by
  have hlen := length_chainBytes (m :: next)
  rw [reachOk_iff]
  intro before m' next' hms
  have hat := straddleOk_iff.mp hstraddle before m' next' hms
  rw [Nat.zero_add] at hat
  cases next' with
  | nil => trivial
  | cons m0 rest =>
    intro hm'
    by_contra hshort
    have htotal : chainLen before + (m'.data.length + (m0.data.length + chainLen rest)) < 2 ^ 32 := by
      rw [← chainLen_cons m0, ← chainLen_cons m', ← chainLen_append, ← hms, ← hlen]
      exact hlt
    have hm0 := hat.2 hm' (by omega) m0 rfl
    -- the last bytes of `m'` that make a word together with what follows
    obtain ⟨d, hd, hd', hfit, hover⟩ : ∃ d, 1 ≤ d ∧ d ≤ m'.data.length ∧
        d + m0.data.length < 4 ∧ 4 ≤ d + m0.data.length + chainLen rest :=
      ⟨max 1 (4 - m0.data.length - chainLen rest), by omega, by omega, by omega, by omega⟩
    have hk' : (UInt32.ofNat (m'.data.length - d)).toNat = m'.data.length - d := by
      rw [UInt32.toNat_ofNat']
      omega
    have hk : (UInt32.ofNat (chainLen before + (m'.data.length - d))).toNat =
        chainLen before + (m'.data.length - d) := by
      rw [UInt32.toNat_ofNat']
      omega
    have hidx : mindex m next (.ofNat (chainLen before + (m'.data.length - d))) =
        some (m', m0 :: rest, .ofNat (m'.data.length - d)) :=
      mindex_of_split hms (by rw [hk, hk']) (by rw [hk']; omega)
    have hwrap := hat.no_wrap (by rw [hk']; omega) (by rw [hk']; omega)
    have hnone : xwordAt m' (m0 :: rest) (.ofNat (m'.data.length - d)) = .ok none :=
      xwordAt_none (by rw [hk']; omega) hwrap (by rw [hk']; omega)
    have hflat : chainLen before + (m'.data.length - d) + 4 ≤ chainLen (m :: next) := by
      rw [hms, chainLen_append, chainLen_cons, chainLen_cons]
      omega
    have hword := hsame .w (.ofNat (chainLen before + (m'.data.length - d)))
    simp only [BpfSize.load, ldWord_chain, bpfMXword, hidx, hnone, ldWord_flat, hlen, hk] at hword
    rw [if_pos hflat] at hword
    obtain ⟨v, hv⟩ := extractLong_ok (show chainLen before + (m'.data.length - d) + 4 ≤
      (chainBytes (m :: next)).length by rw [hlen]; exact hflat)
    rw [hv] at hword
    cases hword

/-- Every accepted program gives a chain the verdict of its bytes exactly if no mbuf with
    data is followed by an empty one, none has `2 ^ 32 - 3` bytes or more, and no four
    bytes in a row lie in more than two mbufs. -/
theorem sameVerdict_iff (maxbufsize : UInt32) (hmax : bpfMinbufsize ≤ maxbufsize)
    (m : Mbuf) (next : List Mbuf) (hne : chainBytes (m :: next) ≠ [])
    (hlt : (chainBytes (m :: next)).length < 2 ^ 32) :
    SameVerdict maxbufsize (.chain m next) (.buffer (chainBytes (m :: next)) hne hlt) ↔
      StraddleOk 0 (m :: next) ∧ ReachOk (m :: next) := by
  rw [sameVerdict_iff_sameLoads hmax loadsOk_buffer]
  constructor
  · intro hsame
    have hload : (Packet.chain m next).LoadsOk := by
      intro size k
      rw [hsame size k]
      exact loadsOk_buffer size k
    have hstraddle := straddleOk_of_loadsOk hload
    exact ⟨hstraddle, reachOk_of_sameLoads hstraddle hsame⟩
  · rintro ⟨hstraddle, hreach⟩
    exact sameLoads_of_ok hstraddle hreach

end Chain

/-- A packet of six bytes cut behind its third one. -/
theorem sameVerdict_iff_cut :
    bpfMinbufsize ≤ bpfMaxbufsize ∧
      SameVerdict bpfMaxbufsize
        (.chain ⟨[0x45, 0, 0], by decide⟩ [⟨[0x54, 1, 2], by decide⟩])
        (.buffer [0x45, 0, 0, 0x54, 1, 2] (by decide) (by decide)) :=
  ⟨by decide, (sameVerdict_iff bpfMaxbufsize (by decide) ⟨[0x45, 0, 0], by decide⟩
    [⟨[0x54, 1, 2], by decide⟩] (by decide) (by decide)).mpr (by decide)⟩

/-- `ld [0]; ret #1` accepts four bytes in a buffer and rejects them in three mbufs. -/
theorem verdict_differs_three_mbufs :
    bpfValidate bpfMaxbufsize
        [bpfStmt (bpfLd ||| bpfW ||| bpfAbs) 0, bpfStmt (bpfRet ||| bpfK) 1] = true ∧
      bpfFilter (some [bpfStmt (bpfLd ||| bpfW ||| bpfAbs) 0, bpfStmt (bpfRet ||| bpfK) 1])
        (.chain ⟨[0x45], by decide⟩ [⟨[0], by decide⟩, ⟨[0, 0x54], by decide⟩]) 4 = .ok (some 0) ∧
      bpfFilter (some [bpfStmt (bpfLd ||| bpfW ||| bpfAbs) 0, bpfStmt (bpfRet ||| bpfK) 1])
        (.buffer [0x45, 0, 0, 0x54] (by decide) (by decide)) 4 = .ok (some 1) ∧
      ¬ SameVerdict bpfMaxbufsize
        (.chain ⟨[0x45], by decide⟩ [⟨[0], by decide⟩, ⟨[0, 0x54], by decide⟩])
        (.buffer [0x45, 0, 0, 0x54] (by decide) (by decide)) := by
  have hvalid : bpfValidate bpfMaxbufsize
      [bpfStmt (bpfLd ||| bpfW ||| bpfAbs) 0, bpfStmt (bpfRet ||| bpfK) 1] = true := by decide
  have hchain : bpfFilter
      (some [bpfStmt (bpfLd ||| bpfW ||| bpfAbs) 0, bpfStmt (bpfRet ||| bpfK) 1])
      (.chain ⟨[0x45], by decide⟩ [⟨[0], by decide⟩, ⟨[0, 0x54], by decide⟩]) 4 = .ok (some 0) := by
    rfl
  have hflat : bpfFilter
      (some [bpfStmt (bpfLd ||| bpfW ||| bpfAbs) 0, bpfStmt (bpfRet ||| bpfK) 1])
      (.buffer [0x45, 0, 0, 0x54] (by decide) (by decide)) 4 = .ok (some 1) := by rfl
  refine ⟨hvalid, hchain, hflat, fun hsame => ?_⟩
  have heq := hsame _ hvalid 4
  rw [hchain, hflat] at heq
  exact absurd heq (by decide)

end OpenBsd.Net
