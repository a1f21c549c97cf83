/-
  OpenBsd.Net.BpfLoad

  Which loads of `bpf_filter` stay inside the packet.

  A buffer is safe for every offset.  In a chain `MINDEX` finds the mbuf of the
  first byte; what goes wrong behind it depends on the lengths alone and is
  `StraddleAt`.
-/

import OpenBsd.Net.BpfFilter

namespace OpenBsd.Net

variable {data : List UInt8} {i : Nat} {n : UInt32}

/-! ## Reading data -/

@[simp] theorem len_toNat (m : Mbuf) : m.len.toNat = m.data.length := by
  simpa [Mbuf.len] using Nat.mod_eq_of_lt m.length_lt

theorem readByte_ok (h : i < data.length) : ∃ v, readByte data i = .ok v := by
  simp [readByte, List.getElem?_eq_getElem h]

theorem readByte_error (h : data.length ≤ i) : readByte data i = .error .read := by
  simp [readByte, List.getElem?_eq_none h]

theorem extractShort_ok (h : i + 2 ≤ data.length) : ∃ v, extractShort data i = .ok v := by
  obtain ⟨b₀, h₀⟩ := readByte_ok (show i < data.length by omega)
  obtain ⟨b₁, h₁⟩ := readByte_ok (show i + 1 < data.length by omega)
  exact ⟨mkShort b₀ b₁, by simp only [extractShort, h₀, h₁]; rfl⟩

theorem extractLong_ok (h : i + 4 ≤ data.length) : ∃ v, extractLong data i = .ok v := by
  obtain ⟨b₀, h₀⟩ := readByte_ok (show i < data.length by omega)
  obtain ⟨b₁, h₁⟩ := readByte_ok (show i + 1 < data.length by omega)
  obtain ⟨b₂, h₂⟩ := readByte_ok (show i + 2 < data.length by omega)
  obtain ⟨b₃, h₃⟩ := readByte_ok (show i + 3 < data.length by omega)
  exact ⟨mkLong b₀ b₁ b₂ b₃, by simp only [extractLong, h₀, h₁, h₂, h₃]; rfl⟩

theorem readByte_cases (data : List UInt8) (i : Nat) :
    (∃ v, readByte data i = .ok v) ∨ readByte data i = .error .read := by
  by_cases h : i < data.length
  · exact .inl (readByte_ok h)
  · exact .inr (readByte_error (by omega))

theorem extractShort_error (h : data.length < i + 2) : extractShort data i = .error .read := by
  have hlast := readByte_error (show data.length ≤ i + 1 by omega)
  obtain ⟨v, hv⟩ | hv := readByte_cases data i <;> simp only [extractShort, hv, hlast] <;> rfl

theorem extractLong_error (h : data.length < i + 4) : extractLong data i = .error .read := by
  have hlast := readByte_error (show data.length ≤ i + 3 by omega)
  obtain ⟨v₀, h₀⟩ | h₀ := readByte_cases data i
  · obtain ⟨v₁, h₁⟩ | h₁ := readByte_cases data (i + 1)
    · obtain ⟨v₂, h₂⟩ | h₂ := readByte_cases data (i + 2)
      · simp only [extractLong, h₀, h₁, h₂, hlast]
        rfl
      · simp only [extractLong, h₀, h₁, h₂]
        rfl
    · simp only [extractLong, h₀, h₁]
      rfl
  · simp only [extractLong, h₀]
    rfl

/-! ## `MINDEX` -/

/-- The bytes of a chain, as many as its mbufs say. -/
def chainLen (ms : List Mbuf) : Nat := (ms.map (·.data.length)).sum

@[simp] theorem chainLen_nil : chainLen [] = 0 := rfl

@[simp] theorem chainLen_cons (m : Mbuf) (ms : List Mbuf) :
    chainLen (m :: ms) = m.data.length + chainLen ms := by
  simp [chainLen]

variable {next' : List Mbuf} {m' : Mbuf} {k' : UInt32}

theorem mindex_split {m : Mbuf} {next : List Mbuf} {k : UInt32} (h : mindex m next k = some (m', next', k')) :
    ∃ before, m :: next = before ++ m' :: next' ∧
      k.toNat = chainLen before + k'.toNat ∧ k'.toNat < m'.data.length := by
  induction next generalizing m k with
  | nil =>
    -- the last mbuf: found or not at all
    rw [mindex] at h
    split at h
    · cases h
    · rename_i hk
      cases h
      rw [ge_iff_le, UInt32.le_iff_toNat_le, len_toNat] at hk
      exact ⟨[], rfl, by simp, by omega⟩
  | cons m₁ next ih =>
    rw [mindex] at h
    split at h
    · rename_i hk
      -- this mbuf is passed and its bytes are counted
      obtain ⟨before, hms, hoff, hlt⟩ := ih h
      refine ⟨m :: before, by rw [hms]; rfl, ?_, hlt⟩
      rw [UInt32.toNat_sub_of_le _ _ hk, len_toNat] at hoff
      rw [ge_iff_le, UInt32.le_iff_toNat_le, len_toNat] at hk
      rw [chainLen_cons]
      omega
    · rename_i hk
      cases h
      rw [ge_iff_le, UInt32.le_iff_toNat_le, len_toNat] at hk
      exact ⟨[], rfl, by simp, by omega⟩

theorem mindex_none {m : Mbuf} {next : List Mbuf} {k : UInt32} (h : mindex m next k = none) :
    chainLen (m :: next) ≤ k.toNat := by
  induction next generalizing m k with
  | nil =>
    rw [mindex] at h
    split at h
    · rename_i hk
      rw [ge_iff_le, UInt32.le_iff_toNat_le, len_toNat] at hk
      simpa using hk
    · cases h
  | cons m₁ next ih =>
    rw [mindex] at h
    split at h
    · rename_i hk
      have hrest := ih h
      rw [UInt32.toNat_sub_of_le _ _ hk, len_toNat] at hrest
      rw [ge_iff_le, UInt32.le_iff_toNat_le, len_toNat] at hk
      rw [chainLen_cons]
      omega
    · cases h

theorem mindex_of_split {m : Mbuf} {next : List Mbuf} {before : List Mbuf} {k : UInt32} (hms : m :: next = before ++ m' :: next')
    (hoff : k.toNat = chainLen before + k'.toNat) (hlt : k'.toNat < m'.data.length) :
    mindex m next k = some (m', next', k') := by
  induction before generalizing m next k with
  | nil =>
    obtain ⟨rfl, rfl⟩ := List.cons.inj hms
    have hkk : k = k' := UInt32.toNat_inj.mp (by simpa using hoff)
    subst hkk
    have hk : ¬ k ≥ m.len := by
      rw [ge_iff_le, UInt32.le_iff_toNat_le, len_toNat]
      omega
    rw [mindex.eq_def, if_neg hk]
  | cons m₀ before ih =>
    obtain ⟨rfl, hnext⟩ := List.cons.inj hms
    rw [chainLen_cons] at hoff
    have hk : k ≥ m.len := by
      rw [ge_iff_le, UInt32.le_iff_toNat_le, len_toNat]
      omega
    -- the bytes of the first mbuf are taken off
    have hsub : (k - m.len).toNat = chainLen before + k'.toNat := by
      rw [UInt32.toNat_sub_of_le _ _ hk, len_toNat]
      omega
    cases next with
    | nil => exact absurd hnext.symm (by simp)
    | cons m₁ next =>
      rw [mindex, if_pos hk]
      exact ih hnext hsub

/-! ## Loads across two mbufs -/

/-- What the loads that start in `m`, `off` bytes into the chain, rely on: no offset in
    `m` is so large that `k + 4` wraps, and the last byte of `m` is not followed by an
    empty mbuf. -/
def StraddleAt (off : Nat) (m : Mbuf) (next : List Mbuf) : Prop :=
  (2 ^ 32 - 3 ≤ m.data.length → 4 ≤ off) ∧
  (m.data.length ≠ 0 → off + m.data.length ≤ 2 ^ 32 →
    ∀ m0 ∈ next.head?, m0.data.length ≠ 0)

instance (off : Nat) (m : Mbuf) (next : List Mbuf) : Decidable (StraddleAt off m next) :=
  inferInstanceAs (Decidable (_ ∧ _))

/-- Every mbuf of the chain from `off` on. -/
def StraddleOk : Nat → List Mbuf → Prop
  | _, [] => True
  | off, m :: next => StraddleAt off m next ∧ StraddleOk (off + m.data.length) next

instance StraddleOk.decide : (off : Nat) → (ms : List Mbuf) → Decidable (StraddleOk off ms)
  | _, [] => isTrue trivial
  | off, m :: next =>
    have := StraddleOk.decide (off + m.data.length) next
    inferInstanceAs (Decidable (_ ∧ _))

theorem straddleOk_iff {off : Nat} {ms : List Mbuf} :
    StraddleOk off ms ↔
      ∀ before m next, ms = before ++ m :: next → StraddleAt (off + chainLen before) m next := by
  induction ms generalizing off with
  | nil => simp [StraddleOk]
  | cons m₀ ms ih =>
    rw [StraddleOk, ih]
    constructor
    · rintro ⟨hat, hrest⟩ before m next hms
      -- the mbuf in question is the first one or a later one
      cases before with
      | nil =>
        obtain ⟨rfl, rfl⟩ := List.cons.inj hms
        exact hat
      | cons m₁ before =>
        obtain ⟨rfl, htail⟩ := List.cons.inj hms
        rw [chainLen_cons, ← Nat.add_assoc]
        exact hrest before m next htail
    · intro h
      refine ⟨h [] m₀ ms rfl, fun before m next hms => ?_⟩
      have hat := h (m₀ :: before) m next (by rw [hms]; rfl)
      rwa [chainLen_cons, ← Nat.add_assoc] at hat

section At

variable {off : Nat} {m : Mbuf} {next : List Mbuf} {k : UInt32}

theorem StraddleAt.no_wrap (hat : StraddleAt off m next) (hk : k.toNat < m.data.length)
    (hoff : off + k.toNat < 2 ^ 32) : k.toNat + 4 < 2 ^ 32 := by
  have hm := m.length_lt
  have hlarge := hat.1
  omega

/-- The tests of the loads do not wrap. -/
theorem StraddleAt.fits_iff (hat : StraddleAt off m next) (hk : k.toNat < m.data.length)
    (hoff : off + k.toNat < 2 ^ 32) : (m.len ≥ k + 2 ↔ k.toNat + 2 ≤ m.data.length) ∧
      (m.len ≥ k + 4 ↔ k.toNat + 4 ≤ m.data.length) := by
  have hwrap := hat.no_wrap hk hoff
  have hadd : ∀ n : UInt32, n.toNat ≤ 4 → (m.len ≥ k + n ↔ k.toNat + n.toNat ≤ m.data.length) := by
    intro n hn
    rw [ge_iff_le, UInt32.le_iff_toNat_le, UInt32.toNat_add, Nat.mod_eq_of_lt (by omega), len_toNat]
  exact ⟨hadd 2 (by decide), hadd 4 (by decide)⟩

theorem xhalfAt_ok (hat : StraddleAt off m next) (hk : k.toNat < m.data.length)
    (hoff : off + k.toNat < 2 ^ 32) : ∃ r, xhalfAt m next k = .ok r := by
  have hfits := (hat.fits_iff hk hoff).1
  unfold xhalfAt
  split
  · rename_i hlen
    rw [hfits] at hlen
    obtain ⟨v, hv⟩ := extractShort_ok hlen
    exact ⟨some v, by rw [hv]; rfl⟩
  · rename_i hlen
    rw [hfits] at hlen
    cases next with
    | nil => exact ⟨none, rfl⟩
    | cons m0 next =>
      -- `k` is the last byte of `m`, so the mbuf behind it has data
      have hm0 := hat.2 (by omega) (by omega) m0 rfl
      obtain ⟨c₀, hc₀⟩ := readByte_ok hk
      obtain ⟨n₀, hn₀⟩ := readByte_ok (Nat.pos_of_ne_zero hm0)
      exact ⟨some (mkShort c₀ n₀), by simp only [hc₀, hn₀]; rfl⟩

theorem toNat_room (m0 : Mbuf) (hle : k ≤ m.len) :
    (m0.len + m.len - k).toNat =
      (m0.data.length + (m.data.length - k.toNat)) % 2 ^ 32 := by
  rw [show m0.len + m.len - k = m0.len + (m.len - k) by
    rw [UInt32.sub_eq_add_neg, UInt32.add_assoc, ← UInt32.sub_eq_add_neg]]
  rw [UInt32.toNat_add, UInt32.toNat_sub_of_le _ _ hle, len_toNat, len_toNat]

theorem straddle_room {m0 : Mbuf} (hk : k.toNat < m.data.length)
    (hroom : ¬ m0.len + m.len - k < 4) :
    4 ≤ m0.data.length + (m.data.length - k.toNat) := by
  have hle : k ≤ m.len := by
    rw [UInt32.le_iff_toNat_le, len_toNat]
    omega
  rw [UInt32.lt_iff_toNat_lt, toNat_room m0 hle, show (4 : UInt32).toNat = 4 from rfl] at hroom
  have hmod := Nat.mod_le (m0.data.length + (m.data.length - k.toNat)) (2 ^ 32)
  omega

theorem xwordAt_ok (hat : StraddleAt off m next) (hk : k.toNat < m.data.length)
    (hoff : off + k.toNat < 2 ^ 32) : ∃ r, xwordAt m next k = .ok r := by
  have hfits := (hat.fits_iff hk hoff).2
  unfold xwordAt
  split
  · rename_i hlen
    rw [hfits] at hlen
    obtain ⟨v, hv⟩ := extractLong_ok hlen
    exact ⟨some v, by rw [hv]; rfl⟩
  · rename_i hlen
    rw [hfits] at hlen
    cases next with
    | nil => exact ⟨none, rfl⟩
    | cons m0 next =>
      have hrest : (m.len - k).toNat = m.data.length - k.toNat := by
        rw [UInt32.toNat_sub_of_le _ _ (by rw [UInt32.le_iff_toNat_le, len_toNat]; omega),
          len_toNat]
      dsimp only
      split
      · exact ⟨none, rfl⟩
      · rename_i hroom
        have h4 := straddle_room hk hroom
        obtain ⟨c₀, hc₀⟩ := readByte_ok hk
        obtain ⟨n₀, hn₀⟩ := readByte_ok (show 0 < m0.data.length by omega)
        split
        · -- one byte in `m`, three in `m0`
          rename_i hone
          rw [hone] at hrest
          have hrest : m.data.length - k.toNat = 1 := hrest.symm
          obtain ⟨n₁, hn₁⟩ := readByte_ok (show 1 < m0.data.length by omega)
          obtain ⟨n₂, hn₂⟩ := readByte_ok (show 2 < m0.data.length by omega)
          exact ⟨some (mkLong c₀ n₀ n₁ n₂), by simp only [hc₀, hn₀, hn₁, hn₂]; rfl⟩
        · rename_i hone
          have hone : m.data.length - k.toNat ≠ 1 := fun h =>
            hone (UInt32.toNat_inj.mp (hrest.trans h))
          obtain ⟨c₁, hc₁⟩ := readByte_ok (show k.toNat + 1 < m.data.length by omega)
          split
          · -- two in each
            rename_i htwo
            rw [htwo] at hrest
            have hrest : m.data.length - k.toNat = 2 := hrest.symm
            obtain ⟨n₁, hn₁⟩ := readByte_ok (show 1 < m0.data.length by omega)
            exact ⟨some (mkLong c₀ c₁ n₀ n₁), by simp only [hc₀, hc₁, hn₀, hn₁]; rfl⟩
          · -- three in `m`, one in `m0`
            rename_i htwo
            have htwo : m.data.length - k.toNat ≠ 2 := fun h =>
              htwo (UInt32.toNat_inj.mp (hrest.trans h))
            obtain ⟨c₂, hc₂⟩ := readByte_ok (show k.toNat + 2 < m.data.length by omega)
            exact ⟨some (mkLong c₀ c₁ c₂ n₀), by simp only [hc₀, hc₁, hc₂, hn₀]; rfl⟩

theorem xhalfAt_error {m0 : Mbuf} (hk : k.toNat + 1 = m.data.length)
    (hm0 : m0.data.length = 0) : xhalfAt m (m0 :: next) k = .error .read := by
  unfold xhalfAt
  split
  · rw [extractShort_error (by omega)]
    rfl
  · obtain ⟨c₀, hc₀⟩ := readByte_ok (show k.toNat < m.data.length by omega)
    simp only [hc₀, readByte_error (show m0.data.length ≤ 0 by omega)]
    rfl

theorem xwordAt_error (hk : k.toNat + 4 = 2 ^ 32) : xwordAt m next k = .error .read := by
  have hm := m.length_lt
  have hzero : k + 4 = 0 := by
    apply UInt32.toNat_inj.mp
    rw [UInt32.toNat_add, show k.toNat + (4 : UInt32).toNat = 2 ^ 32 from hk]
    rfl
  have hle : m.len ≥ k + 4 := by
    rw [hzero]
    exact UInt32.zero_le
  rw [xwordAt.eq_def, if_pos hle, extractLong_error (by omega)]
  rfl

end At

/-! ## Loads from a packet -/

/-- Every load of the filter machine ends, with or without data. -/
def Packet.LoadsOk (pkt : Packet) : Prop :=
  ∀ (size : BpfSize) (k : UInt32), ∃ r, size.load pkt k = .ok r

/-- A buffer, or a chain that is safe to straddle. -/
def Packet.StraddleOk : Packet → Prop
  | .buffer _ _ _ => True
  | .chain m next => Net.StraddleOk 0 (m :: next)

instance (pkt : Packet) : Decidable pkt.StraddleOk :=
  match pkt with
  | .buffer _ _ _ => isTrue trivial
  | .chain m next => inferInstanceAs (Decidable (Net.StraddleOk 0 (m :: next)))

section Buffer

variable {p : List UInt8} {hne : p ≠ []} {hlt : p.length < 2 ^ 32} {k : UInt32}

theorem buflen_toNat : (Packet.buffer p hne hlt).buflen.toNat = p.length := by
  simpa [Packet.buflen] using Nat.mod_eq_of_lt hlt

theorem room_of_test
    (h : ¬ (k > (Packet.buffer p hne hlt).buflen || n > (Packet.buffer p hne hlt).buflen - k) = true) :
    k.toNat + n.toNat ≤ p.length := by
  simp only [gt_iff_lt, Bool.or_eq_true, decide_eq_true_eq, not_or, UInt32.not_lt] at h
  obtain ⟨hk, hn⟩ := h
  rw [UInt32.le_iff_toNat_le, UInt32.toNat_sub_of_le _ _ hk, buflen_toNat] at hn
  rw [UInt32.le_iff_toNat_le, buflen_toNat] at hk
  omega

theorem not_room_of_test
    (h : (k > (Packet.buffer p hne hlt).buflen || n > (Packet.buffer p hne hlt).buflen - k) = true) :
    ¬ k.toNat + n.toNat ≤ p.length := by
  simp only [gt_iff_lt, Bool.or_eq_true, decide_eq_true_eq] at h
  by_cases hk : k ≤ (Packet.buffer p hne hlt).buflen
  · have hn := h.resolve_left (UInt32.not_lt.mpr hk)
    rw [UInt32.lt_iff_toNat_lt, UInt32.toNat_sub_of_le _ _ hk, buflen_toNat] at hn
    omega
  · rw [UInt32.le_iff_toNat_le, buflen_toNat] at hk
    omega

theorem loadsOk_buffer : (Packet.buffer p hne hlt).LoadsOk := by
  intro size k
  cases size with
  | w =>
    simp only [BpfSize.load, ldWord, loadWith]
    split
    · exact ⟨none, rfl⟩
    · rename_i htest
      obtain ⟨v, hv⟩ := extractLong_ok (room_of_test htest)
      exact ⟨some v, by rw [hv]; rfl⟩
  | h =>
    simp only [BpfSize.load, ldHalf, loadWith]
    split
    · exact ⟨none, rfl⟩
    · rename_i htest
      obtain ⟨v, hv⟩ := extractShort_ok (room_of_test htest)
      exact ⟨some v, by rw [hv]; rfl⟩
  | b =>
    simp only [BpfSize.load, ldByte, loadWith]
    split
    · exact ⟨none, rfl⟩
    · rename_i htest
      rw [decide_eq_true_eq, ge_iff_le, UInt32.le_iff_toNat_le, buflen_toNat] at htest
      obtain ⟨v, hv⟩ := readByte_ok (Nat.lt_of_not_le htest)
      exact ⟨some v, by rw [hv]; rfl⟩

end Buffer

section Chain

variable {m : Mbuf} {next : List Mbuf} {k : UInt32}

theorem test_of_empty (k : UInt32) (hn : 0 < n) : (k > 0 || n > (0 : UInt32) - k) = true := by
  by_cases hk : k = 0
  · simp [hk, hn]
  · simp [UInt32.pos_iff_ne_zero, hk]

theorem ldWord_chain : ldWord (.chain m next) k = bpfMXword m next k :=
  if_pos (test_of_empty k (by decide))

theorem ldHalf_chain : ldHalf (.chain m next) k = bpfMXhalf m next k :=
  if_pos (test_of_empty k (by decide))

theorem ldByte_chain : ldByte (.chain m next) k = bpfMXbyte m next k := by
  simp [ldByte, loadWith, Packet.buflen]

theorem loadsOk_chain (hok : StraddleOk 0 (m :: next)) : (Packet.chain m next).LoadsOk := by
  intro size k
  have hk := k.toNat_lt
  cases hidx : mindex m next k with
  -- past the end of the chain every load returns 0
  | none => cases size with
    | w => exact ⟨none, by rw [BpfSize.load, ldWord_chain, bpfMXword, hidx]; rfl⟩
    | h => exact ⟨none, by rw [BpfSize.load, ldHalf_chain, bpfMXhalf, hidx]; rfl⟩
    | b => exact ⟨none, by rw [BpfSize.load, ldByte_chain, bpfMXbyte, hidx]; rfl⟩
  | some found =>
    obtain ⟨m', next', k'⟩ := found
    obtain ⟨before, hms, hoff, hlt⟩ := mindex_split hidx
    -- the condition at the mbuf that was found
    have hat := straddleOk_iff.mp hok before m' next' hms
    rw [Nat.zero_add] at hat
    cases size with
    | w =>
      simp only [BpfSize.load, ldWord_chain, bpfMXword, hidx]
      exact xwordAt_ok hat hlt (by omega)
    | h =>
      simp only [BpfSize.load, ldHalf_chain, bpfMXhalf, hidx]
      exact xhalfAt_ok hat hlt (by omega)
    | b =>
      simp only [BpfSize.load, ldByte_chain, bpfMXbyte, hidx]
      obtain ⟨v, hv⟩ := readByte_ok hlt
      exact ⟨some v, by rw [hv]; rfl⟩

/-- A chain all of whose loads end is safe to straddle: at every other one an offset is
    found that reads outside it. -/
theorem straddleOk_of_loadsOk (hload : (Packet.chain m next).LoadsOk) :
    StraddleOk 0 (m :: next) := by
  rw [straddleOk_iff]
  intro before m' next' hms
  rw [Nat.zero_add]
  have hm' := m'.length_lt
  constructor
  · intro hlarge
    by_contra hoff
    -- the word at offset 2^32 - 4 of this mbuf
    have hword := hload .w (.ofNat (chainLen before + (2 ^ 32 - 4)))
    have hidx : mindex m next (.ofNat (chainLen before + (2 ^ 32 - 4))) =
        some (m', next', .ofNat (2 ^ 32 - 4)) := by
      refine mindex_of_split hms ?_ ?_
      · rw [UInt32.toNat_ofNat', UInt32.toNat_ofNat']
        omega
      · rw [UInt32.toNat_ofNat']
        omega
    have herr : xwordAt m' next' (.ofNat (2 ^ 32 - 4)) = .error .read := xwordAt_error rfl
    simp only [BpfSize.load, ldWord_chain, bpfMXword, hidx, herr, reduceCtorEq,
      exists_false] at hword
  · intro hne hoff m0 hm0 hzero
    obtain ⟨rest, rfl⟩ : ∃ rest, next' = m0 :: rest := by
      cases next' with
      | nil => cases hm0
      | cons m₁ rest =>
        cases hm0
        exact ⟨rest, rfl⟩
    -- the half word at the last byte of this mbuf
    have hlast : (UInt32.ofNat (m'.data.length - 1)).toNat = m'.data.length - 1 := by
      rw [UInt32.toNat_ofNat']
      omega
    have hhalf := hload .h (.ofNat (chainLen before + (m'.data.length - 1)))
    have hidx : mindex m next (.ofNat (chainLen before + (m'.data.length - 1))) =
        some (m', m0 :: rest, .ofNat (m'.data.length - 1)) := by
      refine mindex_of_split hms ?_ ?_
      · rw [hlast, UInt32.toNat_ofNat']
        omega
      · rw [hlast]
        omega
    have herr : xhalfAt m' (m0 :: rest) (.ofNat (m'.data.length - 1)) = .error .read :=
      xhalfAt_error (by rw [hlast]; omega) hzero
    simp only [BpfSize.load, ldHalf_chain, bpfMXhalf, hidx, herr, reduceCtorEq,
      exists_false] at hhalf

end Chain

theorem loadsOk_iff (pkt : Packet) : pkt.LoadsOk ↔ pkt.StraddleOk := by
  cases pkt with
  | buffer p hne hlt => exact ⟨fun _ => trivial, fun _ => loadsOk_buffer⟩
  | chain m next => exact ⟨straddleOk_of_loadsOk, loadsOk_chain⟩

end OpenBsd.Net
