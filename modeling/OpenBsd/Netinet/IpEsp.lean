/-
  OpenBsd.Netinet.IpEsp

  The anti-replay window of `sys/netinet/ip_esp.c`: `checkreplaywindow` on the counter
  `tdb_rpl` and the bits `tdb_seen` of a TDB.

  `tdb_seen` is a ring of 67 words; a sequence number has its word by its remainder
  modulo 2132 and its bit by its remainder modulo 32.
-/

import OpenBsd.Lib.Run
import Mathlib.Data.List.Nodup
import Mathlib.Tactic.Ring

namespace OpenBsd.Netinet

open OpenBsd.Lib

/-! ## The window -/

def tdbReplaywaste : Nat := 32

def tdbReplaymax : Nat := 2100 + tdbReplaywaste

def seenSize : Nat := (tdbReplaymax + 31) / 32

/-- What `checkreplaywindow` uses of a TDB: the flag `TDBF_ESN`, the counter and the
    bits. -/
structure Tdb where
  esn : Bool
  rpl : BitVec 64
  seen : Nat → BitVec 32

/-- A new TDB: `tdb_rpl` is `AH_HMAC_INITIAL_RPL`. -/
def freshTdb (esn : Bool) : Tdb where
  esn := esn
  rpl := 1
  seen := fun _ => 0

/-- `(seq % TDB_REPLAYMAX) / 32`. -/
def seenIdx (seq : BitVec 32) : Nat := seq.toNat % tdbReplaymax / 32

/-- `1 << (31 - (seq & 31))`. -/
def packetBit (seq : BitVec 32) : BitVec 32 := 1#32 <<< (31 - seq.toNat % 32)

/-- The low half of the counter. -/
def Tdb.tl (tdb : Tdb) : BitVec 32 := tdb.rpl.setWidth 32

/-- The high half of the counter. -/
def Tdb.th (tdb : Tdb) : BitVec 32 := (tdb.rpl >>> 32).setWidth 32

/-- `tdb_seen[idx] & packet`. -/
def Tdb.marked (tdb : Tdb) (seq : BitVec 32) : Bool :=
  (tdb.seen (seenIdx seq) &&& packetBit seq) ≠ 0

/-- `tdb_seen[idx] |= packet`. -/
def Tdb.mark (tdb : Tdb) (seq : BitVec 32) : Tdb :=
  { tdb with
    seen := Function.update tdb.seen (seenIdx seq) (tdb.seen (seenIdx seq) ||| packetBit seq) }

/-- `while (i != idx) { i = (i + 1) % SEEN_SIZE; tdb_seen[i] = 0; }`. -/
def clearWords : Nat → (Nat → BitVec 32) → Nat → Nat → Nat → BitVec 32
  | 0, seen, _, _ => seen
  | fuel + 1, seen, i, idx =>
    if i = idx then seen
    else clearWords fuel (Function.update seen ((i + 1) % seenSize) 0) ((i + 1) % seenSize) idx

/-- The window moves on to `seq`. -/
def Tdb.slide (tdb : Tdb) (window seq seqh : BitVec 32) : Tdb :=
  let seen :=
    if window < seq - tdb.tl then fun _ => 0
    else clearWords seenSize tdb.seen (seenIdx tdb.tl) (seenIdx seq)
  Tdb.mark { tdb with rpl := seqh ++ seq, seen := seen } seq

/-- The size of the window: it grows with the counter up to 2100. -/
def Tdb.window (tdb : Tdb) : BitVec 32 :=
  if tdb.th = 0 ∧ tdb.tl < 2100 then tdb.tl else 2100

/-- The return value, `*seqh` and the TDB after a call. -/
structure ReplayReply where
  ret : Nat
  seqh : BitVec 32
  tdb : Tdb

def checkreplaywindow (tdb : Tdb) (seq seqh : BitVec 32) (commit : Bool) : ReplayReply :=
  let tl := tdb.tl
  let th := tdb.th
  let window := tdb.window
  let wl := tl - window + 1
  if (tdb.esn = true ∧ seq = 0 ∧ tl ≤ 1 ∧ th = 0) ∨ (tdb.esn = false ∧ seq = 0) then
    ⟨1, seqh, tdb⟩
  else if (window - 1 ≤ tl ∧ wl ≤ seq) ∨ (tl < window - 1 ∧ seq < wl) then
    if tl < seq then ⟨0, th, if commit then tdb.slide window seq th else tdb⟩
    else if window ≤ tl - seq then ⟨2, th, tdb⟩
    else if tdb.marked seq then ⟨3, th, tdb⟩
    else ⟨0, th, if commit then tdb.mark seq else tdb⟩
  else if tdb.esn = false then ⟨2, seqh, tdb⟩
  else if tl < window - 1 ∧ wl ≤ seq then
    if tdb.marked seq then ⟨3, seqh, tdb⟩
    else ⟨0, th - 1, if commit then tdb.mark seq else tdb⟩
  else if th + 1 = 0 then ⟨1, th + 1, tdb⟩
  else ⟨0, th + 1, if commit then tdb.slide window seq (th + 1) else tdb⟩

/-! ## Runs -/

/-- A TDB and the numbers `(*seqh, seq)` it has accepted. -/
structure ReplayState where
  tdb : Tdb
  accepted : List (BitVec 32 × BitVec 32)

/-- A call with `commit` set, on a number and the old value of `*seqh`. -/
def replayStep (s : ReplayState) (e : BitVec 32 × BitVec 32) : Option ReplayState :=
  let r := checkreplaywindow s.tdb e.1 e.2 true
  some { tdb := r.tdb, accepted := if r.ret = 0 then (r.seqh, e.1) :: s.accepted else s.accepted }

/-- The state of a new TDB. -/
def replayInit (esn : Bool) : ReplayState := ⟨freshTdb esn, []⟩

/-- The word `w` is cleared on the way from the word `i` to the word `idx`. -/
def Passes (i idx w : Nat) : Prop :=
  ∃ j, 1 ≤ j ∧ j ≤ (idx + seenSize - i) % seenSize ∧ w = (i + j) % seenSize

/-- While the window is still short, a jump of more than its size clears all of
    `tdb_seen`; no number less than 2100 behind may be marked then. -/
def ShortJumpOk (tdb : Tdb) (seq : BitVec 32) : Prop :=
  tdb.th = 0 → tdb.tl < 2100 → tdb.tl < seq → tdb.tl < seq - tdb.tl →
    ∀ n : BitVec 32, 1 ≤ n → n ≤ tdb.tl → seq - n < 2100 → tdb.marked n = false

/-- With 64-bit numbers, the words cleared when the window moves on to `seq` hold no mark
    of a number of the subspace before, less than 2100 behind `seq`. -/
def WrapOk (tdb : Tdb) (seq : BitVec 32) : Prop :=
  tdb.esn = true → (seq - tdb.tl) ≤ 2100 →
    ∀ n : BitVec 32, seq.toNat + 2 ^ 32 - n.toNat < 2100 →
      (n ≤ tdb.tl ∨ (tdb.tl < seq ∧ tdb.th ≠ 0)) → tdb.marked n = true →
      ¬Passes (seenIdx tdb.tl) (seenIdx seq) (seenIdx n)

/-- The condition on a call. -/
def KeepsMarks (s : ReplayState) (e : BitVec 32 × BitVec 32) : Prop :=
  ShortJumpOk s.tdb e.1 ∧ WrapOk s.tdb e.1

/-! ## Numbers and bits -/

/-- The 64-bit number with these halves. -/
def fullSeq (p : BitVec 32 × BitVec 32) : Nat := p.1.toNat * 2 ^ 32 + p.2.toNat

theorem fullSeq_injective : Function.Injective fullSeq := by
  rintro ⟨a, b⟩ ⟨c, d⟩ h
  have hb := b.isLt
  have hd := d.isLt
  simp only [fullSeq] at h
  have hac : a = c := BitVec.eq_of_toNat_eq (by omega)
  have hbd : b = d := BitVec.eq_of_toNat_eq (by omega)
  rw [hac, hbd]

theorem append_toNat (seqh seq : BitVec 32) : (seqh ++ seq : BitVec 64).toNat = fullSeq (seqh, seq) := by
  rw [BitVec.toNat_append, Nat.shiftLeft_eq, ← Nat.shiftLeft_eq,
    ← Nat.shiftLeft_add_eq_or_of_lt seq.isLt, Nat.shiftLeft_eq, fullSeq]

theorem tl_toNat (tdb : Tdb) : tdb.tl.toNat = tdb.rpl.toNat % 2 ^ 32 := by
  simp [Tdb.tl]

theorem th_toNat (tdb : Tdb) : tdb.th.toNat = tdb.rpl.toNat / 2 ^ 32 := by
  have hlt := tdb.rpl.isLt
  simp only [Tdb.th, BitVec.toNat_setWidth, BitVec.toNat_ushiftRight, Nat.shiftRight_eq_div_pow]
  omega

theorem rpl_toNat (tdb : Tdb) : tdb.rpl.toNat = fullSeq (tdb.th, tdb.tl) := by
  rw [fullSeq, tl_toNat, th_toNat]
  omega

theorem marked_iff (tdb : Tdb) (seq : BitVec 32) :
    tdb.marked seq = true ↔ (tdb.seen (seenIdx seq)).getLsbD (31 - seq.toNat % 32) = true := by
  have hbit : packetBit seq = BitVec.twoPow 32 (31 - seq.toNat % 32) := by
    rw [packetBit, BitVec.twoPow]
  have hne : BitVec.twoPow 32 (31 - seq.toNat % 32) ≠ 0 := by
    intro h
    have hget := congrArg (fun w => w.getLsbD (31 - seq.toNat % 32)) h
    have hlt : 31 - seq.toNat % 32 < 32 := by omega
    simp [hlt] at hget
  rw [Tdb.marked, hbit, BitVec.and_twoPow]
  cases (tdb.seen (seenIdx seq)).getLsbD (31 - seq.toNat % 32)
  · simp
  · simpa using hne

theorem marked_mark_self (tdb : Tdb) (seq : BitVec 32) : (tdb.mark seq).marked seq = true := by
  have hlt : 31 - seq.toNat % 32 < 32 := by omega
  rw [marked_iff]
  simp only [Tdb.mark, Function.update_self, BitVec.getLsbD_or, packetBit]
  simp [hlt]

theorem marked_mark (tdb : Tdb) (seq : BitVec 32) {n : BitVec 32} (h : tdb.marked n = true) :
    (tdb.mark seq).marked n = true := by
  rw [marked_iff] at h ⊢
  simp only [Tdb.mark]
  by_cases hidx : seenIdx n = seenIdx seq
  · simp only [hidx, Function.update_self] at h ⊢
    rw [BitVec.getLsbD_or, h, Bool.true_or]
  · rwa [Function.update_of_ne hidx]

/-! ## Moving the window -/

theorem seenIdx_lt (seq : BitVec 32) : seenIdx seq < seenSize := by
  simp only [seenIdx, seenSize, tdbReplaymax, tdbReplaywaste]
  omega

theorem clearWords_of_not_passes {fuel i idx w : Nat} {seen : Nat → BitVec 32}
    (hi : i < seenSize) (hidx : idx < seenSize) (hw : ¬Passes i idx w) :
    clearWords fuel seen i idx w = seen w := by
  induction fuel generalizing i seen with
  | zero => rfl
  | succ fuel ih =>
    rw [clearWords]
    split
    · rfl
    · next hne =>
      have hsize : seenSize = 67 := rfl
      have hstep : (idx + seenSize - i) % seenSize =
          (idx + seenSize - (i + 1) % seenSize) % seenSize + 1 := by
        rw [hsize] at hi hidx ⊢
        omega
      have hfirst : w ≠ (i + 1) % seenSize := by
        rintro rfl
        exact hw ⟨1, le_rfl, by omega, rfl⟩
      rw [ih (Nat.mod_lt _ (by decide)), Function.update_of_ne hfirst]
      rintro ⟨j, hj, hjle, hwj⟩
      refine hw ⟨j + 1, by omega, by omega, ?_⟩
      rw [hwj, hsize]
      omega

theorem not_passes_of_le {x y z : Nat} (hxy : x ≤ y) (hyz : y < z) (hxz : z - x < 2100) :
    ¬Passes (y % tdbReplaymax / 32) (z % tdbReplaymax / 32) (x % tdbReplaymax / 32) := by
  rintro ⟨j, hj, hjle, hw⟩
  -- the number of words from one to the other, over all rounds of the ring
  have hx := Nat.div_add_mod x 2132
  have hy := Nat.div_add_mod y 2132
  have hz := Nat.div_add_mod z 2132
  have hround : z / 2132 = x / 2132 ∨ z / 2132 = x / 2132 + 1 := by omega
  have hbetween : y / 2132 = x / 2132 ∨ y / 2132 = z / 2132 := by omega
  simp only [seenSize, tdbReplaymax, tdbReplaywaste, Nat.reduceAdd, Nat.reduceDiv] at hjle hw
  rcases hround with hround | hround <;> rcases hbetween with hbetween | hbetween <;> omega

/-! ## One call -/

/-- What a call with `commit` set can do: it changes nothing, marks a number that is in
    the window and not marked, or moves the window on to a higher number. -/
inductive ReplayEnd (tdb : Tdb) (seq : BitVec 32) : ReplayReply → Prop where
  | rejected {ret : Nat} {seqh : BitVec 32} : ret ≠ 0 → ReplayEnd tdb seq ⟨ret, seqh, tdb⟩
  | marks {seqh : BitVec 32} : tdb.marked seq = false →
      fullSeq (seqh, seq) ≤ tdb.rpl.toNat → tdb.rpl.toNat - fullSeq (seqh, seq) < 2100 →
      1 ≤ fullSeq (seqh, seq) → ReplayEnd tdb seq ⟨0, seqh, tdb.mark seq⟩
  | slides {seqh : BitVec 32} : tdb.rpl.toNat < fullSeq (seqh, seq) →
      (seqh = tdb.th ∨ tdb.esn = true) →
      fullSeq (seqh, seq) - tdb.rpl.toNat = (seq - tdb.tl).toNat →
      1 ≤ fullSeq (seqh, seq) →
      ReplayEnd tdb seq ⟨0, seqh, tdb.slide tdb.window seq seqh⟩

theorem window_toNat (tdb : Tdb) :
    tdb.window.toNat = if tdb.rpl.toNat < 2100 then tdb.rpl.toNat else 2100 := by
  have hr := rpl_toNat tdb
  have hth : tdb.th = 0 ↔ tdb.th.toNat = 0 := by
    rw [← BitVec.toNat_inj]
    rfl
  have htl := tdb.tl.isLt
  simp only [fullSeq] at hr
  rw [Tdb.window]
  simp only [hth, BitVec.lt_def]
  have hconst : (2100 : BitVec 32).toNat = 2100 := rfl
  rw [hconst]
  split <;> split <;> omega

theorem checkreplaywindow_cases (tdb : Tdb) (seq seqh : BitVec 32) (hpos : 1 ≤ tdb.rpl.toNat) :
    ReplayEnd tdb seq (checkreplaywindow tdb seq seqh true) := by
  have hr := rpl_toNat tdb
  have hw := window_toNat tdb
  have htl := tdb.tl.isLt
  have hth := tdb.th.isLt
  have hseq := seq.isLt
  have hone : (1 : BitVec 32).toNat = 1 := rfl
  simp only [fullSeq] at hr
  simp only [checkreplaywindow, BitVec.lt_def, BitVec.le_def, BitVec.toNat_sub, BitVec.toNat_add,
    hone, if_true]
  generalize hW : tdb.window.toNat = W at hw ⊢
  split_ifs with hzero hin hnew hold hmark hesn hprev hmark' htop
  · exact .rejected (by decide)
  · refine .slides ?_ (.inl rfl) ?_ ?_ <;> simp only [fullSeq, BitVec.toNat_sub] <;> omega
  · exact .rejected (by decide)
  · exact .rejected (by decide)
  · refine .marks (by simpa using hmark) ?_ ?_ ?_ <;> simp only [fullSeq] <;> split at hw <;> omega
  · exact .rejected (by decide)
  · exact .rejected (by decide)
  · have hsub : (tdb.th - 1).toNat = tdb.th.toNat - 1 := by
      rw [BitVec.toNat_sub, hone]
      split at hw <;> omega
    refine .marks (by simpa using hmark') ?_ ?_ ?_ <;> simp only [fullSeq, hsub] <;>
      split at hw <;> omega
  · exact .rejected (by decide)
  · have hadd : (tdb.th + 1).toNat = tdb.th.toNat + 1 := by
      have hne : tdb.th.toNat + 1 ≠ 2 ^ 32 := by
        intro h
        refine htop (BitVec.eq_of_toNat_eq ?_)
        rw [BitVec.toNat_add, hone, h]
        rfl
      rw [BitVec.toNat_add, hone]
      omega
    refine .slides ?_ (.inr (by simpa using hesn)) ?_ ?_ <;>
      simp only [fullSeq, hadd, BitVec.toNat_sub] <;> split at hw <;> omega

/-! ## Every run -/

/-- An accepted number is not above the counter, and it is marked while it is less than
    2100 behind. -/
structure ReplayInv (s : ReplayState) : Prop where
  pos : 1 ≤ s.tdb.rpl.toNat
  low : s.tdb.esn = false → s.tdb.rpl.toNat < 2 ^ 32
  le : ∀ p ∈ s.accepted, 1 ≤ fullSeq p ∧ fullSeq p ≤ s.tdb.rpl.toNat
  marked : ∀ p ∈ s.accepted, s.tdb.rpl.toNat - fullSeq p < 2100 → s.tdb.marked p.2 = true
  nodup : s.accepted.Nodup

/-- The mark of a number that stays within the window survives its move. -/
theorem marked_slide {tdb : Tdb} {seq seqh : BitVec 32} {p : BitVec 32 × BitVec 32}
    (hshort : ShortJumpOk tdb seq) (hwrap : WrapOk tdb seq)
    (hlow : tdb.esn = false → tdb.rpl.toNat < 2 ^ 32)
    (hnew : tdb.rpl.toNat < fullSeq (seqh, seq)) (hesn : seqh = tdb.th ∨ tdb.esn = true)
    (hdiff : fullSeq (seqh, seq) - tdb.rpl.toNat = (seq - tdb.tl).toNat)
    (hpos : 1 ≤ fullSeq p) (hle : fullSeq p ≤ tdb.rpl.toNat)
    (hnear : fullSeq (seqh, seq) - fullSeq p < 2100) (hm : tdb.marked p.2 = true) :
    (tdb.slide tdb.window seq seqh).marked p.2 = true := by
  obtain ⟨ph, pl⟩ := p
  have hr := rpl_toNat tdb
  have hw := window_toNat tdb
  have htl := tdb.tl.isLt
  have hpl := pl.isLt
  have hseq := seq.isLt
  simp only [fullSeq] at hr hnew hdiff hpos hle hnear
  refine marked_mark _ _ ?_
  -- nothing is cleared at once
  have hkeep : ¬tdb.window < seq - tdb.tl := by
    intro hjump
    rw [BitVec.lt_def, hw] at hjump
    have hsmall : tdb.rpl.toNat < 2100 := by
      split at hjump <;> omega
    have hth : tdb.th.toNat = 0 := by omega
    have hth0 : tdb.th = 0 := BitVec.eq_of_toNat_eq hth
    have hc : (2100 : BitVec 32).toNat = 2100 := rfl
    have hsub : (seq - tdb.tl).toNat = seq.toNat - tdb.tl.toNat := by
      rw [BitVec.toNat_sub] at hdiff ⊢
      omega
    have hunmarked := hshort hth0
      (by rw [BitVec.lt_def, hc]; omega)
      (by rw [BitVec.lt_def]; omega)
      (by rw [BitVec.lt_def]; rw [if_pos hsmall] at hjump; omega)
      pl (by rw [BitVec.le_def]; change 1 ≤ pl.toNat; omega)
      (by rw [BitVec.le_def]; omega)
      (by rw [BitVec.lt_def, BitVec.toNat_sub, hc]; omega)
    rw [hunmarked] at hm
    exact absurd hm (by decide)
  have hpass : ¬Passes (seenIdx tdb.tl) (seenIdx seq) (seenIdx pl) := by
    by_cases hsame : ph = seqh
    · -- all three numbers are in one subspace
      subst hsame
      have hth : tdb.th.toNat = ph.toNat := by omega
      refine not_passes_of_le (x := pl.toNat) (y := tdb.tl.toNat) (z := seq.toNat) ?_ ?_ ?_ <;> omega
    · -- the old number is in the subspace before
      have hne : ph.toNat ≠ seqh.toNat := fun h => hsame (BitVec.eq_of_toNat_eq h)
      have hph : ph.toNat + 1 = seqh.toNat := by omega
      have hth : tdb.th.toNat = ph.toNat ∨ tdb.th.toNat = seqh.toNat := by omega
      have hon : tdb.esn = true := by
        rcases hesn with rfl | hon
        · by_contra hoff
          have := hlow (by simpa using hoff)
          omega
        · exact hon
      refine hwrap hon ?_ pl (by omega) ?_ hm
      · rw [BitVec.le_def]
        change (seq - tdb.tl).toNat ≤ 2100
        omega
      · rcases hth with hth | hth
        · left
          rw [BitVec.le_def]
          omega
        · right
          refine ⟨by rw [BitVec.lt_def]; omega, fun h0 => ?_⟩
          have : tdb.th.toNat = 0 := by rw [h0]; rfl
          omega
  have hword := @clearWords_of_not_passes seenSize _ _ _ tdb.seen (seenIdx_lt tdb.tl)
    (seenIdx_lt seq) hpass
  rw [marked_iff] at hm ⊢
  simp only [if_neg hkeep, hword]
  exact hm

variable {e : BitVec 32 × BitVec 32} {s s' : ReplayState}

theorem replayStep_rpl_le (hpos : 1 ≤ s.tdb.rpl.toNat) (hs : replayStep s e = some s') :
    s.tdb.rpl.toNat ≤ s'.tdb.rpl.toNat := by
  have hcases := checkreplaywindow_cases s.tdb e.1 e.2 hpos
  simp only [replayStep, Option.some.injEq] at hs
  subst hs
  generalize checkreplaywindow s.tdb e.1 e.2 true = r at hcases ⊢
  cases hcases with
  | rejected _ => exact le_rfl
  | marks _ _ _ _ => exact le_rfl
  | @slides seqh hnew _ _ _ =>
    change _ ≤ (seqh ++ e.1 : BitVec 64).toNat
    rw [append_toNat]
    exact hnew.le

theorem replayStep_inv (h : ReplayInv s)
    (hkeep : KeepsMarks s e) (hs : replayStep s e = some s') : ReplayInv s' := by
  have hcases := checkreplaywindow_cases s.tdb e.1 e.2 h.pos
  simp only [replayStep, Option.some.injEq] at hs
  subst hs
  generalize checkreplaywindow s.tdb e.1 e.2 true = r at hcases ⊢
  cases hcases with
  | rejected hret =>
    simp only [if_neg hret]
    exact h
  | marks hunmarked hle hnear hone =>
    simp only [if_true]
    refine ⟨h.pos, h.low, ?_, ?_, ?_⟩
    · intro p hp
      rcases List.mem_cons.1 hp with rfl | hp
      · exact ⟨hone, hle⟩
      · exact h.le p hp
    · intro p hp hnear'
      rcases List.mem_cons.1 hp with rfl | hp
      · exact marked_mark_self _ _
      · exact marked_mark _ _ (h.marked p hp hnear')
    · refine List.nodup_cons.2 ⟨fun hmem => ?_, h.nodup⟩
      have := h.marked _ hmem hnear
      rw [hunmarked] at this
      exact absurd this (by decide)
  | @slides seqh hnew hesn hdiff hone =>
    have hrpl : (s.tdb.slide s.tdb.window e.1 seqh).rpl.toNat = fullSeq (seqh, e.1) := by
      change (seqh ++ e.1 : BitVec 64).toNat = _
      rw [append_toNat]
    simp only [if_true]
    refine ⟨by rw [hrpl]; exact hone, ?_, ?_, ?_, ?_⟩
    · intro hoff
      rw [hrpl]
      rcases hesn with rfl | hon
      · have hlow := h.low hoff
        have hr := rpl_toNat s.tdb
        have hseq := e.1.isLt
        simp only [fullSeq] at hr ⊢
        omega
      · have hoff' : s.tdb.esn = false := hoff
        rw [hon] at hoff'
        exact absurd hoff' (by decide)
    · intro p hp
      rw [hrpl]
      rcases List.mem_cons.1 hp with rfl | hp
      · exact ⟨hone, le_rfl⟩
      · exact ⟨(h.le p hp).1, (h.le p hp).2.trans hnew.le⟩
    · intro p hp hnear
      rw [hrpl] at hnear
      rcases List.mem_cons.1 hp with rfl | hp
      · exact marked_mark_self _ _
      · obtain ⟨hpos, hle⟩ := h.le p hp
        exact marked_slide hkeep.1 hkeep.2 h.low hnew hesn hdiff hpos hle hnear
          (h.marked p hp (by omega))
    · refine List.nodup_cons.2 ⟨fun hmem => ?_, h.nodup⟩
      exact absurd (h.le _ hmem).2 (by omega)

/-- In every run whose calls keep the marks of the numbers in the window, no number is
    accepted twice; and no call lowers the counter. -/
theorem replay_run {esn : Bool} {es : List (BitVec 32 × BitVec 32)} {s : ReplayState}
    (hrun : Run replayStep KeepsMarks (replayInit esn) es s) :
    s.accepted.Nodup ∧
      ∀ e s', replayStep s e = some s' → s.tdb.rpl.toNat ≤ s'.tdb.rpl.toNat := by
  have hinit : ReplayInv (replayInit esn) :=
    ⟨show 1 ≤ (1 : BitVec 64).toNat by decide, fun _ => show (1 : BitVec 64).toNat < 2 ^ 32 by decide,
      by simp [replayInit], by simp [replayInit], List.nodup_nil⟩
  have hinv := hrun.invariant (fun _ _ _ h hk hs => replayStep_inv h hk hs) hinit
  exact ⟨hinv.nodup, fun e s' hs => replayStep_rpl_le hinv.pos hs⟩

/-- The numbers 2 and 3 in turn, and 2 once more. -/
theorem replay_run_in_order : ∃ s, Run replayStep KeepsMarks (replayInit false)
    [(2, 0), (3, 0), (2, 0)] s ∧ s.accepted = [(0, 3), (0, 2)] ∧ s.accepted.Nodup := by
  have hshort : ∀ (tdb : Tdb) (seq : BitVec 32), ¬tdb.tl < seq - tdb.tl ∨ ¬tdb.tl < seq →
      ShortJumpOk tdb seq := fun tdb seq hno _ _ h h' =>
    absurd h' (hno.resolve_right fun hn => hn h)
  have hwrap : ∀ (tdb : Tdb) (seq : BitVec 32), tdb.esn = false → WrapOk tdb seq :=
    fun tdb seq hoff hon => absurd (hoff.symm.trans hon) (by decide)
  have hrun : Run replayStep KeepsMarks (replayInit false) [(2, 0), (3, 0), (2, 0)] _ :=
    .cons ⟨hshort _ _ (.inl (by decide)), hwrap _ _ rfl⟩ rfl
      (.cons ⟨hshort _ _ (.inl (by decide)), hwrap _ _ rfl⟩ rfl
        (.cons ⟨hshort _ _ (.inr (by decide)), hwrap _ _ rfl⟩ rfl (.nil _)))
  exact ⟨_, hrun, by decide, (replay_run hrun).1⟩

/-- The numbers 2 and 5, and 2 once more: the jump from 2 to 5 is wider than the window
    of 2 and clears the mark of 2. -/
theorem replay_after_short_jump : ∃ s, Run replayStep (fun _ _ => True) (replayInit false)
    [(2, 0), (5, 0), (2, 0)] s ∧ s.accepted = [(0, 2), (0, 5), (0, 2)] ∧ ¬s.accepted.Nodup := by
  have hrun : Run replayStep (fun _ _ => True) (replayInit false) [(2, 0), (5, 0), (2, 0)] _ :=
    .cons trivial rfl (.cons trivial rfl (.cons trivial rfl (.nil _)))
  exact ⟨_, hrun, by decide, by decide⟩

end OpenBsd.Netinet
