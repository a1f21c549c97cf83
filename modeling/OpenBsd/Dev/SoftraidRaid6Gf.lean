/-
  OpenBsd.Dev.SoftraidRaid6Gf

  `dev/softraid_raid6.c`: the tables of `gf_init` and the functions on them, which are those of the
  field of 256 elements.

  A lookup behind the end of a table is `badIndex`.  The rows of `gf_map` are computed where
  `gf_premul` finds them; allocations do not fail.
-/

import OpenBsd.Dev.SoftraidStrip
import OpenBsd.Lib.Gf256
import Mathlib.Algebra.Module.Pi

namespace OpenBsd.Dev

open OpenBsd.Lib List Option

/-- How `sr_raid6_rw` ends but for success. -/
inductive Raid6Error where
  /-- `goto bad` -/
  | bad
  /-- a lookup outside of a table -/
  | badIndex
  deriving DecidableEq

/-! ## Tables -/

/-- `gf_pow` and `gf_log`. -/
structure GfTables where
  gfPow : List (XorWord 8)
  gfLog : List Nat

/-- An assignment to an element of an array. -/
def putAt {α : Type} (xs : List α) (i : Nat) (x : α) : Option (List α) :=
  if i < xs.length then some (xs.set i x) else none

def gfInitTurn (t : GfTables × XorWord 8) (i : Nat) : Option (GfTables × XorWord 8) := do
  let p := t.2
  let gfLog ← putAt t.1.gfLog p.bits.toNat i
  let gfPow ← putAt t.1.gfPow (i + 255) p
  let gfPow ← putAt gfPow i p
  return (⟨gfPow, gfLog⟩, ⟨(p.bits <<< 1) ^^^ if p.bits &&& 0x80 ≠ 0 then 0x1D else 0⟩)

def gfInit : Option GfTables := do
  let t ← (List.range 256).foldlM gfInitTurn (⟨List.replicate 768 0, List.replicate 256 0⟩, ⟨1⟩)
  let gfLog ← putAt t.1.gfLog 0 512
  return { t.1 with gfLog := gfLog }

/-! ## What the tables hold -/

variable {i : Nat} {α : Type}

theorem putAt_some {xs : List α} {x : α} (h : i < xs.length) :
    putAt xs i x = some (xs.set i x) := if_pos h

theorem gen_pow_ne_zero (i : Nat) : Gf256.gen ^ i ≠ 0 := pow_ne_zero i Gf256.gen_ne_zero

set_option maxRecDepth 1000 in
theorem gf_next : ∀ p : XorWord 8,
    (⟨(p.bits <<< 1) ^^^ if p.bits &&& 0x80 ≠ 0 then 0x1D else 0⟩ : XorWord 8) = p * Gf256.gen := by
  apply Gf256.forall_byte
  decide

/-- The tables after `k` turns of the loop of `gf_init`, with `p`. -/
structure GfUpTo (k : Nat) (t : GfTables × XorWord 8) : Prop where
  p : t.2 = Gf256.gen ^ k
  lengthPow : t.1.gfPow.length = 768
  lengthLog : t.1.gfLog.length = 256
  pow : ∀ j, j < k ∨ 255 ≤ j ∧ j < 255 + k → t.1.gfPow[j]? = some (Gf256.gen ^ j)
  powZero : ∀ j < 768, ¬(j < k ∨ 255 ≤ j ∧ j < 255 + k) → t.1.gfPow[j]? = some 0
  log : ∀ i < k, ∃ l < k, t.1.gfLog[(Gf256.gen ^ i).bits.toNat]? = some l ∧
    Gf256.gen ^ l = Gf256.gen ^ i

theorem gfInitTurn_upTo {k : Nat} {t : GfTables × XorWord 8} (h : GfUpTo k t) (hk : k < 256) :
    ∃ t', gfInitTurn t k = some t' ∧ GfUpTo (k + 1) t' := by
  obtain ⟨⟨pow, log⟩, p⟩ := t
  obtain ⟨rfl, hpow, hlog, hpows, hzeros, hlogs⟩ := h
  dsimp only at hpow hlog hpows hzeros hlogs
  have hp : (Gf256.gen ^ k).bits.toNat < log.length := by
    rw [hlog]
    exact (Gf256.gen ^ k).bits.isLt
  have hpow' : (pow.set (k + 255) (Gf256.gen ^ k)).length = 768 := by
    rw [length_set, hpow]
  have hturn : gfInitTurn (⟨pow, log⟩, Gf256.gen ^ k) k =
      some (⟨(pow.set (k + 255) (Gf256.gen ^ k)).set k (Gf256.gen ^ k),
        log.set (Gf256.gen ^ k).bits.toNat k⟩, Gf256.gen ^ k * Gf256.gen) := by
    unfold gfInitTurn
    dsimp only
    rw [putAt_some hp, putAt_some (by omega : k + 255 < pow.length),
      bind_eq_bind, bind_some, bind_eq_bind, bind_some, putAt_some (by omega), bind_some, gf_next]
    rfl
  refine ⟨_, hturn, ⟨(pow_succ _ _).symm, ?_, ?_, ?_, ?_, ?_⟩⟩
  · dsimp only
    rw [length_set, hpow']
  · dsimp only
    rw [length_set, hlog]
  · intro j hj
    dsimp only
    rw [getElem?_set, getElem?_set]
    by_cases hjk : k = j
    · rw [if_pos hjk, if_pos (by omega), hjk]
    · rw [if_neg hjk]
      by_cases hjk' : k + 255 = j
      · rw [if_pos hjk', if_pos (by omega), ← hjk', pow_add, Gf256.gen_order, mul_one]
      · rw [if_neg hjk']
        exact hpows j (by omega)
  · intro j hj hne
    dsimp only
    rw [getElem?_set_ne (by omega), getElem?_set_ne (by omega)]
    exact hzeros j hj (by omega)
  · intro i hi
    dsimp only
    rw [getElem?_set]
    by_cases heq : (Gf256.gen ^ k).bits.toNat = (Gf256.gen ^ i).bits.toNat
    · rw [if_pos heq, if_pos hp]
      exact ⟨k, Nat.lt_succ_self k, rfl, XorWord.ext (BitVec.eq_of_toNat_eq heq)⟩
    · have hik : i ≠ k := fun h => heq (by rw [h])
      obtain ⟨l, hl, hget, hval⟩ := hlogs i (by omega)
      rw [if_neg heq]
      exact ⟨l, Nat.lt_succ_of_lt hl, hget, hval⟩

theorem gfInit_loop : ∀ k ≤ 256, ∃ t,
    (List.range k).foldlM gfInitTurn (⟨List.replicate 768 0, List.replicate 256 0⟩, ⟨1⟩) = some t ∧
      GfUpTo k t := by
  intro k
  induction k with
  | zero =>
    intro _
    refine ⟨_, rfl, ⟨rfl, length_replicate, length_replicate, ?_, ?_, ?_⟩⟩
    · intro j hj
      omega
    · intro j hj _
      exact getElem?_replicate_of_lt hj
    · intro i hi
      omega
  | succ k ih =>
    intro hk
    obtain ⟨t, ht, h⟩ := ih (Nat.le_of_succ_le hk)
    obtain ⟨t', ht', h'⟩ := gfInitTurn_upTo h hk
    refine ⟨t', ?_, h'⟩
    rw [range_succ, foldlM_append, ht, bind_eq_bind, bind_some, foldlM_cons, ht']
    rfl

theorem gfInit_spec : ∃ t p, gfInit = some { t with gfLog := t.gfLog.set 0 512 } ∧
    GfUpTo 256 (t, p) := by
  obtain ⟨⟨t, p⟩, ht, h⟩ := gfInit_loop 256 (Nat.le_refl _)
  refine ⟨t, p, ?_, h⟩
  have hlen : 0 < t.gfLog.length := by
    rw [h.lengthLog]
    decide
  unfold gfInit
  rw [ht, bind_eq_bind, bind_some, putAt_some hlen]
  rfl

theorem gfInit_isSome : gfInit.isSome = true := by
  obtain ⟨t, p, ht, -⟩ := gfInit_spec
  rw [ht]
  rfl

def gfTables : GfTables := gfInit.get gfInit_isSome

/-- A lookup in an array. -/
def lookup {α : Type} (xs : List α) (i : Nat) : Except Raid6Error α :=
  match xs[i]? with
  | some a => .ok a
  | none => .error .badIndex

def gfPow (i : Nat) : Except Raid6Error (XorWord 8) := lookup gfTables.gfPow i

def gfLog (a : XorWord 8) : Except Raid6Error Nat := lookup gfTables.gfLog a.bits.toNat

def gfInv (a : XorWord 8) : Except Raid6Error (XorWord 8) := do
  let log ← gfLog a
  if log ≤ 255 then gfPow (255 - log) else .error .badIndex

def gfMul (a b : XorWord 8) : Except Raid6Error (XorWord 8) := do
  let logA ← gfLog a
  let logB ← gfLog b
  gfPow (logA + logB)

def gfPremul (gn : XorWord 8) : Except Raid6Error (List (XorWord 8)) :=
  (List.range 256).mapM fun i => do
    let log ← gfLog ⟨BitVec.ofNat 8 i⟩
    let logGn ← gfLog gn
    gfPow (log + logGn)

/-- `sr_raid6_xorq`, which does the four bytes of a word at a time. -/
def srRaid6Xorq (q data : List Block) (gnMap : List (XorWord 8)) : List Block :=
  List.zipWith (fun q x i => q i + gnMap.getD (x i).bits.toNat 0) q data

/-! ## The field -/

theorem gfTables_eq {t : GfTables} (ht : gfInit = some t) : gfTables = t :=
  get_of_eq_some gfInit_isSome ht

theorem gfTables_spec : ∃ t p, gfTables.gfPow = t.gfPow ∧ gfTables.gfLog = t.gfLog.set 0 512 ∧
    GfUpTo 256 (t, p) := by
  obtain ⟨t, p, ht, h⟩ := gfInit_spec
  refine ⟨t, p, ?_, ?_, h⟩
  · rw [gfTables_eq ht]
  · rw [gfTables_eq ht]

theorem lookup_ok {xs : List α} {a : α} (h : xs[i]? = some a) : lookup xs i = .ok a := by
  unfold lookup
  rw [h]

theorem gfPow_ok (hi : i ≤ 510) : gfPow i = .ok (Gf256.gen ^ i) := by
  obtain ⟨t, p, hpow, -, h⟩ := gfTables_spec
  apply lookup_ok
  rw [hpow]
  exact h.pow i (by omega)

theorem gfPow_zero (hlo : 511 ≤ i) (hhi : i < 768) : gfPow i = .ok 0 := by
  obtain ⟨t, p, hpow, -, h⟩ := gfTables_spec
  apply lookup_ok
  rw [hpow]
  exact h.powZero i hhi (by omega)

theorem gfLog_ok {a : XorWord 8} (ha : a ≠ 0) : ∃ l ≤ 255, gfLog a = .ok l ∧ Gf256.gen ^ l = a := by
  obtain ⟨t, p, -, hlog, h⟩ := gfTables_spec
  obtain ⟨i, hi, rfl⟩ := Gf256.exists_iterate ha
  rw [Gf256.iterate_eq_pow] at ha ⊢
  obtain ⟨l, hl, hget, hval⟩ := h.log i (by omega)
  have hne : 0 ≠ (Gf256.gen ^ i).bits.toNat := by
    intro hzero
    exact ha (XorWord.ext (BitVec.eq_of_toNat_eq hzero.symm))
  refine ⟨l, Nat.le_of_lt_succ hl, ?_, hval⟩
  apply lookup_ok
  rw [hlog, getElem?_set_ne hne]
  exact hget

theorem gfLog_zero : gfLog 0 = .ok 512 := by
  obtain ⟨t, p, -, hlog, h⟩ := gfTables_spec
  have hlen : 0 < t.gfLog.length := by
    rw [h.lengthLog]
    decide
  apply lookup_ok
  rw [hlog]
  exact getElem?_set_self hlen

theorem ok_bind {ε β : Type} (a : α) (f : α → Except ε β) : (Except.ok a >>= f) = f a := rfl

theorem gfInv_ok {a : XorWord 8} (ha : a ≠ 0) : gfInv a = .ok a⁻¹ := by
  obtain ⟨l, hl, hlog, hval⟩ := gfLog_ok ha
  have hinv : Gf256.gen ^ (255 - l) = a⁻¹ := by
    apply eq_inv_of_mul_eq_one_left
    rw [← hval, ← pow_add, Nat.sub_add_cancel hl, Gf256.gen_order]
  unfold gfInv
  rw [hlog, ok_bind, if_pos hl, gfPow_ok (by omega), hinv]

theorem gfMul_ok (a : XorWord 8) {b : XorWord 8} (hb : b ≠ 0) : gfMul a b = .ok (a * b) := by
  obtain ⟨l, hl, hlog, hval⟩ := gfLog_ok hb
  unfold gfMul
  by_cases ha : a = 0
  · rw [ha, gfLog_zero, ok_bind, hlog, ok_bind, gfPow_zero (by omega) (by omega), zero_mul]
  · obtain ⟨l', hl', hlog', hval'⟩ := gfLog_ok ha
    rw [hlog', ok_bind, hlog, ok_bind, gfPow_ok (by omega), pow_add, hval, hval']

theorem mapM_ok {ε β : Type} {f : α → Except ε β} {g : α → β} (xs : List α)
    (h : ∀ a, f a = .ok (g a)) : xs.mapM f = .ok (xs.map g) := by
  induction xs with
  | nil => rfl
  | cons x xs ih => rw [mapM_cons, h, ok_bind, ih, ok_bind]; rfl

theorem gfPremul_ok {gn : XorWord 8} (hgn : gn ≠ 0) :
    gfPremul gn = .ok ((List.range 256).map fun i => ⟨BitVec.ofNat 8 i⟩ * gn) :=
  mapM_ok _ fun i => gfMul_ok ⟨BitVec.ofNat 8 i⟩ hgn

theorem srRaid6Xorq_eq (q data : List Block) (gn : XorWord 8) :
    srRaid6Xorq q data ((List.range 256).map fun i => ⟨BitVec.ofNat 8 i⟩ * gn) =
      List.zipWith (fun q x => q + gn • x) q data := by
  unfold srRaid6Xorq
  congr 1
  funext q x i
  have hlt : (x i).bits.toNat < 256 := (x i).bits.isLt
  have hself : (⟨BitVec.ofNat 8 (x i).bits.toNat⟩ : XorWord 8) = x i :=
    XorWord.ext (by rw [BitVec.ofNat_toNat, BitVec.setWidth_eq])
  show q i + _ = q i + gn * x i
  congr 1
  rw [getD_eq_getElem _ _ (by rwa [length_map, length_range]), getElem_map,
    getElem_range, hself, mul_comm]

end OpenBsd.Dev
