/-
  OpenBsd.Net.ArtWalk

  Walks of `sys/net/art.c`.  Each index of a heap comes up once in the order of the walk,
  and the slot that a prefix has of its own is the one whose route is not that of the slot
  above.
-/

import Mathlib.Data.Nat.Factorization.Basic
import OpenBsd.Net.ArtRun

namespace OpenBsd.Net

open OpenBsd.Lib List Option

/-! ## The order of a table -/

section

variable {i j m m' k k' fuel minfringe : Nat}

theorem two_mul_mul_two_pow (j k : Nat) : 2 * j * 2 ^ k = j * 2 ^ (k + 1) := by
  rw [Nat.pow_succ, Nat.mul_comm (2 ^ k) 2, ← Nat.mul_assoc, Nat.mul_comm j 2]

theorem mem_artDoubling (hj : 0 < j) :
    i ∈ artDoubling minfringe fuel j ↔ i < minfringe ∧ ∃ k < fuel, i = j * 2 ^ k := by
  induction fuel generalizing j with
  | zero =>
    refine ⟨fun h => absurd h not_mem_nil, ?_⟩
    rintro ⟨-, k, hk, -⟩
    exact absurd hk (Nat.not_lt_zero k)
  | succ fuel ih =>
    rw [artDoubling]
    split
    · next hlt =>
      rw [mem_cons, ih (Nat.mul_pos Nat.two_pos hj)]
      constructor
      · rintro (rfl | ⟨hi, k, hk, rfl⟩)
        · exact ⟨hlt, 0, Nat.succ_pos _, (Nat.mul_one i).symm⟩
        · exact ⟨hi, k + 1, Nat.succ_lt_succ hk, two_mul_mul_two_pow j k⟩
      · rintro ⟨hi, k, hk, rfl⟩
        cases k with
        | zero => exact .inl (Nat.mul_one j)
        | succ k => exact .inr ⟨hi, k, Nat.lt_of_succ_lt_succ hk, (two_mul_mul_two_pow j k).symm⟩
    · next hge =>
      refine ⟨fun h => absurd h not_mem_nil, ?_⟩
      rintro ⟨hi, k, -, rfl⟩
      exact absurd (Nat.lt_of_le_of_lt (Nat.le_mul_of_pos_right j (Nat.two_pow_pos k)) hi) hge

theorem nodup_artDoubling (hj : 0 < j) : (artDoubling minfringe fuel j).Nodup := by
  induction fuel generalizing j with
  | zero => exact nodup_nil
  | succ fuel ih =>
    have hj₂ : 0 < 2 * j := Nat.mul_pos Nat.two_pos hj
    rw [artDoubling]
    split
    · refine nodup_cons.2 ⟨fun hmem => ?_, ih hj₂⟩
      obtain ⟨-, k, -, hk⟩ := (mem_artDoubling hj₂).1 hmem
      have hle := Nat.le_mul_of_pos_right (2 * j) (Nat.two_pow_pos k)
      omega
    · exact nodup_nil

theorem odd_part_unique (hm : m % 2 = 1) (hm' : m' % 2 = 1) (h : m * 2 ^ k = m' * 2 ^ k') :
    m = m' := by
  induction k generalizing k' with
  | zero =>
    cases k' with
    | zero => rwa [Nat.pow_zero, Nat.mul_one, Nat.mul_one] at h
    | succ k' =>
      rw [Nat.pow_zero, Nat.mul_one, Nat.pow_succ, ← Nat.mul_assoc] at h
      omega
  | succ k ih =>
    cases k' with
    | zero =>
      rw [Nat.pow_zero, Nat.mul_one, Nat.pow_succ, ← Nat.mul_assoc] at h
      omega
    | succ k' =>
      rw [Nat.pow_succ, Nat.pow_succ, ← Nat.mul_assoc, ← Nat.mul_assoc] at h
      exact ih (Nat.eq_of_mul_eq_mul_right Nat.two_pos h)

theorem exists_row (hm : m % 2 = 1) (k : Nat) : ∃ l, max m 2 * 2 ^ k = m * 2 ^ l := by
  by_cases hone : m = 1
  · subst hone
    exact ⟨k + 1, by rw [Nat.pow_succ, Nat.one_mul, Nat.mul_comm]; rfl⟩
  · exact ⟨k, by rw [Nat.max_eq_left (by omega)]⟩

theorem row_unique (hm : m % 2 = 1) (hm' : m' % 2 = 1)
    (h : max m 2 * 2 ^ k = max m' 2 * 2 ^ k') : m = m' := by
  obtain ⟨l, hl⟩ := exists_row hm k
  obtain ⟨l', hl'⟩ := exists_row hm' k'
  exact odd_part_unique hm hm' (hl.symm.trans (h.trans hl'))

theorem mem_artOrder (hj : j % 2 = 1) :
    i ∈ artOrder minfringe fuel j ↔
      i < minfringe ∧ ∃ m k, m % 2 = 1 ∧ j ≤ m ∧ m < j + 2 * fuel ∧ i = max m 2 * 2 ^ k := by
  induction fuel generalizing j with
  | zero =>
    refine ⟨fun h => absurd h not_mem_nil, ?_⟩
    rintro ⟨-, m, k, -, hlo, hhi, -⟩
    exact absurd hlo (Nat.not_le_of_lt hhi)
  | succ fuel ih =>
    rw [artOrder]
    split
    · rw [mem_append, mem_artDoubling (by omega), ih (by omega)]
      constructor
      · rintro (⟨hi, k, -, hk⟩ | ⟨hi, m, k, hm, hlo, hhi, hk⟩)
        · exact ⟨hi, j, k, hj, Nat.le_refl j, by omega, hk⟩
        · exact ⟨hi, m, k, hm, by omega, by omega, hk⟩
      · rintro ⟨hi, m, k, hm, hlo, hhi, hk⟩
        by_cases hmj : m = j
        · subst hmj
          refine .inl ⟨hi, k, ?_, hk⟩
          have hpow := Nat.lt_two_pow_self (n := k)
          have hle := Nat.le_mul_of_pos_left (2 ^ k) (show 0 < max m 2 by omega)
          omega
        · exact .inr ⟨hi, m, k, hm, by omega, by omega, hk⟩
    · next hge =>
      refine ⟨fun h => absurd h not_mem_nil, ?_⟩
      rintro ⟨hi, m, k, -, hlo, -, rfl⟩
      have hle := Nat.le_mul_of_pos_right (max m 2) (Nat.two_pow_pos k)
      omega

theorem nodup_artOrder (hj : j % 2 = 1) : (artOrder minfringe fuel j).Nodup := by
  induction fuel generalizing j with
  | zero => exact nodup_nil
  | succ fuel ih =>
    rw [artOrder]
    split
    · refine nodup_append'.2 ⟨nodup_artDoubling (by omega), ih (by omega), ?_⟩
      intro i hrow hrest
      obtain ⟨-, k, -, hk⟩ := (mem_artDoubling (by omega)).1 hrow
      obtain ⟨-, m, k', hm, hlo, -, hk'⟩ := (mem_artOrder (by omega)).1 hrest
      have hsame := row_unique hj hm (hk.symm.trans hk')
      omega
    · exact nodup_nil

theorem mem_artOrder_one : i ∈ artOrder minfringe minfringe 1 ↔ 2 ≤ i ∧ i < minfringe := by
  rw [mem_artOrder rfl]
  constructor
  · rintro ⟨hi, m, k, -, -, -, rfl⟩
    have hle := Nat.le_mul_of_pos_right (max m 2) (Nat.two_pow_pos k)
    omega
  · rintro ⟨htwo, hi⟩
    obtain ⟨k, m, hm, hk⟩ := Nat.exists_eq_two_pow_mul_odd (show i ≠ 0 by omega)
    have hodd := Nat.odd_iff.1 hm
    have hle := Nat.le_mul_of_pos_left m (Nat.two_pow_pos k)
    by_cases hone : m = 1
    · subst hone
      cases k with
      | zero => omega
      | succ k =>
        refine ⟨hi, 1, k, rfl, Nat.le_refl 1, by omega, ?_⟩
        rw [hk, Nat.mul_one, Nat.pow_succ, Nat.mul_comm]
        rfl
    · refine ⟨hi, m, k, hodd, by omega, by omega, ?_⟩
      rw [Nat.max_eq_left (by omega), hk, Nat.mul_comm]

end

/-! ## Calls of the callback -/

section

variable {ν σ : Type} {f : ArtCallback ν σ}

/-- The calls for some nodes, until one of them returns an error. -/
@[simp] def callEach (f : ArtCallback ν σ) : List ν → σ → Int × σ
  | [], arg => (0, arg)
  | an :: ans, arg => if (f an arg).1 ≠ 0 then f an arg else callEach f ans (f an arg).2

theorem callEach_append (ans ans' : List ν) (arg : σ) :
    callEach f (ans ++ ans') arg
      = if (callEach f ans arg).1 ≠ 0 then callEach f ans arg
        else callEach f ans' (callEach f ans arg).2 := by
  induction ans generalizing arg with
  | nil => rfl
  | cons an ans ih =>
    rw [cons_append, callEach, callEach]
    by_cases herr : (f an arg).1 ≠ 0
    · rw [if_pos herr, if_pos herr, if_pos herr]
    · rw [if_neg herr, if_neg herr]
      exact ih _

theorem callEach_singleton (an : ν) (arg : σ) : callEach f [an] arg = f an arg := by
  rw [callEach, callEach]
  split
  · rfl
  · next hok => rw [← not_not.1 hok]

theorem callEach_of_zero (f : ν → σ → σ) (ans : List ν) (arg : σ) :
    callEach (fun an arg => (0, f an arg)) ans arg
      = (0, ans.foldl (fun arg an => f an arg) arg) := by
  induction ans generalizing arg with
  | nil => rfl
  | cons an ans ih =>
    rw [callEach, if_neg (fun h => h rfl), ih]
    rfl

theorem artEach_eq {visit : Nat → σ → Option (Int × σ)} {calls : Nat → List ν} {is : List Nat}
    (h : ∀ i ∈ is, ∀ arg, visit i arg = some (callEach f (calls i) arg)) (arg : σ) :
    artEach visit is arg = some (callEach f (is.flatMap calls) arg) := by
  induction is generalizing arg with
  | nil => rfl
  | cons i is ih =>
    rw [artEach, h i mem_cons_self, flatMap_cons, callEach_append, bind_eq_bind, bind_some]
    dsimp only
    split
    · rfl
    · exact ih (fun i' hi' => h i' (mem_cons_of_mem i hi')) _

end

/-! ## What a walk visits -/

section

variable {ν τ σ : Type}

/-- A prefix, if there is a route for it. -/
def ownPrefix (R : List Bool → Option ν) (p : List Bool) : List (List Bool) :=
  if (R p).isSome then [p] else []

/-- The prefixes below a table at `g`, in the order of the walk. -/
@[simp] def walkPrefixes (mem : ArtMem ν τ) (R : List Bool → Option ν) :
    Nat → τ → List Bool → List (List Bool)
  | 0, _, _ => []
  | fuel + 1, t, g =>
    match mem t with
    | none => []
    | some tbl =>
      (artOrder tbl.minfringe tbl.minfringe 1).flatMap (fun i => ownPrefix R (heapStr i ++ g))
        ++ (List.range' tbl.minfringe tbl.minfringe).flatMap fun i =>
          ownPrefix R (heapStr i ++ g)
            ++ match tbl.heap i with
              | .node _ => []
              | .child c => walkPrefixes mem R fuel c (heapStr i ++ g)

variable {s : ArtState ν τ} {T : List Bool → Option τ} {g u : List Bool} {t : τ}
  {tbl : ArtTable ν τ} {fuel : Nat}

/-- A slot of a table is visited if its prefix has a route. -/
theorem ArtInv.visit [DecidableEq ν] [DecidableEq τ] (h : ArtInv s T)
    (ht : TableRep s.ar.bits T (artValue s.ar.bits (routeOf s.routes))
      (routeCount s.ar.bits s.routes) g tbl) (hu : u ≠ []) (hle : u.length ≤ tbl.bits)
    (f : ArtCallback ν σ) (arg : σ) :
    artVisit f (tbl.heap (heapIdx u / 2))
        (.node (artValue s.ar.bits (routeOf s.routes) (u ++ g))) arg
      = some (callEach f ((ownPrefix (routeOf s.routes) (u ++ g)).filterMap (routeOf s.routes))
          arg) := by
  cases u with
  | nil => exact absurd rfl hu
  | cons b u =>
    have hlen : g.length ≤ (u ++ g).length := by
      rw [length_append]
      exact Nat.le_add_left ..
    have hvalue : artValue s.ar.bits (routeOf s.routes) (b :: u ++ g)
        = (routeOf s.routes (b :: u ++ g)).or
            (longestCover (routeOf s.routes) g.length (u ++ g)) := by
      rw [artValue_of_ne (append_ne_nil_of_left_ne_nil hu g), ht.strideStart_eq hu hle,
        cons_append, longestCover_cons hlen]
    rw [heapIdx_cons_div, ht.inner u hle]
    cases hroute : routeOf s.routes (b :: u ++ g) with
    | some an =>
      -- the route of the slot above is another one
      have hne : some an ≠ artValue s.ar.bits (routeOf s.routes) (u ++ g) :=
        h.value_ne [b] an (cons_ne_nil b []) hroute
      have hnext : ArtItem.node (artValue s.ar.bits (routeOf s.routes) (u ++ g))
          ≠ (ArtItem.node (some an) : ArtItem ν τ) :=
        fun heq => hne (ArtItem.node.inj heq).symm
      rw [hvalue, hroute, some_or]
      simp only [artVisit, if_neg hnext, ownPrefix, hroute, isSome_some, if_true,
        filterMap_cons, filterMap_nil, callEach_singleton]
    | none =>
      rw [hvalue, hroute, none_or]
      simp only [ownPrefix, hroute, isSome_none, Bool.false_eq_true, if_false,
        filterMap_nil, callEach]
      by_cases hnil : u = []
      · -- the default of the table does not count
        subst hnil
        rw [nil_append, longestCover_of_length_le (Nat.le_refl _)]
        rfl
      · have hsame : longestCover (routeOf s.routes) g.length (u ++ g)
            = artValue s.ar.bits (routeOf s.routes) (u ++ g) := by
          rw [artValue_of_ne (append_ne_nil_of_left_ne_nil hnil g),
            ht.strideStart_eq hnil (Nat.le_of_succ_le hle)]
        rw [hsame]
        cases artValue s.ar.bits (routeOf s.routes) (u ++ g) with
        | none => rfl
        | some an => simp only [artVisit, if_true]

variable {c : List Bool → Int} {V : List Bool → Option ν} {bits : List Nat}

theorem TableRep.heapStr_length (ht : TableRep bits T V c g tbl) {i : Nat} (hi : 2 ≤ i) :
    heapStr i ≠ [] ∧ (i < tbl.minfringe → (heapStr i).length < tbl.bits) ∧
      (tbl.minfringe ≤ i → i < 2 * tbl.minfringe → (heapStr i).length = tbl.bits) := by
  have hidx := heapIdx_heapStr (show 0 < i by omega)
  refine ⟨?_, fun hlt => ?_, fun hge hlt => ?_⟩
  · intro hnil
    rw [hnil] at hidx
    have hone : heapIdx [] = 1 := rfl
    omega
  · rw [← heapIdx_lt_two_pow_iff, hidx, ← ht.minfringe]
    exact hlt
  · have hhi : (heapStr i).length < tbl.bits + 1 := by
      rw [← heapIdx_lt_two_pow_iff, hidx, Nat.pow_succ, ← ht.minfringe, Nat.mul_comm]
      exact hlt
    have hlo : ¬ (heapStr i).length < tbl.bits := by
      rw [← heapIdx_lt_two_pow_iff, hidx, ← ht.minfringe]
      exact Nat.not_lt_of_le hge
    omega

theorem TableRep.two_le_minfringe {alen : Nat} (ht : TableRep bits T V c g tbl) (hb : ByteStrides bits alen) :
    2 ≤ tbl.minfringe := by
  rw [ht.minfringe]
  exact Nat.le_self_pow (Nat.ne_of_gt (ht.bits_pos hb)) 2

theorem ArtInv.fuel_below (h : ArtInv s T) (hmem : s.mem t = some tbl)
    (ht : TableRep s.ar.bits T (artValue s.ar.bits (routeOf s.routes))
      (routeCount s.ar.bits s.routes) g tbl)
    (hfuel : ∀ tbl, s.mem t = some tbl → s.ar.bits.length ≤ fuel + 1 + tbl.level) {c : τ}
    (hu : u.length = tbl.bits) (hc : T (u ++ g) = some c) (sub : ArtTable ν τ)
    (hsub : s.mem c = some sub) : s.ar.bits.length ≤ fuel + sub.level := by
  obtain ⟨sub', hsub', hsrep⟩ := h.rep.table _ _ hc
  obtain rfl : sub = sub' := Option.some.inj (hsub.symm.trans hsub')
  have hlevel := h.rep.level_lt ht hsrep (by rw [length_append, hu, Nat.add_comm])
  have hbound := hfuel tbl hmem
  omega

/-- A walk of a table calls the callback for the nodes of these prefixes. -/
theorem ArtInv.tableWalk [DecidableEq ν] [DecidableEq τ] (h : ArtInv s T) (hT : T g = some t)
    (hfuel : ∀ tbl, s.mem t = some tbl → s.ar.bits.length ≤ fuel + tbl.level)
    (f : ArtCallback ν σ) (arg : σ) :
    artTableWalk s.mem f fuel t arg
      = some (callEach f
          ((walkPrefixes s.mem (routeOf s.routes) fuel t g).filterMap (routeOf s.routes)) arg) := by
  induction fuel generalizing t g arg with
  | zero =>
    exact absurd hfuel (h.rep.needs_fuel hT)
  | succ fuel ih =>
    obtain ⟨tbl, hmem, ht⟩ := h.rep.table _ _ hT
    have hminfringe := ht.two_le_minfringe h.rep.strides
    -- the slots in front of the fringe
    have hinner : ∀ arg, artEach (fun i arg => artVisit f (tbl.heap (i / 2)) (tbl.heap i) arg)
            (artOrder tbl.minfringe tbl.minfringe 1) arg
          = some (callEach f ((artOrder tbl.minfringe tbl.minfringe 1).flatMap fun i =>
              (ownPrefix (routeOf s.routes) (heapStr i ++ g)).filterMap (routeOf s.routes)) arg) := by
      refine fun arg => artEach_eq (fun i hi arg => ?_) arg
      obtain ⟨htwo, hlt⟩ := mem_artOrder_one.1 hi
      obtain ⟨hne, hshort, -⟩ := ht.heapStr_length htwo
      have hvisit := h.visit ht hne (Nat.le_of_lt (hshort hlt)) f arg
      have hitem := ht.inner _ (hshort hlt)
      rw [heapIdx_heapStr (by omega)] at hvisit hitem
      rw [hitem]
      exact hvisit
    -- the fringe, with the subtables
    have hfringe : ∀ arg, artEach (fun i arg =>
            match tbl.heap i with
            | .node an => artVisit f (tbl.heap (i / 2)) (.node an) arg
            | .child c => (s.mem c).bind fun sub =>
              (artVisit f (tbl.heap (i / 2)) sub.dflt arg).bind fun r =>
                if r.1 ≠ 0 then some r else artTableWalk s.mem f fuel c r.2)
            (List.range' tbl.minfringe tbl.minfringe) arg
          = some (callEach f ((List.range' tbl.minfringe tbl.minfringe).flatMap fun i =>
              (ownPrefix (routeOf s.routes) (heapStr i ++ g)
                ++ match tbl.heap i with
                  | .node _ => []
                  | .child c => walkPrefixes s.mem (routeOf s.routes) fuel c
                    (heapStr i ++ g)).filterMap (routeOf s.routes)) arg) := by
      refine fun arg => artEach_eq (fun i hi arg => ?_) arg
      obtain ⟨hlo, hhi⟩ := mem_range'_1.1 hi
      obtain ⟨hne, -, hlast⟩ := ht.heapStr_length (show 2 ≤ i by omega)
      have hlen := hlast hlo (by omega)
      have hvisit := h.visit ht hne (Nat.le_of_eq hlen) f arg
      have hitem := ht.fringe _ hlen
      rw [heapIdx_heapStr (by omega)] at hvisit hitem
      rw [filterMap_append, callEach_append]
      cases hc : T (heapStr i ++ g) with
      | none =>
        rw [artItem, hc] at hitem
        rw [hitem]
        dsimp only
        rw [hvisit, filterMap_nil, callEach]
        split
        · rfl
        · next hok => rw [← not_not.1 hok]
      | some c =>
        obtain ⟨sub, hsub, hsrep⟩ := h.rep.table _ _ hc
        rw [artItem, hc] at hitem
        rw [hitem]
        dsimp only
        rw [hsub, bind_some, hsrep.dflt h.rep.strides, hvisit, bind_some]
        split
        · rfl
        · exact ih hc (h.fuel_below hmem ht hfuel hlen hc) _
    rw [artTableWalk, hmem, bind_eq_bind, bind_some, hinner, bind_eq_bind, bind_some]
    rw [walkPrefixes, hmem]
    dsimp only
    rw [filterMap_append, callEach_append, filterMap_flatMap, filterMap_flatMap]
    split
    · rfl
    · exact hfringe _

theorem mem_ownPrefix {R : List Bool → Option ν} {p q : List Bool} :
    p ∈ ownPrefix R q ↔ p = q ∧ (R q).isSome := by
  rw [ownPrefix]
  split
  · next hsome => simp only [mem_singleton, hsome, and_true]
  · next hnone => simp only [not_mem_nil, hnone, Bool.false_eq_true, and_false]

/-- The walk of a table visits the prefixes below it that have routes. -/
theorem ArtInv.mem_walkPrefixes (h : ArtInv s T) (hT : T g = some t)
    (hfuel : ∀ tbl, s.mem t = some tbl → s.ar.bits.length ≤ fuel + tbl.level) {p : List Bool} :
    p ∈ walkPrefixes s.mem (routeOf s.routes) fuel t g ↔
      (∃ u, u ≠ [] ∧ p = u ++ g) ∧ (routeOf s.routes p).isSome := by
  induction fuel generalizing t g with
  | zero =>
    exact absurd hfuel (h.rep.needs_fuel hT)
  | succ fuel ih =>
    obtain ⟨tbl, hmem, ht⟩ := h.rep.table _ _ hT
    have hminfringe := ht.two_le_minfringe h.rep.strides
    rw [walkPrefixes, hmem]
    dsimp only
    rw [mem_append, mem_flatMap, mem_flatMap]
    constructor
    · rintro (⟨i, hi, hown⟩ | ⟨i, hi, hin⟩)
      · obtain ⟨rfl, hsome⟩ := mem_ownPrefix.1 hown
        exact ⟨⟨_, (ht.heapStr_length (mem_artOrder_one.1 hi).1).1, rfl⟩, hsome⟩
      · obtain ⟨hlo, hhi⟩ := mem_range'_1.1 hi
        obtain ⟨hne, -, hlast⟩ := ht.heapStr_length (show 2 ≤ i by omega)
        have hlen := hlast hlo (by omega)
        rcases mem_append.1 hin with hown | hbelow
        · obtain ⟨rfl, hsome⟩ := mem_ownPrefix.1 hown
          exact ⟨⟨_, hne, rfl⟩, hsome⟩
        · have hitem := ht.fringe _ hlen
          rw [heapIdx_heapStr (by omega), artItem] at hitem
          cases hc : T (heapStr i ++ g) with
          | none =>
            rw [hitem, hc] at hbelow
            exact absurd hbelow not_mem_nil
          | some c =>
            rw [hitem, hc] at hbelow
            obtain ⟨⟨u, hu, rfl⟩, hsome⟩ := (ih hc (h.fuel_below hmem ht hfuel hlen hc)).1 hbelow
            exact ⟨⟨u ++ heapStr i, append_ne_nil_of_left_ne_nil hu _,
              (append_assoc ..).symm⟩, hsome⟩
    · rintro ⟨⟨u, hu, rfl⟩, hsome⟩
      by_cases hlt : u.length < tbl.bits
      · -- in front of the fringe
        refine .inl ⟨heapIdx u, mem_artOrder_one.2 ⟨?_, ?_⟩, ?_⟩
        · obtain ⟨b, u', rfl⟩ := exists_cons_of_ne_nil hu
          exact two_le_heapIdx_cons b u'
        · rwa [ht.minfringe, heapIdx_lt_two_pow_iff]
        · rw [heapStr_heapIdx]
          exact mem_ownPrefix.2 ⟨rfl, hsome⟩
      · obtain ⟨w, v, rfl, hv⟩ : ∃ w v, u = w ++ v ∧ v.length = tbl.bits := by
          refine ⟨_, _, (take_append_drop (u.length - tbl.bits) u).symm, ?_⟩
          rw [length_drop]
          omega
        have hlo : ¬ heapIdx v < tbl.minfringe := by
          rw [ht.minfringe, heapIdx_lt_two_pow_iff]
          omega
        have hhi : heapIdx v < 2 * tbl.minfringe := by
          rw [ht.minfringe, Nat.mul_comm, ← Nat.pow_succ, heapIdx_lt_two_pow_iff]
          omega
        refine .inr ⟨heapIdx v, mem_range'_1.2 ⟨Nat.le_of_not_lt hlo, by omega⟩, ?_⟩
        rw [heapStr_heapIdx]
        by_cases hw : w = []
        · subst hw
          exact mem_append_left _ (mem_ownPrefix.2 ⟨rfl, hsome⟩)
        · refine mem_append_right _ ?_
          obtain ⟨a, ha⟩ := isSome_iff_exists.1 hsome
          have hwpos := length_pos_iff.2 hw
          have hdrop : (w ++ v ++ g).length - strideSum s.ar.bits (tbl.level + 1) = w.length := by
            rw [strideSum_succ ht.stride, ← ht.start, length_append, length_append, hv]
            omega
          have hbelow := h.table_of_route (l := tbl.level + 1) (mem_of_routeOf ha) (by omega)
          rw [hdrop, append_assoc, drop_left] at hbelow
          obtain ⟨c, hc⟩ := isSome_iff_exists.1 hbelow
          have hitem := ht.fringe v hv
          rw [artItem, hc] at hitem
          rw [hitem]
          exact (ih hc (h.fuel_below hmem ht hfuel hv hc)).2 ⟨⟨w, hw, append_assoc ..⟩, hsome⟩

theorem ArtInv.fringe_suffix (h : ArtInv s T) (hmem : s.mem t = some tbl)
    (ht : TableRep s.ar.bits T (artValue s.ar.bits (routeOf s.routes))
      (routeCount s.ar.bits s.routes) g tbl)
    (hfuel : ∀ tbl, s.mem t = some tbl → s.ar.bits.length ≤ fuel + 1 + tbl.level) {i : Nat}
    (hi : 0 < i) (hlen : (heapStr i).length = tbl.bits) {p : List Bool}
    (hp : p ∈ ownPrefix (routeOf s.routes) (heapStr i ++ g)
      ++ match tbl.heap i with
        | .node _ => []
        | .child c => walkPrefixes s.mem (routeOf s.routes) fuel c (heapStr i ++ g)) :
    heapStr i ++ g <:+ p := by
  rcases mem_append.1 hp with hown | hbelow
  · rw [(mem_ownPrefix.1 hown).1]
  · have hitem := ht.fringe _ hlen
    rw [heapIdx_heapStr hi, artItem] at hitem
    cases hc : T (heapStr i ++ g) with
    | none =>
      rw [hitem, hc] at hbelow
      exact absurd hbelow not_mem_nil
    | some c =>
      rw [hitem, hc] at hbelow
      obtain ⟨⟨u, -, rfl⟩, -⟩ :=
        (h.mem_walkPrefixes hc (h.fuel_below hmem ht hfuel hlen hc)).1 hbelow
      exact suffix_append ..

/-- A walk of a table visits each prefix once. -/
theorem ArtInv.nodup_walkPrefixes (h : ArtInv s T) (hT : T g = some t)
    (hfuel : ∀ tbl, s.mem t = some tbl → s.ar.bits.length ≤ fuel + tbl.level) :
    (walkPrefixes s.mem (routeOf s.routes) fuel t g).Nodup := by
  induction fuel generalizing t g with
  | zero => exact nodup_nil
  | succ fuel ih =>
    obtain ⟨tbl, hmem, ht⟩ := h.rep.table _ _ hT
    have hminfringe := ht.two_le_minfringe h.rep.strides
    have hown : ∀ q, (ownPrefix (routeOf s.routes) q).Nodup := by
      intro q
      rw [ownPrefix]
      split
      · exact nodup_singleton q
      · exact nodup_nil
    -- two slots have two strings
    have hstr : ∀ i i', 2 ≤ i → 2 ≤ i' → heapStr i ++ g = heapStr i' ++ g → i = i' := by
      intro i i' hi hi' heq
      rw [← heapIdx_heapStr (show 0 < i by omega), append_cancel_right heq,
        heapIdx_heapStr (by omega)]
    have hslot : ∀ i ∈ List.range' tbl.minfringe tbl.minfringe,
        2 ≤ i ∧ (heapStr i).length = tbl.bits := by
      intro i hi
      obtain ⟨hlo, hhi⟩ := mem_range'_1.1 hi
      have htwo : 2 ≤ i := by omega
      exact ⟨htwo, (ht.heapStr_length htwo).2.2 hlo (by omega)⟩
    rw [walkPrefixes, hmem]
    dsimp only
    refine nodup_append'.2 ⟨nodup_flatMap.2 ⟨fun i _ => hown _, ?_⟩,
      nodup_flatMap.2 ⟨fun i hi => ?_, ?_⟩, ?_⟩
    · refine (nodup_artOrder rfl).pairwise_of_forall_ne fun i hi i' hi' hne p hp hp' => ?_
      have heq := (mem_ownPrefix.1 hp).1.symm.trans (mem_ownPrefix.1 hp').1
      exact hne (hstr i i' (mem_artOrder_one.1 hi).1 (mem_artOrder_one.1 hi').1 heq)
    · -- the slot's own prefix is not below it
      obtain ⟨htwo, hlen⟩ := hslot i hi
      refine nodup_append'.2 ⟨hown _, ?_, ?_⟩
      · have hitem := ht.fringe _ hlen
        rw [heapIdx_heapStr (by omega), artItem] at hitem
        rw [hitem]
        cases hc : T (heapStr i ++ g) with
        | none => exact nodup_nil
        | some c => exact ih hc (h.fuel_below hmem ht hfuel hlen hc)
      · intro p hp hbelow
        have hitem := ht.fringe _ hlen
        rw [heapIdx_heapStr (by omega), artItem] at hitem
        cases hc : T (heapStr i ++ g) with
        | none =>
          rw [hitem, hc] at hbelow
          exact absurd hbelow not_mem_nil
        | some c =>
          rw [hitem, hc] at hbelow
          obtain ⟨⟨u, hu, heq⟩, -⟩ :=
            (h.mem_walkPrefixes hc (h.fuel_below hmem ht hfuel hlen hc)).1 hbelow
          rw [(mem_ownPrefix.1 hp).1] at heq
          exact hu (append_left_eq_self.1 heq.symm)
    · refine (nodup_range' ..).pairwise_of_forall_ne fun i hi i' hi' hne p hp hp' => ?_
      obtain ⟨htwo, hlen⟩ := hslot i hi
      obtain ⟨htwo', hlen'⟩ := hslot i' hi'
      have hsuffix := h.fringe_suffix hmem ht hfuel (by omega) hlen hp
      have hsuffix' := h.fringe_suffix hmem ht hfuel (by omega) hlen' hp'
      have hsame : (heapStr i ++ g).length = (heapStr i' ++ g).length := by
        rw [length_append, length_append, hlen, hlen']
      exact hne (hstr i i' htwo htwo' ((suffix_of_suffix_length_le hsuffix hsuffix'
        (Nat.le_of_eq hsame)).eq_of_length hsame))
    · intro p hp hp'
      obtain ⟨i, hi, hin⟩ := mem_flatMap.1 hp
      obtain ⟨i', hi', hin'⟩ := mem_flatMap.1 hp'
      obtain ⟨htwo, hlt⟩ := mem_artOrder_one.1 hi
      obtain ⟨htwo', hlen'⟩ := hslot i' hi'
      have hshort := (ht.heapStr_length htwo).2.1 hlt
      have hle := (h.fringe_suffix hmem ht hfuel (by omega) hlen' hin').length_le
      rw [(mem_ownPrefix.1 hin).1, length_append, length_append, hlen'] at hle
      omega

/-! ## art_walk -/

def walkNodes (s : ArtState ν τ) : List ν :=
  (ownPrefix (routeOf s.routes) []
    ++ walkPrefixes s.mem (routeOf s.routes) artMaxlvl s.ar.root []).filterMap (routeOf s.routes)

theorem ArtInv.root_fuel (h : ArtInv s T) (tbl : ArtTable ν τ)
    (_ : s.mem s.ar.root = some tbl) : s.ar.bits.length ≤ artMaxlvl + tbl.level :=
  Nat.le_add_right_of_le h.rep.strides.few

theorem ArtInv.walk [DecidableEq ν] [DecidableEq τ] (h : ArtInv s T) (f : ArtCallback ν σ)
    (arg : σ) : artWalk s.ar s.mem f arg = some (callEach f (walkNodes s) arg) := by
  obtain ⟨tbl, hmem, ht⟩ := h.rep.table _ _ h.rep.root
  have hdflt := ht.dflt h.rep.strides
  rw [artValue_nil] at hdflt
  cases hroute : routeOf s.routes [] with
  | none =>
    have hown : ownPrefix (routeOf s.routes) [] = [] := by
      rw [ownPrefix, hroute]
      rfl
    simp only [artWalk, hmem, hdflt, hroute, ArtItem.asNode, bind_eq_bind, bind_some]
    rw [walkNodes, hown, nil_append]
    exact h.tableWalk h.rep.root h.root_fuel f arg
  | some an =>
    have hown : ownPrefix (routeOf s.routes) [] = [[]] := by
      rw [ownPrefix, hroute]
      rfl
    simp only [artWalk, hmem, hdflt, hroute, ArtItem.asNode, bind_eq_bind,
      bind_some, Option.pure_def]
    rw [walkNodes, hown, filterMap_append, filterMap_cons, hroute,
      filterMap_nil, callEach_append, callEach_singleton]
    split
    · rfl
    · exact h.tableWalk h.rep.root h.root_fuel f _

theorem ArtInv.nodup_walkNodes (h : ArtInv s T) : (walkNodes s).Nodup := by
  refine List.Nodup.filterMap (fun p p' an hp hp' => routeOf_inj h.nodes hp hp') ?_
  refine nodup_append'.2 ⟨?_, h.nodup_walkPrefixes h.rep.root h.root_fuel, ?_⟩
  · rw [ownPrefix]
    split
    · exact nodup_singleton _
    · exact nodup_nil
  · intro p hp hp'
    obtain ⟨⟨u, hu, rfl⟩, -⟩ := (h.mem_walkPrefixes h.rep.root h.root_fuel).1 hp'
    rw [append_nil] at hp
    exact hu (mem_ownPrefix.1 hp).1

theorem ArtInv.mem_walkNodes_iff (h : ArtInv s T) {an : ν} :
    an ∈ walkNodes s ↔ ∃ P, (P, an) ∈ s.routes := by
  rw [walkNodes, mem_filterMap]
  constructor
  · rintro ⟨p, -, hp⟩
    exact ⟨p, mem_of_routeOf hp⟩
  · rintro ⟨P, hP⟩
    have hroute := (routeOf_eq_some_iff h.keys).2 hP
    have hsome : (routeOf s.routes P).isSome := isSome_of_eq_some hroute
    refine ⟨P, mem_append.2 ?_, hroute⟩
    by_cases hnil : P = []
    · exact .inl (mem_ownPrefix.2 ⟨hnil, hnil ▸ hsome⟩)
    · exact .inr ((h.mem_walkPrefixes h.rep.root h.root_fuel).2
        ⟨⟨P, hnil, (append_nil P).symm⟩, hsome⟩)

variable [DecidableEq ν] [DecidableEq τ] {off : Nat} {new : Option τ} {ar : ArtRoot τ}
  {mem : ArtMem ν τ} {plenOf : ν → Nat} {es : List (ArtCall ν τ)}

/-- A callback that returns 0 is called once for every node in the table, and for nothing
    else. -/
theorem artWalk_each_once (hinit : artAttach off new = some (ar, mem))
    (hrun : Run artStep (fun _ _ => True) (artInit plenOf ar mem) es s) :
    ∃ calls : List ν, calls.Nodup ∧ (∀ an, an ∈ calls ↔ ∃ P, (P, an) ∈ s.routes) ∧
      ∀ (σ : Type) (f : ν → σ → σ) (arg : σ), artWalk s.ar s.mem (fun an arg => (0, f an arg)) arg
          = some (0, calls.foldl (fun arg an => f an arg) arg) := by
  obtain ⟨T, h⟩ := exists_artInv hinit hrun
  refine ⟨walkNodes s, h.nodup_walkNodes, fun an => h.mem_walkNodes_iff, fun σ f arg => ?_⟩
  rw [h.walk, callEach_of_zero]

theorem artWalk_each_once_ten : ∃ mem s, artAttach 32 (some 0) = some (arTen, mem) ∧
    Run artStep (fun _ _ => True) (artInit (fun _ => 0) arTen mem) [insertTen 8] s ∧
    artWalk s.ar s.mem (fun an ans => (0, ans ++ [an])) [] = some (0, [7]) := by
  obtain ⟨mem, s, T, hinit, hstep, -, -, hroutes⟩ := exists_insertTen 8 (by decide)
  have hrun : Run artStep (fun _ _ => True) (artInit (fun _ => 0) arTen mem) [insertTen 8] s :=
    .cons trivial hstep (.nil s)
  obtain ⟨calls, hnodup, hcalls, hwalk⟩ := artWalk_each_once hinit hrun
  have hperm : calls.Perm [7] := by
    refine (perm_ext_iff_of_nodup hnodup (nodup_singleton 7)).2 fun an => ?_
    rw [hcalls, hroutes]
    simp
  refine ⟨mem, s, hinit, hrun, ?_⟩
  rw [hwalk, perm_singleton.1 hperm]
  rfl

end

end OpenBsd.Net
