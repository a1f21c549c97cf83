/-
  OpenBsd.Net.ArtRun

  Insertions and deletions of `sys/net/art.c`, and what holds after any sequence of them.
-/

import OpenBsd.Net.ArtRoutes

namespace OpenBsd.Net

open OpenBsd.Lib List Function

section

variable {ν τ : Type} [DecidableEq ν] [DecidableEq τ]

variable {ar : ArtRoot τ} {mem : ArtMem ν τ} {T : List Bool → Option τ}
  {V : List Bool → Option ν} {c : List Bool → Int} {g s : List Bool} {t : τ}
  {tbl : ArtTable ν τ} {addr : Nat → BitVec 8} {plenOf : ν → Nat} {an : ν}

/-! ## One table -/

omit [DecidableEq ν] in
theorem ArtRep.setFringe (h : ArtRep ar mem T V c) (hT : T g = some t) (hmem : mem t = some tbl)
    (ht : TableRep ar.bits T V c g tbl) (hs : s.length = tbl.bits) (new : Option ν) :
    ∃ mem', (match tbl.heap (heapIdx s) with
        | .child c => ArtMem.setItem mem c 1 (.node new)
        | .node _ => ArtMem.setItem mem t (heapIdx s) (.node new)) = some mem' ∧
      ArtRep ar mem' T (update V (s ++ g) new) c := by
  have hitem := ht.fringe s hs
  cases hc : T (s ++ g) with
  | some c' =>
    obtain ⟨sub, hsub, hrep⟩ := h.table _ _ hc
    obtain ⟨hset, hrep'⟩ := h.setItem hc hsub hrep (Nat.zero_le _)
      (fun hz : ([] : List Bool).length = sub.bits =>
        absurd hz (Nat.ne_of_lt (hrep.bits_pos h.strides))) new
    rw [artItem, hc] at hitem
    refine ⟨_, ?_, hrep'⟩
    rw [hitem]
    exact hset
  | none =>
    obtain ⟨hset, hrep'⟩ := h.setItem hT hmem ht (Nat.le_of_eq hs) (fun _ => hc) new
    rw [artItem, hc] at hitem
    refine ⟨_, ?_, hrep'⟩
    rw [hitem]
    exact hset

theorem ArtRep.assign (h : ArtRep ar mem T V c) (hT : T g = some t) (hmem : mem t = some tbl)
    (ht : TableRep ar.bits T V c g tbl) (hle : s.length ≤ tbl.bits) (new : Option ν) :
    ∃ mem', (if heapIdx s < tbl.minfringe then artAllot mem t (heapIdx s) (V (s ++ g)) new
        else match tbl.heap (heapIdx s) with
          | .child c => ArtMem.setItem mem c 1 (.node new)
          | .node _ => ArtMem.setItem mem t (heapIdx s) (.node new)) = some mem' ∧
      ArtRep ar mem' T (replaceDown (V (s ++ g)) new (tbl.bits - s.length) (s ++ g) V) c := by
  rcases Nat.lt_or_eq_of_le hle with hlt | heq
  · have hinner : heapIdx s < tbl.minfringe := by
      rwa [ht.minfringe, heapIdx_lt_two_pow_iff]
    obtain ⟨n, hn⟩ := Nat.exists_eq_add_of_lt hlt
    have hdepth : tbl.bits - s.length = n + 1 := by omega
    rw [if_pos hinner, hdepth]
    exact h.allot hT ht.start ht.stride (by omega)
  · have hfringe : ¬ heapIdx s < tbl.minfringe := by
      rw [ht.minfringe, heapIdx_lt_two_pow_iff]
      omega
    rw [if_neg hfringe, heq, Nat.sub_self]
    exact h.setFringe hT hmem ht heq new

theorem ArtRep.tableInsert_duplicate (h : ArtRep ar mem T V c) (plenOf : ν → Nat) (an : ν)
    (hmem : mem t = some tbl) (ht : TableRep ar.bits T V c g tbl) (hle : s.length ≤ tbl.bits)
    (hdup : artCheckDuplicate plenOf (V (s ++ g)) an = true) :
    artTableInsert plenOf mem t (heapIdx s) an = some (mem, V (s ++ g)) := by
  simp only [artTableInsert, hmem, Option.bind_eq_bind, Option.bind_some, h.slotNode ht hle, hdup,
    if_true]
  rfl

theorem ArtRep.tableInsert (h : ArtRep ar mem T V c) (hT : T g = some t) (hmem : mem t = some tbl)
    (ht : TableRep ar.bits T V c g tbl) (hle : s.length ≤ tbl.bits)
    (hdup : artCheckDuplicate plenOf (V (s ++ g)) an = false) :
    ∃ mem', artTableInsert plenOf mem t (heapIdx s) an = some (mem', some an) ∧
      ArtRep ar mem' T (replaceDown (V (s ++ g)) (some an) (tbl.bits - s.length) (s ++ g) V)
        (update c g (c g + 1)) := by
  have hrep := h.setRefcnt hT hmem ht (tbl.refcnt + 1)
  have ht' : TableRep ar.bits T V (update c g (tbl.refcnt + 1)) g
      { tbl with refcnt := tbl.refcnt + 1 } :=
    ⟨ht.stride, ht.start, ht.offset, ht.minfringe, by rw [update_self], ht.inner, ht.fringe⟩
  obtain ⟨mem', hset, hrep'⟩ := hrep.assign hT (update_self ..) ht' hle (some an)
  refine ⟨mem', ?_, ht.refcnt ▸ hrep'⟩
  simp only [artTableInsert, hmem, Option.bind_eq_bind, Option.bind_some, h.slotNode ht hle, hdup,
    artTableRef, update_self, Option.pure_def, Bool.false_eq_true, if_false]
  split at hset
  · next hinner =>
    rw [if_pos hinner, hset]
    rfl
  · next hfringe =>
    rw [if_neg hfringe]
    revert hset
    dsimp only
    cases tbl.heap (heapIdx s) <;> intro hset <;> simp only [hset, Option.bind_some]

omit [DecidableEq ν] in
theorem artTableFree_of_ne {fuel : Nat} (hmem : mem t = some tbl) (hne : tbl.refcnt - 1 ≠ 0) :
    artTableFree (fuel + 1) mem t
      = some (update mem t (some { tbl with refcnt := tbl.refcnt - 1 }), false) := by
  simp only [artTableFree, hmem, Option.bind_eq_bind, Option.bind_some, if_neg hne]
  rfl

/-- `art_table_delete` of a prefix that is not the only one counted in its table. -/
theorem ArtRep.tableDelete (h : ArtRep ar mem T V c) (hT : T g = some t) (hmem : mem t = some tbl)
    (ht : TableRep ar.bits T V c g tbl) {b : Bool} (hle : (b :: s).length ≤ tbl.bits)
    (hV : V (b :: s ++ g) = some an) (hc : 2 ≤ c g) :
    ∃ mem', artTableDelete mem t (heapIdx (b :: s)) an = some (mem', some an) ∧
      ArtRep ar mem' T
        (replaceDown (some an) (if s = [] then none else V (s ++ g)) (tbl.bits - (b :: s).length)
          (b :: s ++ g) V) (update c g (c g - 1)) := by
  have hrep := h.setRefcnt hT hmem ht (tbl.refcnt - 1)
  have ht' : TableRep ar.bits T V (update c g (tbl.refcnt - 1)) g
      { tbl with refcnt := tbl.refcnt - 1 } :=
    ⟨ht.stride, ht.start, ht.offset, ht.minfringe, by rw [update_self], ht.inner, ht.fringe⟩
  obtain ⟨mem', hset, hrep'⟩ := hrep.assign hT (update_self ..) ht' hle
    (if s = [] then none else V (s ++ g))
  refine ⟨mem', ?_, by rw [← hV, ← ht.refcnt]; exact hrep'⟩
  have hslot := h.slotNode ht hle
  have hne : tbl.refcnt - 1 ≠ 0 := by
    rw [ht.refcnt]
    omega
  have hfree : artTableFree artFreeFuel mem t
      = some (update mem t (some { tbl with refcnt := tbl.refcnt - 1 }), false) :=
    artTableFree_of_ne hmem hne
  -- the next most specific route is that of the slot above, if this is not the default's
  have hnext : ArtTable.nextRoute { tbl with refcnt := tbl.refcnt - 1 } (heapIdx (b :: s))
      = some (if s = [] then none else V (s ++ g)) := by
    rw [ArtTable.nextRoute, heapIdx_cons_div]
    cases s with
    | nil => rfl
    | cons b' s =>
      have htwo : 1 < heapIdx (b' :: s) := two_le_heapIdx_cons b' s
      rw [if_pos htwo, if_neg (cons_ne_nil b' s), ht.inner (b' :: s) hle]
      rfl
  rw [hV] at hset hslot
  simp only [artTableDelete, hmem, Option.bind_eq_bind, Option.bind_some, hslot, guard, if_true,
    hfree, update_self, hnext, Option.pure_def, Bool.false_eq_true, if_false]
  split at hset
  · next hinner =>
    rw [if_pos hinner, hset]
    rfl
  · next hfringe =>
    rw [if_neg hfringe]
    revert hset
    dsimp only
    cases tbl.heap (heapIdx (b :: s)) <;> intro hset <;> simp only [hset, Option.bind_some]

end

/-! ## All tables -/

section

variable {ν τ : Type} [DecidableEq ν] [DecidableEq τ]

/-- The tables hold the routes: each prefix and each node once, with the node's length and
    a table for its stride. -/
structure ArtInv (s : ArtState ν τ) (T : List Bool → Option τ) : Prop where
  rep : ArtRep s.ar s.mem T (artValue s.ar.bits (routeOf s.routes))
    (routeCount s.ar.bits s.routes)
  keys : (s.routes.map Prod.fst).Nodup
  nodes : (s.routes.map Prod.snd).Nodup
  plen : ∀ e ∈ s.routes, s.plenOf e.2 = e.1.length ∧ e.1.length ≤ s.ar.alen
  home : ∀ e ∈ s.routes, e.1 ≠ [] → (T (strideHead s.ar.bits e.1)).isSome

variable {s : ArtState ν τ} {T : List Bool → Option τ} {addr : Nat → BitVec 8} {an : ν}
  {plen : Nat} {news : List (Option τ)} {t : τ} {tbl : ArtTable ν τ}

omit [DecidableEq ν] [DecidableEq τ] in
theorem ArtInv.emptyWithout (h : ArtInv s T) :
    EmptyWithout s.ar.bits T (artValue s.ar.bits (routeOf s.routes))
      (routeCount s.ar.bits s.routes) := by
  constructor
  · intro g hg l w hl hw p hp hle
    refine Option.eq_none_iff_forall_not_mem.2 fun a ha => ?_
    obtain ⟨q, hq, hRq, hlen⟩ := artValue_eq_some ha
    have hlt := hlen (append_ne_nil_of_left_ne_nil hp g)
    have hpos := length_pos_iff.2 hp
    have hstart : strideStart s.ar.bits (p ++ g).length = g.length := by
      rw [hl]
      refine strideStart_eq hw ?_ ?_ <;> rw [length_append, hl] <;> omega
    rw [hstart] at hlt
    -- the route would be at home in the missing table
    obtain ⟨u, rfl⟩ := suffix_of_suffix_length_le (suffix_append p g) hq (Nat.le_of_lt hlt)
    have hule := hq.length_le
    rw [length_append] at hlt hule
    rw [length_append] at hule
    have hhead : strideHead s.ar.bits (u ++ g) = g := by
      have hstart' : strideStart s.ar.bits (u ++ g).length = g.length := by
        rw [hl]
        refine strideStart_eq hw ?_ ?_ <;> rw [length_append, hl] <;> omega
      rw [strideHead, hstart', length_append, Nat.add_sub_cancel, drop_left]
    have hu : u ≠ [] := by
      rintro rfl
      rw [length_nil] at hlt
      omega
    have hhome := h.home _ (mem_of_routeOf hRq) (append_ne_nil_of_left_ne_nil hu g)
    rw [hhead, hg] at hhome
    cases hhome
  · intro g hg
    rw [routeCount, countP_eq_zero.2]
    · rfl
    · intro e he hcount
      obtain ⟨hne, hhead⟩ := of_decide_eq_true hcount
      have hhome := h.home e he hne
      rw [hhead, hg] at hhome
      cases hhome

omit [DecidableEq τ] in
theorem ArtInv.duplicate_iff (h : ArtInv s T) {P : List Bool} (hfresh : an ∉ s.routes.map Prod.snd)
    (hP : strideStart s.ar.bits P.length < P.length ∨ P = []) :
    artCheckDuplicate (update s.plenOf an P.length)
        (artValue s.ar.bits (routeOf s.routes) P) an = true
      ↔ routeOf s.routes P ≠ none := by
  constructor
  · intro hdup hnone
    cases hV : artValue s.ar.bits (routeOf s.routes) P with
    | none =>
      rw [hV] at hdup
      cases hdup
    | some a =>
      rw [hV] at hdup
      obtain ⟨q, hq, hRq, -⟩ := artValue_eq_some hV
      have hmem := mem_of_routeOf hRq
      have hne : a ≠ an := by
        rintro rfl
        exact hfresh (mem_map_of_mem hmem)
      simp only [artCheckDuplicate, update_of_ne hne, update_self,
        (h.plen _ hmem).1, beq_iff_eq] at hdup
      rw [hq.eq_of_length hdup, hnone] at hRq
      cases hRq
  · intro hsome
    obtain ⟨a, ha⟩ := Option.ne_none_iff_exists'.1 hsome
    have hmem := mem_of_routeOf ha
    have hne : a ≠ an := by
      rintro rfl
      exact hfresh (mem_map_of_mem hmem)
    rw [artValue_of_some hP ha]
    simp only [artCheckDuplicate, update_of_ne hne, update_self,
      (h.plen _ hmem).1, beq_self_eq_true]

omit [DecidableEq τ] in
theorem ArtInv.same (h : ArtInv s T) {mem : ArtMem ν τ} {T' : List Bool → Option τ}
    (hfresh : an ∉ s.routes.map Prod.snd) (hmono : ∀ g t, T g = some t → T' g = some t)
    (hrep : ArtRep s.ar mem T' (artValue s.ar.bits (routeOf s.routes))
      (routeCount s.ar.bits s.routes)) :
    ArtInv { s with mem := mem, plenOf := update s.plenOf an plen } T' := by
  refine ⟨hrep, h.keys, h.nodes, ?_, ?_⟩
  · intro e he
    have hne : e.2 ≠ an := by
      rintro rfl
      exact hfresh (mem_map_of_mem he)
    refine ⟨?_, (h.plen e he).2⟩
    simp only [update_of_ne hne]
    exact (h.plen e he).1
  · intro e he hne
    obtain ⟨t, ht⟩ := Option.isSome_iff_exists.1 (h.home e he hne)
    rw [Option.isSome_iff_exists]
    exact ⟨t, hmono _ _ ht⟩

omit [DecidableEq τ] in
theorem ArtInv.cons (h : ArtInv s T) {mem : ArtMem ν τ} {T' : List Bool → Option τ}
    {P : List Bool} (hlen : P.length = plen) (hplen : plen ≤ s.ar.alen)
    (hfresh : an ∉ s.routes.map Prod.snd) (hnone : routeOf s.routes P = none)
    (hmono : ∀ g t, T g = some t → T' g = some t)
    (hhome : P ≠ [] → (T' (strideHead s.ar.bits P)).isSome)
    (hrep : ArtRep s.ar mem T'
      (artValue s.ar.bits (update (routeOf s.routes) P (some an)))
      (routeCount s.ar.bits ((P, an) :: s.routes))) :
    ArtInv ⟨s.ar, mem, update s.plenOf an plen, (P, an) :: s.routes⟩ T' := by
  refine ⟨by rw [routeOf_cons]; exact hrep, ?_, ?_, ?_, ?_⟩
  · refine nodup_cons.2 ⟨fun hmem => ?_, h.keys⟩
    obtain ⟨⟨q, a⟩, he, hq⟩ := mem_map.1 hmem
    have hqP : q = P := hq
    exact routeOf_eq_none_iff.1 hnone a (hqP ▸ he)
  · exact nodup_cons.2 ⟨hfresh, h.nodes⟩
  · intro e he
    rcases mem_cons.1 he with rfl | he
    · refine ⟨?_, hlen ▸ hplen⟩
      simp only [update_self]
      exact hlen.symm
    · exact (h.same hfresh (fun _ _ hg => hg) h.rep).plen e he
  · intro e he hne
    rcases mem_cons.1 he with rfl | he
    · exact hhome hne
    · obtain ⟨t, ht⟩ := Option.isSome_iff_exists.1 (h.home e he hne)
      rw [Option.isSome_iff_exists]
      exact ⟨t, hmono _ _ ht⟩

theorem artStep_insert {mem : ArtMem ν τ} {prev : Option ν} (hplen : plen ≤ s.ar.alen)
    (hfresh : an ∉ s.routes.map Prod.snd) (hnews : FreshNews s.mem news)
    (hrun : artInsert s.ar (update s.plenOf an plen) s.mem news an addr plen
      = some (mem, prev)) :
    artStep s (.insert an addr plen news)
      = some { s with
          mem := mem
          plenOf := update s.plenOf an plen
          routes := if prev = some an then (addrPrefix addr plen, an) :: s.routes
            else s.routes } := by
  have hguard : plen ≤ s.ar.alen ∧ an ∉ s.routes.map Prod.snd ∧ FreshNews s.mem news :=
    ⟨hplen, hfresh, hnews⟩
  simp only [artStep, guard, if_pos hguard, hrun, Option.bind_eq_bind, Option.bind_some,
    Option.pure_def]

variable {s' : ArtState ν τ}

theorem artStep_insert_allowed (h : artStep s (.insert an addr plen news) = some s') :
    plen ≤ s.ar.alen ∧ an ∉ s.routes.map Prod.snd ∧ FreshNews s.mem news :=
  (guard_bind_eq_some h).1

theorem artStep_delete_allowed (h : artStep s (.delete an addr plen) = some s') :
    plen ≤ s.ar.alen ∧ (addrPrefix addr plen, an) ∈ s.routes :=
  (guard_bind_eq_some h).1

theorem artStep_delete {mem : ArtMem ν τ} {r : Option ν} (hplen : plen ≤ s.ar.alen)
    (hmem : (addrPrefix addr plen, an) ∈ s.routes)
    (hrun : artDelete s.ar s.plenOf s.mem an addr plen = some (mem, r)) :
    artStep s (.delete an addr plen)
      = some { s with
          mem := mem
          routes := s.routes.filter fun e => e.1 ≠ addrPrefix addr plen } := by
  have hguard : plen ≤ s.ar.alen ∧ (addrPrefix addr plen, an) ∈ s.routes := ⟨hplen, hmem⟩
  simp only [artStep, guard, if_pos hguard, hrun, Option.bind_eq_bind, Option.bind_some,
    Option.pure_def]

/-- The root's default route. -/
theorem ArtInv.insert_default (h : ArtInv s T) (addr : Nat → BitVec 8)
    (hfresh : an ∉ s.routes.map Prod.snd)
    (hnews : FreshNews s.mem news) :
    ∃ s', artStep s (.insert an addr 0 news) = some s' ∧ ArtInv s' T ∧ s'.ar = s.ar ∧
      s'.routes = if routeOf s.routes [] = none then ([], an) :: s.routes else s.routes := by
  obtain ⟨tbl, hmem, ht⟩ := h.rep.table _ _ h.rep.root
  have hdflt := ht.dflt h.rep.strides
  have hdup := h.duplicate_iff hfresh (P := []) (.inr rfl)
  rw [artValue_nil] at hdup hdflt
  rw [length_nil] at hdup
  by_cases hnone : routeOf s.routes [] = none
  · have hno : artCheckDuplicate (update s.plenOf an 0) (routeOf s.routes []) an = false :=
      Bool.eq_false_iff.2 fun htrue => hdup.1 htrue hnone
    obtain ⟨hset, hrep⟩ := h.rep.setItem h.rep.root hmem ht (s := []) (Nat.zero_le _)
      (fun hz => absurd hz (Nat.ne_of_lt (ht.bits_pos h.rep.strides))) (some an)
    rw [nil_append, ← artValue_update_nil, ← routeCount_cons_nil an s.routes] at hrep
    have hset' : ArtMem.setItem s.mem s.ar.root 1 (.node (some an))
        = some (update s.mem s.ar.root (some (tbl.setItem 1 (.node (some an))))) := hset
    have hrun : artInsert s.ar (update s.plenOf an 0) s.mem news an addr 0
        = some (update s.mem s.ar.root (some (tbl.setItem 1 (.node (some an)))),
          some an) := by
      simp only [artInsert, guard, Nat.zero_le, if_true, hmem, hdflt, ArtItem.asNode, hno, hset',
        Option.bind_eq_bind, Option.bind_some, Option.pure_def, Bool.false_eq_true, if_false]
    refine ⟨_, artStep_insert (Nat.zero_le _) hfresh hnews hrun, ?_, rfl, ?_⟩
    · rw [if_pos rfl]
      exact h.cons rfl (Nat.zero_le _) hfresh hnone (fun _ _ hg => hg)
        (fun hne => absurd rfl hne) hrep
    · show (if some an = some an then ([], an) :: s.routes else s.routes) = _
      rw [if_pos rfl, if_pos hnone]
  · have hrun : artInsert s.ar (update s.plenOf an 0) s.mem news an addr 0
        = some (s.mem, routeOf s.routes []) := by
      simp only [artInsert, guard, Nat.zero_le, if_true, hmem, hdflt, ArtItem.asNode,
        hdup.2 hnone, Option.bind_eq_bind, Option.bind_some, Option.pure_def]
    have hne : routeOf s.routes [] ≠ some an := fun heq =>
      hfresh (mem_map_of_mem (mem_of_routeOf heq))
    refine ⟨_, artStep_insert (Nat.zero_le _) hfresh hnews hrun, ?_, rfl, ?_⟩
    · rw [if_neg hne]
      exact h.same hfresh (fun _ _ hg => hg) h.rep
    · rw [if_neg hnone, if_neg hne]

omit [DecidableEq ν] [DecidableEq τ] in
theorem ArtInv.value_ne (h : ArtInv s T) {P : List Bool} :
    ∀ u c, u ≠ [] → routeOf s.routes (u ++ P) = some c →
      some c ≠ artValue s.ar.bits (routeOf s.routes) P := by
  intro u c hu hc heq
  obtain ⟨q, hq, hRq, -⟩ := artValue_eq_some heq.symm
  have hlen := hq.length_le
  rw [routeOf_inj h.nodes hRq hc, length_append] at hlen
  have hpos := length_pos_iff.2 hu
  omega

omit [DecidableEq ν] [DecidableEq τ] in
theorem ArtInv.table_of_route (h : ArtInv s T) {p : List Bool} {l : Nat}
    (hp : (p, an) ∈ s.routes) (hl : strideSum s.ar.bits l < p.length) :
    (T (p.drop (p.length - strideSum s.ar.bits l))).isSome := by
  have hpos := Nat.zero_lt_of_lt hl
  have hhome := h.home _ hp (length_pos_iff.1 hpos)
  have hstart := strideSum_le_strideStart hl
  have hlt := strideStart_lt s.ar.bits hpos
  have hlen : (strideHead s.ar.bits p).length = strideStart s.ar.bits p.length := by
    rw [strideHead, length_drop]
    omega
  have hclosed := h.rep.up_closed hhome (l := l) (by rw [hlen]; exact hstart)
  have hdrop : p.length - strideStart s.ar.bits p.length
      + (strideStart s.ar.bits p.length - strideSum s.ar.bits l)
        = p.length - strideSum s.ar.bits l := by omega
  rwa [hlen, strideHead, List.drop_drop, hdrop] at hclosed

/-- What an insertion does to the tables and the routes; the tables are new at most in
    front of the prefix. -/
structure Inserted (s s' : ArtState ν τ) (T T' : List Bool → Option τ) (an : ν)
    (addr : Nat → BitVec 8) (plen : Nat) (news : List (Option τ)) : Prop where
  inv : ArtInv s' T'
  ar : s'.ar = s.ar
  mono : ∀ g t, T g = some t → T' g = some t
  path : ∀ g, (T' g).isSome → (T g).isSome ∨ ∃ m < plen, g = addrPrefix addr m
  routes : s'.routes = s.routes ∨
    routeOf s.routes (addrPrefix addr plen) = none ∧
      s'.routes = (addrPrefix addr plen, an) :: s.routes
  enough : (∀ x ∈ news, x.isSome) → s.ar.bits.length ≤ news.length →
    routeOf s.routes (addrPrefix addr plen) = none →
      s'.routes = (addrPrefix addr plen, an) :: s.routes

theorem artInsert_fail {ar : ArtRoot τ} {plenOf : ν → Nat} {mem mem' : ArtMem ν τ}
    (hplen : plen ≤ ar.alen) (hpos : plen ≠ 0)
    (hgrow : artGrow ar addr plen (artMaxlvl + 1) news mem ar.root = some (mem', none)) :
    artInsert ar plenOf mem news an addr plen = some (mem', none) := by
  simp only [artInsert, guard, if_pos hplen, if_neg hpos, hgrow, Option.bind_eq_bind,
    Option.bind_some, Option.pure_def]

theorem artInsert_table {ar : ArtRoot τ} {mem mem' : ArtMem ν τ} {i : Nat} (plenOf : ν → Nat)
    (an : ν) (hplen : plen ≤ ar.alen) (hpos : plen ≠ 0)
    (hgrow : artGrow ar addr plen (artMaxlvl + 1) news mem ar.root = some (mem', some t))
    (hmem : mem' t = some tbl) (hidx : artBindex tbl addr plen = some (some i)) :
    artInsert ar plenOf mem news an addr plen = artTableInsert plenOf mem' t i an := by
  simp only [artInsert, guard, if_pos hplen, if_neg hpos, hgrow, hmem, hidx, Option.bind_eq_bind,
    Option.bind_some, Option.pure_def]

/-- Insertion of a prefix that is not the default. -/
theorem ArtInv.insert_nondefault (h : ArtInv s T) (hplen : plen ≤ s.ar.alen) (hpos : 0 < plen)
    (hfresh : an ∉ s.routes.map Prod.snd) (hnews : FreshNews s.mem news) :
    ∃ s' T', artStep s (.insert an addr plen news) = some s' ∧
      Inserted s s' T T' an addr plen news := by
  have hne₀ : plen ≠ 0 := Nat.ne_of_gt hpos
  obtain ⟨mem', r, T', hgrow, hrep, hmono, hpath, hres, hok⟩ :=
    h.rep.grow h.emptyWithout addr (artMaxlvl + 1) (n := 0) hplen h.rep.root hpos
      (fun tbl _ => Nat.lt_of_le_of_lt h.rep.strides.few (by omega)) hnews
  have hgrown : (∀ x ∈ news, x.isSome) → s.ar.bits.length ≤ news.length → r ≠ none :=
    fun hall hlen => hok hall fun tbl _ => Nat.le_add_right_of_le hlen
  cases r with
  | none =>
    refine ⟨_, T', artStep_insert hplen hfresh hnews (artInsert_fail hplen hne₀ hgrow), ?_⟩
    rw [if_neg (Option.some_ne_none an).symm]
    exact ⟨h.same hfresh hmono hrep, rfl, hmono, hpath, .inl rfl,
      fun hall hlen => absurd rfl (hgrown hall hlen)⟩
  | some t =>
    have hT := hres t rfl
    obtain ⟨tbl, n, hmem, ht, hnle, hP, hidx⟩ := hrep.place hpos hT
    have hinsert := artInsert_table (update s.plenOf an plen) an hplen hne₀ hgrow hmem hidx
    have hlo := strideStart_lt s.ar.bits hpos
    have hleS : (addrSlice addr (strideStart s.ar.bits plen) (n + 1)).length ≤ tbl.bits := by
      rwa [length_addrSlice]
    have hSne : addrSlice addr (strideStart s.ar.bits plen) (n + 1) ≠ [] := cons_ne_nil _ _
    have hPlen : (addrPrefix addr plen).length = plen := length_addrPrefix ..
    have hhead := strideHead_addrPrefix s.ar.bits addr hpos
    have hdup := h.duplicate_iff (P := addrPrefix addr plen) hfresh
      (.inl (by rw [hPlen]; exact hlo))
    rw [hPlen] at hdup
    by_cases hnone : routeOf s.routes (addrPrefix addr plen) = none
    · have hno : artCheckDuplicate (update s.plenOf an plen)
          (artValue s.ar.bits (routeOf s.routes) (addrPrefix addr plen)) an = false :=
        Bool.eq_false_iff.2 fun htrue => hdup.1 htrue hnone
      obtain ⟨mem'', hset, hrep''⟩ := hrep.tableInsert hT hmem ht hleS (by rw [← hP]; exact hno)
      have hvalue := artValue_update (x := some an) (by rw [ht.start]) ht.stride hSne hleS
        (by rw [← hP]; exact h.value_ne)
      have hcover : longestCover (update (routeOf s.routes) (addrPrefix addr plen)
          (some an)) (addrPrefix addr (strideStart s.ar.bits plen)).length
            (addrPrefix addr plen) = some an :=
        longestCover_of_some (by rw [hPlen, length_addrPrefix]; exact hlo)
          (update_self ..)
      have hcount := routeCount_cons s.ar.bits (P := addrPrefix addr plen)
        (hP ▸ append_ne_nil_of_left_ne_nil hSne _) an s.routes
      rw [← hP, hcover] at hvalue
      rw [← hP, ← hvalue] at hrep''
      rw [hhead] at hcount
      rw [← hcount] at hrep''
      refine ⟨_, T', artStep_insert hplen hfresh hnews (hinsert.trans hset), ?_⟩
      rw [if_pos rfl]
      refine ⟨h.cons hPlen hplen hfresh hnone hmono (fun _ => ?_) hrep'', rfl, hmono, hpath,
        .inr ⟨hnone, rfl⟩, fun _ _ _ => rfl⟩
      rw [hhead, hT]
      rfl
    · have hset := hrep.tableInsert_duplicate (update s.plenOf an plen) an hmem
        ht hleS (by rw [← hP]; exact hdup.2 hnone)
      have hne : artValue s.ar.bits (routeOf s.routes) (addrPrefix addr plen) ≠ some an := by
        intro heq
        obtain ⟨q, -, hRq, -⟩ := artValue_eq_some heq
        exact hfresh (mem_map_of_mem (mem_of_routeOf hRq))
      rw [← hP] at hset
      refine ⟨_, T', artStep_insert hplen hfresh hnews (hinsert.trans hset), ?_⟩
      rw [if_neg hne]
      exact ⟨h.same hfresh hmono hrep, rfl, hmono, hpath, .inl rfl,
        fun _ _ hnone' => absurd hnone' hnone⟩

theorem ArtInv.insert (h : ArtInv s T) (an : ν) (addr : Nat → BitVec 8) (plen : Nat)
    (hplen : plen ≤ s.ar.alen) (hfresh : an ∉ s.routes.map Prod.snd) (hnews : FreshNews s.mem news) :
    ∃ s' T', artStep s (.insert an addr plen news) = some s' ∧
      Inserted s s' T T' an addr plen news := by
  rcases Nat.eq_zero_or_pos plen with rfl | hpos
  · obtain ⟨s', hstep, hinv, har, hroutes⟩ := h.insert_default addr hfresh hnews
    refine ⟨s', T, hstep, hinv, har, fun _ _ hg => hg, fun g hg => .inl hg, ?_, fun _ _ hnone => ?_⟩
    · by_cases hnone : routeOf s.routes [] = none
      · exact .inr ⟨hnone, by rw [hroutes, if_pos hnone]; rfl⟩
      · exact .inl (by rw [hroutes, if_neg hnone])
    · have hnone' : routeOf s.routes [] = none := hnone
      rw [hroutes, if_pos hnone']
      rfl
  · exact h.insert_nondefault hplen hpos hfresh hnews

omit [DecidableEq ν] [DecidableEq τ] in
theorem ArtInv.erase (h : ArtInv s T) {mem : ArtMem ν τ} {P : List Bool}
    (hrep : ArtRep s.ar mem T
      (artValue s.ar.bits (update (routeOf s.routes) P none))
      (routeCount s.ar.bits (s.routes.filter fun e => e.1 ≠ P))) :
    ArtInv ⟨s.ar, mem, s.plenOf, s.routes.filter fun e => e.1 ≠ P⟩ T := by
  have hsub : (s.routes.filter fun e => e.1 ≠ P).Sublist s.routes := filter_sublist
  refine ⟨by rw [routeOf_filter]; exact hrep, h.keys.sublist (hsub.map _),
    h.nodes.sublist (hsub.map _), fun e he => ?_, fun e he => ?_⟩
  · exact h.plen e (hsub.subset he)
  · exact h.home e (hsub.subset he)

theorem ArtInv.delete_default (h : ArtInv s T) (hmem : ([], an) ∈ s.routes) :
    ∃ s', artStep s (.delete an addr 0) = some s' ∧ ArtInv s' T ∧ s'.ar = s.ar ∧
      s'.routes = s.routes.filter fun e => e.1 ≠ [] := by
  obtain ⟨tbl, htbl, ht⟩ := h.rep.table _ _ h.rep.root
  have hdflt := ht.dflt h.rep.strides
  have hroute := (routeOf_eq_some_iff h.keys).2 hmem
  rw [artValue_nil, hroute] at hdflt
  have hdup : artCheckDuplicate s.plenOf (some an) an = true := beq_self_eq_true _
  obtain ⟨hset, hrep⟩ := h.rep.setItem h.rep.root htbl ht (s := []) (Nat.zero_le _)
    (fun hz => absurd hz (Nat.ne_of_lt (ht.bits_pos h.rep.strides))) none
  rw [nil_append, ← artValue_update_nil, ← routeCount_filter_nil h.keys hmem] at hrep
  have hset' : ArtMem.setItem s.mem s.ar.root 1 (.node none)
      = some (update s.mem s.ar.root (some (tbl.setItem 1 (.node none)))) := hset
  have hrun : artDelete s.ar s.plenOf s.mem an addr 0
      = some (update s.mem s.ar.root (some (tbl.setItem 1 (.node none))), some an) := by
    simp only [artDelete, guard, Nat.zero_le, if_true, htbl, hdflt, ArtItem.asNode, hdup, hset',
      Option.bind_eq_bind, Option.bind_some, Option.pure_def]
  exact ⟨_, artStep_delete (Nat.zero_le _) hmem hrun, h.erase hrep, rfl, rfl⟩

theorem artDelete_table {ar : ArtRoot τ} {mem : ArtMem ν τ} {i : Nat} (plenOf : ν → Nat)
    (an : ν) (hplen : plen ≤ ar.alen) (hpos : plen ≠ 0)
    (hdescend : artDescend mem addr plen (artMaxlvl + 1) ar.root = some (some t))
    (hmem : mem t = some tbl) (hidx : artBindex tbl addr plen = some (some i)) :
    artDelete ar plenOf mem an addr plen = artTableDelete mem t i an := by
  simp only [artDelete, guard, if_pos hplen, if_neg hpos, hdescend, hmem, hidx,
    Option.bind_eq_bind, Option.bind_some, Option.pure_def]

/-- Deletion of a prefix that is not the default. -/
theorem ArtInv.delete_nondefault (h : ArtInv s T) (hplen : plen ≤ s.ar.alen) (hpos : 0 < plen)
    (hmem : (addrPrefix addr plen, an) ∈ s.routes) :
    ∃ s', artStep s (.delete an addr plen) = some s' ∧ ArtInv s' T ∧ s'.ar = s.ar ∧
      s'.routes = s.routes.filter fun e => e.1 ≠ addrPrefix addr plen := by
  have hPlen : (addrPrefix addr plen).length = plen := length_addrPrefix ..
  have hlo := strideStart_lt s.ar.bits hpos
  have hhead := strideHead_addrPrefix s.ar.bits addr hpos
  have hroute := (routeOf_eq_some_iff h.keys).2 hmem
  have hPne : addrPrefix addr plen ≠ [] := by
    intro hnil
    rw [hnil, length_nil] at hPlen
    omega
  obtain ⟨t, hT⟩ := Option.isSome_iff_exists.1 (h.home _ hmem hPne)
  rw [hhead] at hT
  obtain ⟨tbl, n, htbl, ht, hnle, hP, hidx⟩ := h.rep.place hpos hT
  have hdescend := h.rep.descend_root addr hpos hplen
  rw [hT] at hdescend
  have hdelete := artDelete_table s.plenOf an hplen (Nat.ne_of_gt hpos) hdescend htbl hidx
  -- the prefix is counted in its table
  have hcounted : 2 ≤ routeCount s.ar.bits s.routes
      (addrPrefix addr (strideStart s.ar.bits plen)) := by
    have hone : 0 < s.routes.countP fun e => e.1 ≠ [] ∧
        strideHead s.ar.bits e.1 = addrPrefix addr (strideStart s.ar.bits plen) :=
      countP_pos_iff.2 ⟨_, hmem, by simpa using ⟨hPne, hhead⟩⟩
    rw [routeCount]
    omega
  have hleS : (addrSlice addr (strideStart s.ar.bits plen) (n + 1)).length ≤ tbl.bits := by
    rwa [length_addrSlice]
  have hV : artValue s.ar.bits (routeOf s.routes) (addrPrefix addr plen) = some an :=
    artValue_of_some (.inl (by rw [hPlen]; exact hlo)) hroute
  obtain ⟨mem', hset, hrep⟩ := h.rep.tableDelete hT htbl ht hleS (hP ▸ hV) hcounted
  rw [← addrSlice] at hrep
  have hSne : addrSlice addr (strideStart s.ar.bits plen) (n + 1) ≠ [] := cons_ne_nil _ _
  have hvalue := artValue_update (x := none) (by rw [ht.start]) ht.stride hSne hleS
    (by rw [← hP]; exact h.value_ne)
  have hcount := routeCount_filter s.ar.bits h.keys hPne hmem
  rw [hhead] at hcount
  -- the next most specific route is what covers the prefix without it
  have hnext : longestCover (update (routeOf s.routes) (addrPrefix addr plen) none)
      (addrPrefix addr (strideStart s.ar.bits plen)).length (addrPrefix addr plen)
        = if addrSlice addr (strideStart s.ar.bits plen) n = [] then none
          else artValue s.ar.bits (routeOf s.routes)
            (addrSlice addr (strideStart s.ar.bits plen) n
              ++ addrPrefix addr (strideStart s.ar.bits plen)) := by
    rw [hP]
    rw [addrSlice, cons_append, longestCover_cons
      (by rw [length_append]; exact Nat.le_add_left _ _), update_self, Option.none_or,
      longestCover_update_of_not_suffix fun hs => absurd hs (not_suffix_cons _ _)]
    split
    · next hnil =>
      rw [hnil, nil_append]
      exact longestCover_of_length_le (Nat.le_refl _)
    · next hne =>
      have hlen : (addrSlice addr (strideStart s.ar.bits plen) n).length ≤ tbl.bits := by
        rw [length_addrSlice]
        omega
      rw [artValue_of_ne (append_ne_nil_of_left_ne_nil hne _), ht.strideStart_eq hne hlen]
  rw [← hP, hnext, hV] at hvalue
  rw [← hP, ← hvalue, ← hcount] at hrep
  exact ⟨_, artStep_delete hplen hmem (hdelete.trans hset), h.erase hrep, rfl, rfl⟩

theorem ArtInv.delete (h : ArtInv s T) (hplen : plen ≤ s.ar.alen)
    (hmem : (addrPrefix addr plen, an) ∈ s.routes) :
    ∃ s', artStep s (.delete an addr plen) = some s' ∧ ArtInv s' T ∧ s'.ar = s.ar ∧
      s'.routes = s.routes.filter fun e => e.1 ≠ addrPrefix addr plen := by
  rcases Nat.eq_zero_or_pos plen with rfl | hpos
  · exact h.delete_default hmem
  · exact h.delete_nondefault hplen hpos hmem

/-! ## Runs -/

/-- The first table, with no routes. -/
def rootTable (w : Nat) : ArtTable ν τ := ⟨none, -1, 2 ^ w, 0, w, 0, 1, fun _ => .node none⟩

variable {off : Nat} {new : Option τ}

omit [DecidableEq ν] in
theorem artAttach_eq {ar : ArtRoot τ} {mem : ArtMem ν τ} (h : artAttach off new = some (ar, mem)) :
    ∃ t w, new = some t ∧ artLayout off = some (ar.bits, ar.alen) ∧ ar.root = t ∧
      ar.bits[0]? = some w ∧ mem = update (fun _ => none) t (some (rootTable w)) := by
  simp only [artAttach, Option.bind_eq_bind, Option.bind_eq_some_iff, Prod.exists] at h
  obtain ⟨bits, alen, hlayout, mem', root, hget, root', hroot, hpair⟩ := h
  subst hroot
  obtain ⟨rfl, rfl⟩ := Prod.mk.inj (Option.some.inj hpair)
  have hj : (-1 : Int) ≠ 0 ∧ (-1 : Int) ≠ 1 := by decide
  simp only [artTableGet, guard, if_pos hj, Option.bind_eq_bind, Option.pure_def,
    Option.bind_some, Option.bind_eq_some_iff] at hget
  obtain ⟨-, -, w, hw, hnew⟩ := hget
  cases new with
  | none => cases hnew
  | some t =>
    simp only [artTableRef, Option.isNone_none, if_true, update_self,
      update_idem, Option.bind_eq_bind, Option.pure_def, Option.bind_some] at hnew
    obtain ⟨rfl, ht⟩ := Prod.mk.inj (Option.some.inj hnew)
    exact ⟨t, w, rfl, hlayout, (Option.some.inj ht).symm, hw, rfl⟩

/-- There is no more than the first table. -/
def onlyRoot (t : τ) (g : List Bool) : Option τ := if g = [] then some t else none

omit [DecidableEq ν] in
/-- The tables after `art_attach`. -/
theorem artInv_init {ar : ArtRoot τ} {mem : ArtMem ν τ}
    (h : artAttach off new = some (ar, mem)) (plenOf : ν → Nat) :
    ArtInv (artInit plenOf ar mem) (onlyRoot ar.root) := by
  obtain ⟨t, w, -, hlayout, rfl, hw, rfl⟩ := artAttach_eq h
  have hstrides := byteStrides_of_layout hlayout
  have hvalue : ∀ p : List Bool, artValue ar.bits (routeOf ([] : List (List Bool × ν))) p = none := by
    intro p
    refine Option.eq_none_iff_forall_not_mem.2 fun a ha => ?_
    obtain ⟨q, -, hq, -⟩ := artValue_eq_some ha
    cases hq
  refine ⟨⟨hstrides, rfl, ?_, ?_, ?_, ?_⟩, nodup_nil, nodup_nil, fun e he => ?_, fun e he => ?_⟩
  · intro g g' t hg hg'
    rw [onlyRoot] at hg hg'
    split at hg
    · next hnil =>
      split at hg'
      · next hnil' => rw [hnil, hnil']
      · cases hg'
    · cases hg
  · intro t ht
    by_cases htt : t = ar.root
    · exact ⟨[], by rw [htt]; rfl⟩
    · have hmem : (update (fun _ => none) ar.root
          (some (rootTable w : ArtTable ν τ)) t).isSome := ht
      rw [update_of_ne htt] at hmem
      cases hmem
  · intro g t hg
    have hnil : g = [] := by
      by_contra hne
      rw [onlyRoot, if_neg hne] at hg
      cases hg
    subst hnil
    obtain rfl : ar.root = t := Option.some.inj hg
    have hroot : update (fun _ => none) ar.root (some (rootTable w : ArtTable ν τ)) ar.root
        = some (rootTable w) := update_self ..
    refine ⟨rootTable w, hroot, ⟨hw, rfl, rfl, rfl, rfl, fun s _ => ?_, fun s hs => ?_⟩⟩
    · exact congrArg ArtItem.node (hvalue (s ++ [])).symm
    · have hpos : 0 < w := by
        rcases hstrides.stride hw with hw | hw <;> omega
      have hne : s ++ [] ≠ [] := by
        rintro hnil
        rw [append_nil] at hnil
        rw [hnil] at hs
        exact absurd hs (Nat.ne_of_lt hpos)
      have hitem : artItem (onlyRoot ar.root)
          (artValue ar.bits (routeOf ([] : List (List Bool × ν)))) (s ++ []) = .node none := by
        rw [artItem, onlyRoot, if_neg hne, hvalue]
      exact hitem.symm
  · intro g hne hg
    rw [onlyRoot, if_neg hne] at hg
    cases hg
  · cases he
  · cases he

theorem ArtInv.step (h : ArtInv s T) {e : ArtCall ν τ} {s' : ArtState ν τ}
    (hstep : artStep s e = some s') : ∃ T', ArtInv s' T' ∧ s'.ar = s.ar := by
  cases e with
  | insert an addr plen news =>
    obtain ⟨hplen, hfresh, hnews⟩ := artStep_insert_allowed hstep
    obtain ⟨s'', T', hstep', hins⟩ := h.insert an addr plen hplen hfresh hnews
    obtain rfl := Option.some.inj (hstep.symm.trans hstep')
    exact ⟨T', hins.inv, hins.ar⟩
  | delete an addr plen =>
    obtain ⟨hplen, hmem⟩ := artStep_delete_allowed hstep
    obtain ⟨s'', hstep', hinv, har, -⟩ := h.delete hplen hmem
    obtain rfl := Option.some.inj (hstep.symm.trans hstep')
    exact ⟨T, hinv, har⟩

theorem exists_artInv {ar : ArtRoot τ} {mem : ArtMem ν τ} {plenOf : ν → Nat} {ok : ArtState ν τ → ArtCall ν τ → Prop} {es : List (ArtCall ν τ)}
    (hinit : artAttach off new = some (ar, mem))
    (hrun : Run artStep ok (artInit plenOf ar mem) es s) : ∃ T, ArtInv s T :=
  @Run.invariant _ _ _ _ (fun s => ∃ T, ArtInv s T)
    (fun _ _ _ ⟨_, h⟩ _ hstep => (h.step hstep).imp fun _ hinv => hinv.1) _ _ _ hrun
    ⟨_, artInv_init hinit plenOf⟩

/-- 10.0.0.0. -/
def addrTen : Nat → BitVec 8
  | 0 => 10
  | _ => 0

def insertTen (plen : Nat) : ArtCall Nat Nat := .insert 7 addrTen plen [some 1, some 2, some 3]

/-- The root of IPv4 tables. -/
def arTen : ArtRoot Nat := ⟨0, [16, 8, 8], 32⟩

theorem exists_insertTen (plen : Nat) (hplen : plen ≤ 32) :
    ∃ mem s T, artAttach 32 (some 0) = some (arTen, mem) ∧
      artStep (artInit (fun _ => 0) arTen mem) (insertTen plen) = some s ∧ ArtInv s T ∧
      s.ar = arTen ∧ s.routes = [(addrPrefix addrTen plen, 7)] := by
  have hinit : artAttach 32 (some 0) = some (arTen,
      update (fun _ => none) 0 (some (rootTable 16 : ArtTable Nat Nat))) := by
    simp [artAttach, artLayout, artTableGet, guard, artTableRef, rootTable, arTen]
  have hinv := artInv_init hinit fun _ => 0
  have hnews : FreshNews (update (fun _ => none) 0
      (some (rootTable 16 : ArtTable Nat Nat))) [some 1, some 2, some 3] :=
    ⟨by decide, by decide⟩
  obtain ⟨s, T, hstep, hins⟩ := hinv.insert 7 addrTen plen hplen not_mem_nil hnews
  exact ⟨_, s, T, hinit, hstep, hins.inv, hins.ar, hins.enough (by decide) (by decide) rfl⟩

end

end OpenBsd.Net
