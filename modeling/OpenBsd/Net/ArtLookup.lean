/-
  OpenBsd.Net.ArtLookup

  Lookups of `sys/net/art.c`.  `art_match` finds the longest prefix of an address;
  `art_lookup` gives the slot of a prefix, which a shorter prefix may have filled.
-/

import OpenBsd.Net.ArtRun

namespace OpenBsd.Net

open OpenBsd.Lib List

section

variable {ν τ : Type} [DecidableEq ν] [DecidableEq τ]

variable {s : ArtState ν τ} {T : List Bool → Option τ} {addr : Nat → BitVec 8} {plen : Nat}
  {an : ν}

/-! ## art_lookup -/

omit [DecidableEq ν] [DecidableEq τ] in
theorem ArtInv.lookup (h : ArtInv s T) (hplen : plen ≤ s.ar.alen) :
    artLookup s.ar s.mem addr plen
      = some (artValue s.ar.bits (routeOf s.routes) (addrPrefix addr plen)) := by
  rcases Nat.eq_zero_or_pos plen with rfl | hpos
  · obtain ⟨tbl, hmem, ht⟩ := h.rep.table _ _ h.rep.root
    have hdflt := ht.dflt h.rep.strides
    simp only [artLookup, guard, Nat.zero_le, if_true, hmem, hdflt, ArtItem.asNode,
      Option.bind_eq_bind, Option.bind_some, Option.pure_def]
    rfl
  · have hne₀ : plen ≠ 0 := Nat.ne_of_gt hpos
    have hdescend := h.rep.descend_root addr hpos hplen
    simp only [artLookup, guard, if_pos hplen, if_neg hne₀, hdescend, Option.bind_eq_bind,
      Option.bind_some, Option.pure_def]
    cases hT : T (addrPrefix addr (strideStart s.ar.bits plen)) with
    | none =>
      -- no table, no routes in the stride
      obtain ⟨l, w, hw, hlo, hhi⟩ := exists_level hpos (h.rep.strides.sum ▸ hplen)
      have hstart : strideStart s.ar.bits plen = strideSum s.ar.bits l :=
        Net.strideStart_eq hw hlo hhi
      obtain ⟨n, hn⟩ := Nat.exists_eq_add_of_lt hlo
      have hP : addrPrefix addr plen = addrSlice addr (strideSum s.ar.bits l) (n + 1)
          ++ addrPrefix addr (strideSum s.ar.bits l) := by
        conv_lhs => rw [hn, Nat.add_assoc]
        exact addrPrefix_add ..
      have hnone := h.emptyWithout.value _ hT l w (by rw [length_addrPrefix, hstart]) hw
        (addrSlice addr (strideSum s.ar.bits l) (n + 1)) (cons_ne_nil _ _)
        (by rw [length_addrSlice]; omega)
      rw [hstart, ← hP] at hnone
      rw [hnone]
    | some t =>
      obtain ⟨tbl, n, hmem, ht, hnle, hP, hidx⟩ := h.rep.place hpos hT
      have hslot := h.rep.slotNode ht
        (s := addrSlice addr (strideStart s.ar.bits plen) (n + 1)) (by rwa [length_addrSlice])
      simp only [hmem, hidx, hslot, Option.bind_some, ← hP]

omit [DecidableEq ν] in
theorem artValue_perfect_iff (bits : List Nat) {routes : List (List Bool × ν)} {P : List Bool}
    (hkeys : (routes.map Prod.fst).Nodup) :
    (∀ an, artValue bits (routeOf routes) P = some an ↔ (P, an) ∈ routes) ↔
      (∃ an, (P, an) ∈ routes) ∨
        ∀ e ∈ routes, e.1 <:+ P → e.1.length ≤ strideStart bits P.length := by
  by_cases hP : P = []
  · subst hP
    refine ⟨fun _ => .inr fun e _ he => ?_, fun _ an => ?_⟩
    · rw [suffix_nil.1 he]
      exact Nat.zero_le _
    · rw [artValue_nil]
      exact routeOf_eq_some_iff hkeys
  · have hlt := strideStart_lt bits (length_pos_iff.2 hP)
    constructor
    · intro hperfect
      cases hV : artValue bits (routeOf routes) P with
      | some an => exact .inl ⟨an, (hperfect an).1 hV⟩
      | none =>
        rw [artValue_of_ne hP, longestCover_eq_none_iff] at hV
        refine .inr fun e he hsuffix => Nat.le_of_not_lt fun hlong => ?_
        exact routeOf_eq_none_iff.1 (hV e.1 hsuffix hlong) e.2 he
    · rintro (⟨an₀, h₀⟩ | hshort) an
      · have hroute := (routeOf_eq_some_iff hkeys).2 h₀
        rw [artValue_of_some (.inl hlt) hroute, ← routeOf_eq_some_iff hkeys, hroute]
      · have hV : artValue bits (routeOf routes) P = none := by
          rw [artValue_of_ne hP, longestCover_eq_none_iff]
          intro q hq hlong
          refine routeOf_eq_none_iff.2 fun a ha => ?_
          exact Nat.not_lt_of_le (hshort _ ha hq) hlong
        rw [hV]
        refine ⟨fun h => absurd h.symm (Option.some_ne_none an), fun h => ?_⟩
        exact absurd (hshort _ h suffix_rfl) (Nat.not_le_of_lt hlt)

/-! ## art_match -/

/-- The route of the longest prefix of a string. -/
def bestRoute (R : List Bool → Option ν) (p : List Bool) : Option ν :=
  (longestCover R 0 p).or (R [])

omit [DecidableEq ν] in
theorem bestRoute_append (R : List Bool → Option ν) (s g : List Bool) :
    bestRoute R (s ++ g) = (longestCover R g.length (s ++ g)).or (bestRoute R g) := by
  rw [bestRoute, longestCover_append (Nat.zero_le _), Option.or_assoc, bestRoute]

variable {routes : List (List Bool × ν)} {p : List Bool}

omit [DecidableEq ν] in
theorem bestRoute_eq_none_iff :
    bestRoute (routeOf routes) p = none ↔ ∀ e ∈ routes, ¬ e.1 <:+ p := by
  rw [bestRoute, Option.or_eq_none_iff, longestCover_eq_none_iff]
  constructor
  · rintro ⟨hlong, hnil⟩ e he hsuffix
    rcases eq_nil_or_concat' e.1 with hempty | ⟨q, b, hq⟩
    · rw [← hempty] at hnil
      exact routeOf_eq_none_iff.1 hnil e.2 he
    · refine routeOf_eq_none_iff.1 (hlong e.1 hsuffix ?_) e.2 he
      rw [hq, length_append]
      exact Nat.succ_pos _
  · intro hnone
    refine ⟨fun q hq _ => routeOf_eq_none_iff.2 fun a ha => hnone _ ha hq,
      routeOf_eq_none_iff.2 fun a ha => hnone _ ha nil_suffix⟩

omit [DecidableEq ν] in
theorem bestRoute_eq_some (h : bestRoute (routeOf routes) p = some an) :
    ∃ P, (P, an) ∈ routes ∧ P <:+ p ∧ ∀ e ∈ routes, e.1 <:+ p → e.1.length ≤ P.length := by
  cases hcover : longestCover (routeOf routes) 0 p with
  | some a =>
    rw [bestRoute, hcover] at h
    obtain rfl : a = an := Option.some.inj h
    obtain ⟨q, hq, -, hRq, hmax⟩ := longestCover_eq_some hcover
    refine ⟨q, mem_of_routeOf hRq, hq, fun e he hsuffix => Nat.le_of_not_lt fun hlt => ?_⟩
    exact routeOf_eq_none_iff.1 (hmax e.1 hsuffix hlt) e.2 he
  | none =>
    rw [bestRoute, hcover, Option.none_or] at h
    refine ⟨[], mem_of_routeOf h, nil_suffix, fun e he hsuffix =>
      Nat.le_of_not_lt fun hlt => ?_⟩
    exact routeOf_eq_none_iff.1 (longestCover_eq_none_iff.1 hcover e.1 hsuffix hlt) e.2 he

omit [DecidableEq ν] in
theorem bestRoute_eq_some_iff (hkeys : (routes.map Prod.fst).Nodup) :
    bestRoute (routeOf routes) p = some an ↔
      ∃ P, (P, an) ∈ routes ∧ P <:+ p ∧ ∀ e ∈ routes, e.1 <:+ p → e.1.length ≤ P.length := by
  refine ⟨bestRoute_eq_some, ?_⟩
  rintro ⟨P, hP, hsuffix, hmax⟩
  cases hbest : bestRoute (routeOf routes) p with
  | none => exact absurd hsuffix (bestRoute_eq_none_iff.1 hbest _ hP)
  | some a =>
    obtain ⟨P', hP', hsuffix', hmax'⟩ := bestRoute_eq_some hbest
    have hlen : P.length = P'.length :=
      Nat.le_antisymm (hmax' _ hP hsuffix) (hmax _ hP' hsuffix')
    have hsame := (suffix_of_suffix_length_le hsuffix hsuffix' (Nat.le_of_eq hlen)).eq_of_length
      hlen
    rw [← hsame] at hP'
    rw [← (routeOf_eq_some_iff hkeys).2 hP, (routeOf_eq_some_iff hkeys).2 hP']

omit [DecidableEq ν] [DecidableEq τ] in
theorem ArtInv.bestRoute_of_none (h : ArtInv s T) {n : Nat} (hT : T (addrPrefix addr n) = none)
    {l : Nat} (hn : n = strideSum s.ar.bits l) (hle : n ≤ plen) :
    bestRoute (routeOf s.routes) (addrPrefix addr plen)
      = bestRoute (routeOf s.routes) (addrPrefix addr n) := by
  obtain ⟨k, rfl⟩ := Nat.exists_eq_add_of_le hle
  rw [addrPrefix_add, bestRoute_append, longestCover_eq_none_iff.2, Option.none_or]
  intro q hq hlong
  refine routeOf_eq_none_iff.2 fun a ha => ?_
  rw [← addrPrefix_add] at hq
  have hq' := eq_addrPrefix_of_suffix hq
  rw [length_addrPrefix] at hlong
  have hclosed := h.table_of_route ha (l := l) (hn ▸ hlong)
  rw [hq', length_addrPrefix, ← hn, drop_addrPrefix (Nat.le_of_lt hlong), hT] at hclosed
  cases hclosed

omit [DecidableEq ν] [DecidableEq τ] in
/-- The loop of `art_match` at a table, with the best route that is not the table's. -/
theorem ArtInv.matchLoop (h : ArtInv s T) {n fuel : Nat} {t : τ} {dflt : Option ν}
    (hT : T (addrPrefix addr n) = some t)
    (hfuel : ∀ tbl, s.mem t = some tbl → s.ar.bits.length < fuel + tbl.level)
    (hdflt : (artValue s.ar.bits (routeOf s.routes) (addrPrefix addr n)).or dflt
      = bestRoute (routeOf s.routes) (addrPrefix addr n)) :
    artMatchLoop s.mem addr fuel t dflt
      = some (bestRoute (routeOf s.routes) (addrPrefix addr s.ar.alen)) := by
  induction fuel generalizing n t dflt with
  | zero =>
    exact (h.rep.needs_fuel hT fun tbl hmem => Nat.le_of_lt (hfuel tbl hmem)).elim
  | succ fuel ih =>
    obtain ⟨tbl, hmem, hrep⟩ := h.rep.table _ _ hT
    have hlen := hrep.length_le h.rep.strides
    have hpos := hrep.bits_pos h.rep.strides
    have hstart := hrep.start
    rw [length_addrPrefix] at hlen hstart
    have hslice : (addrSlice addr n tbl.bits).length = tbl.bits := length_addrSlice ..
    have hpath : addrSlice addr n tbl.bits ++ addrPrefix addr n
        = addrPrefix addr (n + tbl.bits) := (addrPrefix_add addr n tbl.bits).symm
    have hitem := hrep.fringe (addrSlice addr n tbl.bits) hslice
    rw [hpath, artItem] at hitem
    have hidx := hrep.findex h.rep.strides addr
    rw [length_addrPrefix] at hidx
    -- the slot has the best of the prefixes that end in this stride
    have hvalue : artValue s.ar.bits (routeOf s.routes) (addrPrefix addr (n + tbl.bits))
        = longestCover (routeOf s.routes) n (addrPrefix addr (n + tbl.bits)) := by
      have hne : addrSlice addr n tbl.bits ≠ [] := length_pos_iff.1 (by rwa [hslice])
      have hss := hrep.strideStart_eq hne (Nat.le_of_eq hslice)
      rw [length_addrPrefix] at hss
      rw [← hpath, artValue_of_ne (append_ne_nil_of_left_ne_nil hne _), hss]
    have hbest : (artValue s.ar.bits (routeOf s.routes) (addrPrefix addr (n + tbl.bits))).or
        (bestRoute (routeOf s.routes) (addrPrefix addr n))
          = bestRoute (routeOf s.routes) (addrPrefix addr (n + tbl.bits)) := by
      have happ := bestRoute_append (routeOf s.routes) (addrSlice addr n tbl.bits)
        (addrPrefix addr n)
      rw [hpath, length_addrPrefix] at happ
      rw [hvalue, happ]
    simp only [artMatchLoop, hmem, hrep.dflt h.rep.strides, ArtItem.asNode, hidx, hitem,
      Option.bind_eq_bind, Option.bind_some, hdflt]
    cases hc : T (addrPrefix addr (n + tbl.bits)) with
    | some c =>
      obtain ⟨sub, hsub, hsrep⟩ := h.rep.table _ _ hc
      refine ih hc (fun sub' hsub' => ?_) hbest
      obtain rfl : sub = sub' := Option.some.inj (hsub.symm.trans hsub')
      have hlevel := h.rep.level_lt hrep hsrep (by simp only [length_addrPrefix])
      have hbound := hfuel tbl hmem
      omega
    | none =>
      have hend := h.bestRoute_of_none hc (l := tbl.level + 1)
        (by rw [strideSum_succ hrep.stride, hstart]) hlen
      rw [hend, ← hbest]
      rfl

omit [DecidableEq ν] [DecidableEq τ] in
theorem ArtInv.match_eq (h : ArtInv s T) (addr : Nat → BitVec 8) :
    artMatch s.ar s.mem addr
      = some (bestRoute (routeOf s.routes) (addrPrefix addr s.ar.alen)) := by
  refine h.matchLoop (n := 0) h.rep.root (fun tbl _ => ?_) ?_
  · exact Nat.lt_of_le_of_lt h.rep.strides.few (by omega)
  · rw [Option.or_none]
    rfl

/-! ## After any calls -/

variable {off : Nat} {new : Option τ} {ar : ArtRoot τ} {mem : ArtMem ν τ} {plenOf : ν → Nat}
  {es : List (ArtCall ν τ)}

/-- What `art_match` returns is the node of the longest prefix of the address. -/
theorem artMatch_longest (hinit : artAttach off new = some (ar, mem))
    (hrun : Run artStep (fun _ _ => True) (artInit plenOf ar mem) es s)
    (addr : Nat → BitVec 8) :
    ∃ r, artMatch s.ar s.mem addr = some r ∧
      (r = none ↔ ∀ e ∈ s.routes, ¬ e.1 <:+ addrPrefix addr s.ar.alen) ∧
      ∀ an, r = some an ↔ ∃ P, (P, an) ∈ s.routes ∧ P <:+ addrPrefix addr s.ar.alen ∧
        ∀ e ∈ s.routes, e.1 <:+ addrPrefix addr s.ar.alen → e.1.length ≤ P.length := by
  obtain ⟨T, h⟩ := exists_artInv hinit hrun
  exact ⟨_, h.match_eq addr, bestRoute_eq_none_iff, fun an => bestRoute_eq_some_iff h.keys⟩

theorem artMatch_longest_ten : ∃ mem s, artAttach 32 (some 0) = some (arTen, mem) ∧
    Run artStep (fun _ _ => True) (artInit (fun _ => 0) arTen mem) [insertTen 8] s ∧
    artMatch s.ar s.mem addrTen = some (some 7) := by
  obtain ⟨mem, s, T, hinit, hstep, h, har, hroutes⟩ := exists_insertTen 8 (by decide)
  have hrun : Run artStep (fun _ _ => True) (artInit (fun _ => 0) arTen mem) [insertTen 8] s :=
    .cons trivial hstep (.nil s)
  obtain ⟨r, hmatch, -, hlongest⟩ := artMatch_longest hinit hrun addrTen
  refine ⟨mem, s, hinit, hrun, ?_⟩
  rw [hmatch, (hlongest 7).2]
  refine ⟨addrPrefix addrTen 8, by rw [hroutes]; exact mem_singleton_self _, ?_, ?_⟩
  · rw [har]
    exact addrPrefix_suffix (by decide)
  · rw [hroutes]
    intro e he _
    rewrite [mem_singleton.1 he]
    exact Nat.le_refl _

/-- `art_lookup` is perfect for a prefix if it is there, or if no shorter prefix that ends in
    the same stride covers it. -/
theorem artLookup_perfect_iff (hinit : artAttach off new = some (ar, mem))
    (hrun : Run artStep (fun _ _ => True) (artInit plenOf ar mem) es s)
    (addr : Nat → BitVec 8) (hplen : plen ≤ s.ar.alen) :
    (∃ r, artLookup s.ar s.mem addr plen = some r ∧
        ∀ an, r = some an ↔ (addrPrefix addr plen, an) ∈ s.routes) ↔
      (∃ an, (addrPrefix addr plen, an) ∈ s.routes) ∨
        ∀ e ∈ s.routes, e.1 <:+ addrPrefix addr plen →
          e.1.length ≤ strideStart s.ar.bits plen := by
  obtain ⟨T, h⟩ := exists_artInv hinit hrun
  have hperfect := artValue_perfect_iff s.ar.bits (P := addrPrefix addr plen) h.keys
  rw [length_addrPrefix] at hperfect
  rw [h.lookup hplen, ← hperfect]
  constructor
  · rintro ⟨r, hr, hall⟩
    rw [Option.some.inj hr]
    exact hall
  · exact fun hall => ⟨_, rfl, hall⟩

theorem artLookup_perfect_iff_ten : ∃ mem s, artAttach 32 (some 0) = some (arTen, mem) ∧
    Run artStep (fun _ _ => True) (artInit (fun _ => 0) arTen mem) [insertTen 8] s ∧
    ∃ r, artLookup s.ar s.mem addrTen 8 = some r ∧
      ∀ an, r = some an ↔ (addrPrefix addrTen 8, an) ∈ s.routes := by
  obtain ⟨mem, s, T, hinit, hstep, h, har, hroutes⟩ := exists_insertTen 8 (by decide)
  have hrun : Run artStep (fun _ _ => True) (artInit (fun _ => 0) arTen mem) [insertTen 8] s :=
    .cons trivial hstep (.nil s)
  refine ⟨mem, s, hinit, hrun,
    (artLookup_perfect_iff hinit hrun addrTen (by rw [har]; decide)).2 (.inl ⟨7, ?_⟩)⟩
  rw [hroutes]
  exact mem_singleton_self _

/-- With 10.0.0.0/8 in the table, the lookup of 10.0.0.0/9 gives its node. -/
theorem artLookup_shorter : ∃ mem s, artAttach 32 (some 0) = some (arTen, mem) ∧
    Run artStep (fun _ _ => True) (artInit (fun _ => 0) arTen mem) [insertTen 8] s ∧
    artLookup s.ar s.mem addrTen 9 = some (some 7) ∧
    ∀ an, (addrPrefix addrTen 9, an) ∉ s.routes := by
  obtain ⟨mem, s, T, hinit, hstep, h, har, hroutes⟩ := exists_insertTen 8 (by decide)
  refine ⟨mem, s, hinit, .cons trivial hstep (.nil s), ?_, ?_⟩
  · rw [h.lookup (by rw [har]; decide), har, hroutes]
    rfl
  · intro an hmem
    rw [hroutes] at hmem
    have hkey : addrPrefix addrTen 9 = addrPrefix addrTen 8 :=
      (Prod.mk.inj (mem_singleton.1 hmem)).1
    exact absurd hkey (by decide)

end

end OpenBsd.Net
