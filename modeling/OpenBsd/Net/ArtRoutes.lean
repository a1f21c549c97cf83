/-
  OpenBsd.Net.ArtRoutes

  What a list of routes means for the tables of `sys/net/art.c`.  A slot has the route of
  the longest prefix that covers its string and ends in its stride, the count of a table is
  one more than the number of its routes, and where there is no table there are no routes.
-/

import Mathlib.Data.List.Nodup
import OpenBsd.Net.ArtAllot

namespace OpenBsd.Net

open OpenBsd.Lib List Function

/-! ## Routes -/

section

variable {ν : Type}

/-- The node of a prefix. -/
def routeOf (routes : List (List Bool × ν)) (p : List Bool) : Option ν :=
  (routes.find? fun e => e.1 = p).map Prod.snd

/-- What the slot at a string has when these are the routes. -/
def artValue (bits : List Nat) (R : List Bool → Option ν) (p : List Bool) : Option ν :=
  if p = [] then R [] else longestCover R (strideStart bits p.length) p

/-- The count of the table at `g`. -/
def routeCount (bits : List Nat) (routes : List (List Bool × ν)) (g : List Bool) : Int :=
  1 + routes.countP fun e => e.1 ≠ [] ∧ strideHead bits e.1 = g

variable {routes : List (List Bool × ν)} {bits : List Nat} {P p g s u : List Bool} {an : ν}
  {R : List Bool → Option ν} {x : Option ν} {l w : Nat}

theorem routeOf_cons (P : List Bool) (an : ν) (routes : List (List Bool × ν)) :
    routeOf ((P, an) :: routes) = update (routeOf routes) P (some an) := by
  funext p
  by_cases hp : p = P
  · subst hp
    rw [update_self, routeOf, find?_cons_of_pos (by simp)]
    rfl
  · have hne : ¬ P = p := fun h => hp h.symm
    rw [update_of_ne hp, routeOf, find?_cons_of_neg (by simpa using hne)]
    rfl

theorem mem_of_routeOf (h : routeOf routes p = some an) : (p, an) ∈ routes := by
  obtain ⟨⟨q, a⟩, hfind, rfl⟩ := Option.map_eq_some_iff.1 h
  have hq : q = p := by simpa using find?_some hfind
  rw [← hq]
  exact mem_of_find?_eq_some hfind

theorem routeOf_eq_none_iff : routeOf routes p = none ↔ ∀ an, (p, an) ∉ routes := by
  rw [routeOf, Option.map_eq_none_iff, find?_eq_none]
  constructor
  · intro h an hmem
    exact absurd (decide_eq_true rfl) (h _ hmem)
  · rintro h ⟨q, an⟩ hmem hq
    have hqp : q = p := of_decide_eq_true hq
    exact h an (hqp ▸ hmem)

theorem routeOf_eq_some_iff (hkeys : (routes.map Prod.fst).Nodup) :
    routeOf routes p = some an ↔ (p, an) ∈ routes := by
  refine ⟨mem_of_routeOf, fun hmem => ?_⟩
  cases hr : routeOf routes p with
  | none => exact absurd hmem (routeOf_eq_none_iff.1 hr an)
  | some a =>
    have hsame := inj_on_of_nodup_map hkeys (mem_of_routeOf hr) hmem rfl
    rw [(Prod.mk.inj hsame).2]

theorem routeOf_filter (P : List Bool) (routes : List (List Bool × ν)) :
    routeOf (routes.filter fun e => e.1 ≠ P) = update (routeOf routes) P none := by
  funext p
  by_cases hp : p = P
  · subst hp
    rw [update_self, routeOf_eq_none_iff]
    intro an hmem
    simpa using (mem_filter.1 hmem).2
  · rw [update_of_ne hp, routeOf, routeOf]
    congr 1
    induction routes with
    | nil => rfl
    | cons e routes ih =>
      by_cases hP : e.1 = P
      · have hne : ¬ e.1 = p := fun h => hp (h.symm.trans hP)
        rw [filter_cons_of_neg (by simpa using hP), ih, find?_cons_of_neg (by simpa using hne)]
      · rw [filter_cons_of_pos (by simpa using hP), find?_cons, find?_cons, ih]

theorem routeOf_inj (hnodes : (routes.map Prod.snd).Nodup) {q : List Bool}
    (hp : routeOf routes p = some an) (hq : routeOf routes q = some an) : p = q := by
  have hsame := inj_on_of_nodup_map hnodes (mem_of_routeOf hp) (mem_of_routeOf hq) rfl
  exact (Prod.mk.inj hsame).1

/-! ## What the slots have -/

theorem artValue_of_ne (hp : p ≠ []) :
    artValue bits R p = longestCover R (strideStart bits p.length) p := if_neg hp

@[simp] theorem artValue_nil : artValue bits R [] = R [] := if_pos rfl

theorem artValue_eq_some (h : artValue bits R p = some an) :
    ∃ q, q <:+ p ∧ R q = some an ∧ (p ≠ [] → strideStart bits p.length < q.length) := by
  by_cases hp : p = []
  · subst hp
    exact ⟨[], suffix_rfl, h, fun hne => absurd rfl hne⟩
  · rw [artValue_of_ne hp] at h
    obtain ⟨q, hq, hlen, hRq, -⟩ := longestCover_eq_some h
    exact ⟨q, hq, hRq, fun _ => hlen⟩

theorem artValue_of_some (hP : strideStart bits P.length < P.length ∨ P = [])
    (h : R P = some an) : artValue bits R P = some an := by
  cases P with
  | nil => exact h
  | cons b P =>
    rw [artValue_of_ne (cons_ne_nil b P)]
    exact longestCover_of_some (hP.resolve_right (cons_ne_nil b P)) h

theorem artValue_update_nil : artValue bits (update R [] x) = update (artValue bits R) [] x := by
  funext p
  by_cases hp : p = []
  · subst hp
    rw [artValue_nil, update_self, update_self]
  · rw [update_of_ne hp, artValue_of_ne hp, artValue_of_ne hp]
    exact longestCover_update_of_not_suffix fun _ => Nat.zero_le _

/-- When the entry of a prefix changes, so do the slots below it in its stride. -/
theorem artValue_update [DecidableEq ν] (hg : g.length = strideSum bits l)
    (hw : bits[l]? = some w) (hs : s ≠ []) (hle : s.length ≤ w)
    (hne : ∀ u c, u ≠ [] → R (u ++ (s ++ g)) = some c → some c ≠ artValue bits R (s ++ g)) :
    artValue bits (update R (s ++ g) x)
      = replaceDown (artValue bits R (s ++ g))
          (longestCover (update R (s ++ g) x) g.length (s ++ g)) (w - s.length) (s ++ g)
          (artValue bits R) := by
  have hpos := length_pos_iff.2 hs
  have hP : s ++ g ≠ [] := append_ne_nil_of_left_ne_nil hs g
  have hlenP : (s ++ g).length = s.length + g.length := length_append
  have hstart : ∀ u : List Bool, u.length ≤ w - s.length →
      strideStart bits (u ++ (s ++ g)).length = g.length := by
    intro u hu
    rw [hg]
    refine strideStart_eq hw ?_ ?_ <;> rw [length_append, hlenP] <;> omega
  have hvalue : ∀ u : List Bool, u.length ≤ w - s.length →
      artValue bits R (u ++ (s ++ g)) = longestCover R g.length (u ++ (s ++ g)) := by
    intro u hu
    rw [artValue_of_ne (append_ne_nil_of_right_ne_nil u hP), hstart u hu]
  have hold : artValue bits R (s ++ g) = longestCover R g.length (s ++ g) := by
    have h := hvalue [] (Nat.zero_le _)
    rwa [nil_append] at h
  funext p
  by_cases hp : s ++ g <:+ p
  · obtain ⟨u, rfl⟩ := hp
    have hne₀ : u ++ (s ++ g) ≠ [] := append_ne_nil_of_right_ne_nil u hP
    by_cases hu : u.length ≤ w - s.length
    · have hcover := longestCover_update (R := R) (x := x) (o := g.length) (P := s ++ g)
        (by rw [hlenP]; omega) (by rw [← hold]; exact hne) u
      have hunbroken : Unbroken (artValue bits R) (artValue bits R (s ++ g)) (s ++ g) u ↔
          Unbroken (longestCover R g.length) (longestCover R g.length (s ++ g)) (s ++ g) u := by
        rw [hold]
        exact unbroken_congr fun u' hu' => hvalue u' (Nat.le_trans hu'.length_le hu)
      have hdown := @replaceDown_apply ν _ (artValue bits R) (artValue bits R (s ++ g))
        (longestCover (update R (s ++ g) x) g.length (s ++ g)) (s ++ g) _ u hu
      rw [artValue_of_ne hne₀, hstart u hu]
      by_cases hun : Unbroken (artValue bits R) (artValue bits R (s ++ g)) (s ++ g) u
      · rw [hdown.1 hun, hcover.1 (hunbroken.1 hun)]
      · rw [hdown.2 hun, hcover.2 fun h => hun (hunbroken.2 h), hvalue u hu]
    · -- behind the stride
      rw [replaceDown_of_length_lt (Nat.lt_of_not_le hu), artValue_of_ne hne₀, artValue_of_ne hne₀]
      refine longestCover_update_of_not_suffix fun _ => ?_
      have hbound : strideSum bits (l + 1) < (u ++ (s ++ g)).length := by
        rw [strideSum_succ hw, length_append, hlenP]
        omega
      have hle' := strideSum_le_strideStart hbound
      rw [strideSum_succ hw] at hle'
      omega
  · rw [replaceDown_of_not_suffix hp]
    by_cases hp₀ : p = []
    · subst hp₀
      rw [artValue_nil, artValue_nil, update_of_ne hP.symm]
    · rw [artValue_of_ne hp₀, artValue_of_ne hp₀]
      exact longestCover_update_of_not_suffix fun h => absurd h hp

/-! ## Counts -/

theorem countP_filter_key (hkeys : (routes.map Prod.fst).Nodup) (hmem : (P, an) ∈ routes)
    (f : List Bool × ν → Bool) :
    routes.countP f
      = (routes.filter fun e => e.1 ≠ P).countP f + if f (P, an) then 1 else 0 := by
  induction routes with
  | nil => cases hmem
  | cons e routes ih =>
    rw [map_cons, nodup_cons] at hkeys
    by_cases he : e.1 = P
    · have hrest : routes.filter (fun e => e.1 ≠ P) = routes := by
        refine filter_eq_self.2 fun e' he' => ?_
        have hne : e'.1 ≠ P := fun h => hkeys.1 (he ▸ h ▸ mem_map_of_mem he')
        simpa using hne
      have hhead : e = (P, an) := by
        rcases mem_cons.1 hmem with rfl | hin
        · rfl
        · exact absurd (he ▸ mem_map_of_mem hin) hkeys.1
      rw [filter_cons_of_neg (by simpa using he), hrest, countP_cons, hhead]
    · have hin : (P, an) ∈ routes := by
        rcases mem_cons.1 hmem with rfl | hin
        · exact absurd rfl he
        · exact hin
      rw [filter_cons_of_pos (by simpa using he), countP_cons, countP_cons, ih hkeys.2 hin]
      omega

theorem routeCount_cons (bits : List Nat) (hP : P ≠ []) (an : ν)
    (routes : List (List Bool × ν)) :
    routeCount bits ((P, an) :: routes)
      = update (routeCount bits routes) (strideHead bits P)
          (routeCount bits routes (strideHead bits P) + 1) := by
  funext g
  by_cases hg : g = strideHead bits P
  · subst hg
    rw [update_self, routeCount, routeCount, countP_cons_of_pos (by simp [hP])]
    omega
  · have hne : ¬ strideHead bits P = g := fun h => hg h.symm
    rw [update_of_ne hg, routeCount, routeCount, countP_cons_of_neg (by simp [hne])]

theorem routeCount_cons_nil (an : ν) (routes : List (List Bool × ν)) :
    routeCount bits (([], an) :: routes) = routeCount bits routes := by
  funext g
  rw [routeCount, routeCount, countP_cons_of_neg (by simp)]

theorem routeCount_filter (bits : List Nat) (hkeys : (routes.map Prod.fst).Nodup) (hP : P ≠ [])
    (hmem : (P, an) ∈ routes) :
    routeCount bits (routes.filter fun e => e.1 ≠ P)
      = update (routeCount bits routes) (strideHead bits P)
          (routeCount bits routes (strideHead bits P) - 1) := by
  funext g
  have hcount := countP_filter_key hkeys hmem fun e => decide (e.1 ≠ [] ∧ strideHead bits e.1 = g)
  by_cases hg : g = strideHead bits P
  · subst hg
    rw [if_pos (by simp [hP])] at hcount
    rw [update_self, routeCount, routeCount, hcount]
    omega
  · have hne : ¬ strideHead bits P = g := fun h => hg h.symm
    rw [if_neg (by simp [hne])] at hcount
    rw [update_of_ne hg, routeCount, routeCount, hcount, Nat.add_zero]

theorem routeCount_filter_nil (hkeys : (routes.map Prod.fst).Nodup) (hmem : ([], an) ∈ routes) :
    routeCount bits (routes.filter fun e => e.1 ≠ []) = routeCount bits routes := by
  funext g
  have hcount := countP_filter_key hkeys hmem fun e => decide (e.1 ≠ [] ∧ strideHead bits e.1 = g)
  rw [if_neg (by simp), Nat.add_zero] at hcount
  rw [routeCount, routeCount, hcount]

end

/-! ## New tables on the way -/

section

variable {ν τ : Type} [DecidableEq ν] [DecidableEq τ]

variable {ar : ArtRoot τ} {mem : ArtMem ν τ} {T : List Bool → Option τ}
  {V : List Bool → Option ν} {c : List Bool → Int} {g s : List Bool} {t : τ}
  {tbl : ArtTable ν τ} {addr : Nat → BitVec 8} {news : List (Option τ)}

/-- Where there is no table there are no routes, and none are counted. -/
structure EmptyWithout (bits : List Nat) (T : List Bool → Option τ) (V : List Bool → Option ν)
    (c : List Bool → Int) : Prop where
  value : ∀ g, T g = none → ∀ l w, g.length = strideSum bits l → bits[l]? = some w →
    ∀ s, s ≠ [] → s.length ≤ w → V (s ++ g) = none
  count : ∀ g, T g = none → c g = 1

omit [DecidableEq ν] [DecidableEq τ] in
theorem EmptyWithout.mono {bits : List Nat} {T' : List Bool → Option τ}
    (h : EmptyWithout bits T V c) (hT : ∀ g t, T g = some t → T' g = some t) :
    EmptyWithout bits T' V c := by
  have hnone : ∀ g, T' g = none → T g = none := by
    intro g hg
    cases hg' : T g with
    | none => rfl
    | some t => exact absurd ((hT g t hg').symm.trans hg) (Option.some_ne_none t)
  exact ⟨fun g hg => h.value g (hnone g hg), fun g hg => h.count g (hnone g hg)⟩

omit [DecidableEq ν] in
theorem ArtRep.grow_child (h : ArtRep ar mem T V c) (hmem : mem t = some tbl)
    (hrep : TableRep ar.bits T V c g tbl) {plen fuel : Nat} {c' : τ}
    (hdeep : g.length + tbl.bits < plen)
    (hc : T (addrSlice addr g.length tbl.bits ++ g) = some c') :
    artGrow ar addr plen (fuel + 1) news mem t = artGrow ar addr plen fuel news mem c' := by
  have hitem := hrep.fringe (addrSlice addr g.length tbl.bits) (length_addrSlice ..)
  rw [artItem, hc] at hitem
  simp only [artGrow, hmem, Option.bind_eq_bind, Option.bind_some, hrep.offset, if_pos hdeep,
    hrep.findex h.strides addr, hitem]

omit [DecidableEq ν] in
theorem ArtRep.grow_fail (h : ArtRep ar mem T V c) (hmem : mem t = some tbl)
    (hrep : TableRep ar.bits T V c g tbl) {plen fuel w : Nat}
    (hdeep : g.length + tbl.bits < plen) (hc : T (addrSlice addr g.length tbl.bits ++ g) = none)
    (hw : ar.bits[tbl.level + 1]? = some w) (hnone : news.head?.join = none) :
    artGrow ar addr plen (fuel + 1) news mem t = some (mem, none) := by
  have hslice : (addrSlice addr g.length tbl.bits).length = tbl.bits := length_addrSlice ..
  have hitem := hrep.fringe (addrSlice addr g.length tbl.bits) hslice
  have hpos := hrep.bits_pos h.strides
  have htwo : 2 ≤ heapIdx (addrSlice addr g.length tbl.bits) := by
    cases hs : addrSlice addr g.length tbl.bits with
    | nil =>
      rw [hs] at hslice
      exact absurd hslice (Nat.ne_of_lt hpos)
    | cons b s => exact two_le_heapIdx_cons b s
  have hj : ((heapIdx (addrSlice addr g.length tbl.bits) : Nat) : Int) ≠ 0 ∧
      ((heapIdx (addrSlice addr g.length tbl.bits) : Nat) : Int) ≠ 1 := by omega
  rw [artItem, hc] at hitem
  simp only [artGrow, hmem, Option.bind_eq_bind, Option.bind_some, hrep.offset, if_pos hdeep,
    hrep.findex h.strides addr, hitem, artTableGet, guard, if_pos hj, hw, hnone, ne_eq, reduceCtorEq,
    not_false_eq_true, true_or, if_true, Option.pure_def]

omit [DecidableEq ν] in
theorem ArtRep.grow_new (h : ArtRep ar mem T V c) (hmem : mem t = some tbl)
    (hrep : TableRep ar.bits T V c g tbl) {plen fuel w : Nat} {t' : τ}
    (hdeep : g.length + tbl.bits < plen) (hc : T (addrSlice addr g.length tbl.bits ++ g) = none)
    (hw : ar.bits[tbl.level + 1]? = some w) (hnew : mem t' = none) :
    artGrow ar addr plen (fuel + 1) (some t' :: news) mem t
      = artGrow ar addr plen fuel news (update
          (update mem t' (some (subtable tbl t (heapIdx (addrSlice addr g.length tbl.bits))
            w (V (addrSlice addr g.length tbl.bits ++ g))))) t
          (some (tbl.setItem (heapIdx (addrSlice addr g.length tbl.bits)) (.child t')))) t' := by
  have hslice : (addrSlice addr g.length tbl.bits).length = tbl.bits := length_addrSlice ..
  have hitem := hrep.fringe (addrSlice addr g.length tbl.bits) hslice
  have hget := h.tableGet hmem hrep hslice hc hw hnew
  have htt : t ≠ t' := by
    rintro rfl
    exact Option.some_ne_none tbl (hmem.symm.trans hnew)
  rw [artItem, hc] at hitem
  simp only [artGrow, hmem, Option.bind_eq_bind, Option.bind_some, hrep.offset, if_pos hdeep,
    hrep.findex h.strides addr, hitem, head?_cons, Option.join_some, hget, ArtMem.setItem,
    update_of_ne htt, Option.pure_def, tail_cons]

omit [DecidableEq ν] in
/-- One subtable more on the way. -/
theorem ArtRep.grow_step (h : ArtRep ar mem T V c) (hempty : EmptyWithout ar.bits T V c)
    (hT : T g = some t) (hmem : mem t = some tbl) (hrep : TableRep ar.bits T V c g tbl)
    (fuel : Nat) {plen w : Nat} {t' : τ} (hdeep : g.length + tbl.bits < plen)
    (hc : T (addrSlice addr g.length tbl.bits ++ g) = none)
    (hw : ar.bits[tbl.level + 1]? = some w) (hnews : FreshNews mem (some t' :: news)) :
    ∃ mem₂, artGrow ar addr plen (fuel + 1) (some t' :: news) mem t
        = artGrow ar addr plen fuel news mem₂ t' ∧
      ArtRep ar mem₂ (update T (addrSlice addr g.length tbl.bits ++ g) (some t')) V c ∧
      FreshNews mem₂ news ∧ ∃ sub, mem₂ t' = some sub ∧ sub.level = tbl.level + 1 := by
  obtain ⟨hnodup, hfree⟩ := hnews
  have hfilter : (some t' :: news).filterMap id = t' :: news.filterMap id := rfl
  rw [hfilter] at hnodup hfree
  have hnew : mem t' = none := Option.isNone_iff_eq_none.1 (hfree t' mem_cons_self)
  have hslice : (addrSlice addr g.length tbl.bits).length = tbl.bits := length_addrSlice ..
  have htt : t ≠ t' := by
    rintro rfl
    exact Option.some_ne_none tbl (hmem.symm.trans hnew)
  have hstart : (addrSlice addr g.length tbl.bits ++ g).length
      = strideSum ar.bits (tbl.level + 1) := by
    rw [length_append, hslice, strideSum_succ hrep.stride, hrep.start, Nat.add_comm]
  have hsub := h.addTable hT hmem hrep hslice hc hw hnew
    (hempty.value _ hc (tbl.level + 1) w hstart hw)
  have hcount : update c (addrSlice addr g.length tbl.bits ++ g) 1 = c :=
    update_eq_self_iff.2 (hempty.count _ hc).symm
  rw [hcount] at hsub
  refine ⟨_, h.grow_new hmem hrep hdeep hc hw hnew, hsub, ⟨(nodup_cons.1 hnodup).2, ?_⟩,
    subtable tbl t (heapIdx (addrSlice addr g.length tbl.bits)) w
      (V (addrSlice addr g.length tbl.bits ++ g)), ?_, rfl⟩
  · intro t₀ ht₀
    have hfree₀ := hfree t₀ (mem_cons_of_mem t' ht₀)
    have hne : t₀ ≠ t := by
      rintro rfl
      rw [hmem] at hfree₀
      cases hfree₀
    have hne' : t₀ ≠ t' := by
      rintro rfl
      exact (nodup_cons.1 hnodup).1 ht₀
    rwa [update_of_ne hne, update_of_ne hne']
  · rw [update_of_ne htt.symm, update_self]

omit [DecidableEq ν] in
/-- The loop of `art_insert`: it ends at the table in whose stride the length ends, or
    `malloc` has failed; all that is new are tables on the way. -/
theorem ArtRep.grow (h : ArtRep ar mem T V c) (hempty : EmptyWithout ar.bits T V c)
    (addr : Nat → BitVec 8) (fuel : Nat) {plen n : Nat} (hplen : plen ≤ ar.alen)
    (ht : T (addrPrefix addr n) = some t)
    (hn : n < plen) (hfuel : ∀ tbl, mem t = some tbl → ar.bits.length < fuel + tbl.level)
    (hnews : FreshNews mem news) :
    ∃ mem' r T', artGrow ar addr plen fuel news mem t = some (mem', r) ∧
      ArtRep ar mem' T' V c ∧ (∀ g t, T g = some t → T' g = some t) ∧
      (∀ g, (T' g).isSome → (T g).isSome ∨ ∃ m < plen, g = addrPrefix addr m) ∧
      (∀ t', r = some t' → T' (addrPrefix addr (strideStart ar.bits plen)) = some t') ∧
      ((∀ x ∈ news, x.isSome) →
        (∀ tbl, mem t = some tbl → ar.bits.length ≤ news.length + tbl.level) → r ≠ none) := by
  induction fuel generalizing n t mem T news c with
  | zero =>
    exact (h.needs_fuel ht fun tbl hmem => Nat.le_of_lt (hfuel tbl hmem)).elim
  | succ fuel ih =>
    obtain ⟨tbl, hmem, hrep⟩ := h.table _ _ ht
    have hlen := length_addrPrefix addr n
    have hstart := hrep.start
    rw [hlen] at hstart
    have hpath : addrSlice addr (addrPrefix addr n).length tbl.bits ++ addrPrefix addr n
        = addrPrefix addr (n + tbl.bits) := by
      rw [hlen]
      exact (addrPrefix_add addr n tbl.bits).symm
    by_cases hdeep : n + tbl.bits < plen
    · have hdeep' : (addrPrefix addr n).length + tbl.bits < plen := by rwa [hlen]
      cases hc : T (addrPrefix addr (n + tbl.bits)) with
      | some c' =>
        obtain ⟨sub, hsub, hsrep⟩ := h.table _ _ hc
        have hlevel := h.level_lt hrep hsrep (by simp only [length_addrPrefix])
        have hbound := hfuel tbl hmem
        have hsubfuel : ∀ sub', mem c' = some sub' → ar.bits.length < fuel + sub'.level := by
          intro sub' hsub'
          obtain rfl : sub = sub' := Option.some.inj (hsub.symm.trans hsub')
          omega
        obtain ⟨mem', r, T', hrun, hrep', hmono, hold, hres, hok⟩ :=
          ih h hempty hc hdeep hsubfuel hnews
        refine ⟨mem', r, T', ?_, hrep', hmono, hold, hres, fun hall hlen => ?_⟩
        · rw [h.grow_child hmem hrep hdeep' (hpath ▸ hc), hrun]
        · refine hok hall fun sub' hsub' => ?_
          obtain rfl : sub = sub' := Option.some.inj (hsub.symm.trans hsub')
          have := hlen tbl hmem
          omega
      | none =>
        obtain ⟨w, hw⟩ : ∃ w, ar.bits[tbl.level + 1]? = some w := by
          refine exists_stride ?_
          rw [strideSum_succ hrep.stride, ← hstart, h.strides.sum]
          omega
        have hc' : T (addrSlice addr (addrPrefix addr n).length tbl.bits ++ addrPrefix addr n)
            = none := hpath ▸ hc
        by_cases hnone : news.head?.join = none
        · refine ⟨mem, none, T, h.grow_fail hmem hrep hdeep' hc' hw hnone, h,
            fun _ _ hg => hg, fun g hg => .inl hg,
            fun t' ht' => absurd ht'.symm (Option.some_ne_none t'), ?_⟩
          intro hall hlen
          exfalso
          have hlt := (List.getElem?_eq_some_iff.1 hw).1
          have hbound := hlen tbl hmem
          cases news with
          | nil =>
            rw [length_nil] at hbound
            omega
          | cons x news =>
            have hx := hall x mem_cons_self
            rw [head?_cons, Option.join_some] at hnone
            rw [hnone] at hx
            cases hx
        · obtain ⟨t', news', rfl⟩ : ∃ t' news', news = some t' :: news' := by
            match news, hnone with
            | some t' :: news', _ => exact ⟨t', news', rfl⟩
          obtain ⟨mem₂, hrun₂, hrep₂, hnews₂, sub, hsub, hlevel⟩ :=
            h.grow_step hempty ht hmem hrep fuel hdeep' hc' hw hnews
          rw [hpath] at hrep₂
          have hmono₂ : ∀ g t₀, T g = some t₀ →
              update T (addrPrefix addr (n + tbl.bits)) (some t') g = some t₀ := by
            intro g t₀ hg
            rw [update_of_ne]
            · exact hg
            · rintro rfl
              exact Option.some_ne_none t₀ (hg.symm.trans hc)
          have hbound := hfuel tbl hmem
          have hsubfuel : ∀ sub', mem₂ t' = some sub' → ar.bits.length < fuel + sub'.level := by
            intro sub' hsub'
            obtain rfl : sub = sub' := Option.some.inj (hsub.symm.trans hsub')
            omega
          obtain ⟨mem', r, T', hrun, hrep', hmono, hold, hres, hok⟩ :=
            ih hrep₂ (hempty.mono hmono₂) (update_self ..) hdeep hsubfuel hnews₂
          refine ⟨mem', r, T', hrun₂.trans hrun, hrep',
            fun g t₀ hg => hmono g t₀ (hmono₂ g t₀ hg), fun g hg => ?_, hres,
            fun hall hlen => ?_⟩
          · rcases hold g hg with hg | hg
            · by_cases hgn : g = addrPrefix addr (n + tbl.bits)
              · exact .inr ⟨_, hdeep, hgn⟩
              · rw [update_of_ne hgn] at hg
                exact .inl hg
            · exact .inr hg
          · refine hok (fun x hx => hall x (mem_cons_of_mem _ hx)) fun sub' hsub' => ?_
            obtain rfl : sub = sub' := Option.some.inj (hsub.symm.trans hsub')
            have hmore := hlen tbl hmem
            rw [length_cons] at hmore
            omega
    · have hss : strideStart ar.bits plen = n := by
        rw [hstart]
        exact Net.strideStart_eq hrep.stride (by omega) (by omega)
      refine ⟨mem, some t, T, ?_, h, fun _ _ hg => hg, fun g hg => .inl hg, ?_,
        fun _ _ => Option.some_ne_none t⟩
      · have hoff : ¬ tbl.offset + tbl.bits < plen := by rwa [hrep.offset, hlen]
        simp only [artGrow, hmem, Option.bind_eq_bind, Option.bind_some, if_neg hoff]
        rfl
      · intro t' ht'
        rw [hss, ← ht', ht]

end

end OpenBsd.Net
