/-
  OpenBsd.Net.ArtRep

  What the tables of `sys/net/art.c` hold.  A table stands at a bit string, the part of the
  address in front of it, and each slot of its heap at the string that its bits extend this
  one to.  The memory is described by the table and the route at each string.
-/

import OpenBsd.Net.ArtIndex

namespace OpenBsd.Net

open OpenBsd.Lib List Function

section

variable {ν τ : Type}

/-- The item in the fringe at a string: a table, or else a route. -/
def artItem (T : List Bool → Option τ) (V : List Bool → Option ν) (p : List Bool) :
    ArtItem ν τ :=
  match T p with
  | some t => .child t
  | none => .node (V p)

structure TableRep (bits : List Nat) (T : List Bool → Option τ) (V : List Bool → Option ν)
    (c : List Bool → Int) (g : List Bool) (tbl : ArtTable ν τ) : Prop where
  stride : bits[tbl.level]? = some tbl.bits
  start : g.length = strideSum bits tbl.level
  offset : tbl.offset = g.length
  minfringe : tbl.minfringe = 2 ^ tbl.bits
  refcnt : tbl.refcnt = c g
  inner : ∀ s : List Bool, s.length < tbl.bits → tbl.heap (heapIdx s) = .node (V (s ++ g))
  fringe : ∀ s : List Bool, s.length = tbl.bits → tbl.heap (heapIdx s) = artItem T V (s ++ g)

/-- The part of a string in front of the stride in which it ends. -/
def strideHead (bits : List Nat) (p : List Bool) : List Bool :=
  p.drop (p.length - strideStart bits p.length)

/-- The memory holds the tables `T` with the routes `V` and the counters `c`. -/
structure ArtRep (ar : ArtRoot τ) (mem : ArtMem ν τ) (T : List Bool → Option τ)
    (V : List Bool → Option ν) (c : List Bool → Int) : Prop where
  strides : ByteStrides ar.bits ar.alen
  root : T [] = some ar.root
  inj : ∀ {g g' t}, T g = some t → T g' = some t → g = g'
  alloc : ∀ t, (mem t).isSome → ∃ g, T g = some t
  table : ∀ g t, T g = some t → ∃ tbl, mem t = some tbl ∧ TableRep ar.bits T V c g tbl
  up : ∀ g, g ≠ [] → (T g).isSome → (T (strideHead ar.bits g)).isSome

variable {ar : ArtRoot τ} {mem : ArtMem ν τ} {T : List Bool → Option τ}
  {V : List Bool → Option ν} {c : List Bool → Int} {bits : List Nat} {alen : Nat}
  {g g' p s s' : List Bool} {t : τ} {tbl tbl' : ArtTable ν τ} {addr : Nat → BitVec 8}

/-! ## Strides of a table -/

section

variable (h : TableRep bits T V c g tbl) (hb : ByteStrides bits alen)
include h hb

theorem TableRep.bits_eq : tbl.bits = 8 ∨ tbl.bits = 16 := hb.stride h.stride

theorem TableRep.bits_pos : 0 < tbl.bits := by
  rcases h.bits_eq hb with h | h <;> omega

theorem TableRep.offset_mod : tbl.offset % 8 = 0 := by
  rw [h.offset, h.start]
  exact hb.strideSum_mod _

theorem TableRep.length_le : g.length + tbl.bits ≤ alen := by
  rw [h.start, ← hb.sum]
  exact strideSum_add_le_sum h.stride

end

section

variable (h : TableRep bits T V c g tbl)
include h

theorem TableRep.strideStart_eq (hs : s ≠ []) (hle : s.length ≤ tbl.bits) :
    strideStart bits (s ++ g).length = g.length := by
  have hpos := length_pos_iff.2 hs
  rw [h.start]
  refine Net.strideStart_eq h.stride ?_ ?_ <;> rw [length_append, h.start] <;> omega

theorem TableRep.strideHead_eq (hs : s ≠ []) (hle : s.length ≤ tbl.bits) :
    strideHead bits (s ++ g) = g := by
  rw [strideHead, h.strideStart_eq hs hle, length_append, Nat.add_sub_cancel, drop_left]

theorem TableRep.place_unique (h' : TableRep bits T V c g' tbl') (hs : s ≠ []) (hs' : s' ≠ [])
    (hle : s.length ≤ tbl.bits) (hle' : s'.length ≤ tbl'.bits) (heq : s ++ g = s' ++ g') :
    g = g' ∧ s = s' := by
  have hg : g = g' := by
    rw [← h.strideHead_eq hs hle, heq, h'.strideHead_eq hs' hle']
  subst hg
  exact ⟨rfl, append_cancel_right heq⟩

theorem TableRep.not_inside (h' : TableRep bits T V c g' tbl') (hs : s ≠ [])
    (hlt : s.length < tbl.bits) : s ++ g ≠ g' := by
  intro heq
  have hpos := length_pos_iff.2 hs
  have hlen := congrArg List.length heq
  rw [length_append, h.start, h'.start] at hlen
  by_cases hlevel : tbl'.level ≤ tbl.level
  · have hmono := strideSum_mono bits hlevel
    omega
  · have hmono := strideSum_mono bits (Nat.succ_le_of_lt (Nat.lt_of_not_le hlevel))
    rw [Nat.succ_eq_add_one, strideSum_succ h.stride] at hmono
    omega

theorem TableRep.findex (hb : ByteStrides bits alen) (addr : Nat → BitVec 8) :
    artFindex tbl addr = some (heapIdx (addrSlice addr g.length tbl.bits)) := by
  rw [artFindex_eq (h.bits_eq hb) (h.offset_mod hb), h.offset]

theorem TableRep.bindex (hb : ByteStrides bits alen) (addr : Nat → BitVec 8) {n : Nat}
    (hn : n ≤ tbl.bits) :
    artBindex tbl addr (g.length + n) = some (some (heapIdx (addrSlice addr g.length n))) := by
  have hidx := artBindex_eq addr (h.bits_eq hb) (h.offset_mod hb) hn
  rwa [h.offset] at hidx

end

/-! ## Reading -/

theorem TableRep.dflt (h : TableRep bits T V c g tbl) (hb : ByteStrides bits alen) :
    tbl.dflt = .node (V g) := h.inner [] (h.bits_pos hb)

theorem ArtRep.slotNode (h : ArtRep ar mem T V c) (ht : TableRep ar.bits T V c g tbl)
    (hle : s.length ≤ tbl.bits) : mem.slotNode (tbl.heap (heapIdx s)) = some (V (s ++ g)) := by
  rcases Nat.lt_or_eq_of_le hle with hlt | heq
  · rw [ht.inner s hlt]
    rfl
  · rw [ht.fringe s heq, artItem]
    split
    · next c' hc =>
      obtain ⟨sub, hsub, hrep⟩ := h.table _ _ hc
      rw [ArtMem.slotNode, hsub, Option.bind_eq_bind, Option.bind_some, hrep.dflt h.strides]
      rfl
    · rfl

theorem drop_addrPrefix {n m : Nat} (h : n ≤ m) :
    (addrPrefix addr m).drop (m - n) = addrPrefix addr n := by
  obtain ⟨k, rfl⟩ := Nat.exists_eq_add_of_le h
  rw [addrPrefix_add, Nat.add_sub_cancel_left]
  exact drop_left' (length_addrSlice ..)

theorem strideHead_addrPrefix (bits : List Nat) (addr : Nat → BitVec 8) {n : Nat} (hpos : 0 < n) :
    strideHead bits (addrPrefix addr n) = addrPrefix addr (strideStart bits n) := by
  rw [strideHead, length_addrPrefix]
  exact drop_addrPrefix (Nat.le_of_lt (strideStart_lt bits hpos))

theorem TableRep.le_of_strideStart (h : TableRep bits T V c g tbl) (hb : ByteStrides bits alen)
    {n : Nat} (hn : strideStart bits n = g.length) : n ≤ g.length + tbl.bits := by
  by_contra hgt
  have hle := strideSum_le_strideStart
    (show strideSum bits (tbl.level + 1) < n by rw [strideSum_succ h.stride, ← h.start]; omega)
  have hpos := h.bits_pos hb
  rw [strideSum_succ h.stride, ← h.start, hn] at hle
  omega

section

variable (h : ArtRep ar mem T V c)
include h

theorem ArtRep.place {plen : Nat} (hpos : 0 < plen)
    (hT : T (addrPrefix addr (strideStart ar.bits plen)) = some t) :
    ∃ tbl n, mem t = some tbl ∧
      TableRep ar.bits T V c (addrPrefix addr (strideStart ar.bits plen)) tbl ∧
      n + 1 ≤ tbl.bits ∧ addrPrefix addr plen
        = addrSlice addr (strideStart ar.bits plen) (n + 1)
          ++ addrPrefix addr (strideStart ar.bits plen) ∧
      artBindex tbl addr plen
        = some (some (heapIdx (addrSlice addr (strideStart ar.bits plen) (n + 1)))) := by
  obtain ⟨tbl, hmem, ht⟩ := h.table _ _ hT
  have hlo := strideStart_lt ar.bits hpos
  have hhi := ht.le_of_strideStart h.strides (length_addrPrefix ..).symm
  rw [length_addrPrefix] at hhi
  obtain ⟨n, hn⟩ := Nat.exists_eq_add_of_lt hlo
  rw [Nat.add_assoc] at hn
  have hnle : n + 1 ≤ tbl.bits := by omega
  have hidx := ht.bindex h.strides addr hnle
  rw [length_addrPrefix, ← hn] at hidx
  refine ⟨tbl, n, hmem, ht, hnle, ?_, hidx⟩
  conv_lhs => rw [hn]
  exact addrPrefix_add ..

/-- The tables on the way to a table. -/
theorem ArtRep.up_closed {l : Nat} (hp : (T p).isSome) (hl : strideSum ar.bits l ≤ p.length) :
    (T (p.drop (p.length - strideSum ar.bits l))).isSome := by
  generalize hn : p.length = n at hl
  induction n using Nat.strongRecOn generalizing p with
  | _ n ih =>
    obtain ⟨t, ht⟩ := Option.isSome_iff_exists.1 hp
    obtain ⟨tbl, -, hrep⟩ := h.table _ _ ht
    rcases Nat.lt_or_eq_of_le hl with hlt | heq
    · have hne : p ≠ [] := by
        rintro rfl
        rw [← hn] at hlt
        exact Nat.not_lt_zero _ hlt
      have hlevel : l < tbl.level := by
        by_contra hge
        have hmono := strideSum_mono ar.bits (Nat.le_of_not_lt hge)
        rw [← hrep.start, hn] at hmono
        omega
      obtain ⟨k, hk⟩ := Nat.exists_eq_add_of_lt (Nat.zero_lt_of_lt hlevel)
      have hk' : tbl.level = k + 1 := by omega
      have hstart := hrep.start
      rw [hk'] at hstart
      -- the stride in which `p` ends
      obtain ⟨w, hw⟩ : ∃ w, ar.bits[k]? = some w := by
        have hlt' : tbl.level < ar.bits.length :=
          (List.getElem?_eq_some_iff.1 hrep.stride).1
        exact ⟨_, getElem?_eq_getElem (show k < ar.bits.length by omega)⟩
      have hwpos : 0 < w := by
        rcases h.strides.stride hw with h | h <;> omega
      have hss : strideStart ar.bits p.length = strideSum ar.bits k := by
        rw [hstart, strideSum_succ hw]
        exact Net.strideStart_eq hw (Nat.lt_add_of_pos_right hwpos) (Nat.le_refl _)
      have hup := h.up p hne hp
      rw [strideHead, hss] at hup
      rw [strideSum_succ hw] at hstart
      have hmono := strideSum_mono ar.bits (show l ≤ k by omega)
      have hlen : (p.drop (p.length - strideSum ar.bits k)).length = strideSum ar.bits k := by
        rw [length_drop]
        omega
      have hrest := ih (strideSum ar.bits k) (by omega) hup hlen hmono
      rwa [List.drop_drop, hn, show n - strideSum ar.bits k
        + (strideSum ar.bits k - strideSum ar.bits l) = n - strideSum ar.bits l by omega] at hrest
    · rw [heq, Nat.sub_self, List.drop_zero]
      exact hp

theorem ArtRep.level_lt (ht : TableRep ar.bits T V c g tbl) (ht' : TableRep ar.bits T V c g' tbl')
    (hlen : g'.length = g.length + tbl.bits) : tbl.level < tbl'.level := by
  by_contra hge
  have hmono := strideSum_mono ar.bits (Nat.le_of_not_lt hge)
  have hpos := ht.bits_pos h.strides
  rw [← ht.start, ← ht'.start] at hmono
  omega

theorem ArtRep.needs_fuel (hT : T g = some t) :
    ¬ ∀ tbl, mem t = some tbl → ar.bits.length ≤ 0 + tbl.level := by
  intro hfuel
  obtain ⟨tbl, hmem, hrep⟩ := h.table _ _ hT
  have hlt := (List.getElem?_eq_some_iff.1 hrep.stride).1
  have hbound := hfuel tbl hmem
  omega

/-- The descent ends at the table in whose stride the length ends, if it is there. -/
theorem ArtRep.descend {plen n fuel : Nat} (hplen : plen ≤ ar.alen)
    (ht : T (addrPrefix addr n) = some t) (hn : n < plen)
    (hfuel : ∀ tbl, mem t = some tbl → ar.bits.length < fuel + tbl.level) :
    artDescend mem addr plen fuel t = some (T (addrPrefix addr (strideStart ar.bits plen))) := by
  induction fuel generalizing n t with
  | zero =>
    exact (h.needs_fuel ht fun tbl hmem => Nat.le_of_lt (hfuel tbl hmem)).elim
  | succ fuel ih =>
    obtain ⟨tbl, hmem, hrep⟩ := h.table _ _ ht
    have hoff : tbl.offset = n := by rw [hrep.offset, length_addrPrefix]
    have hstart := hrep.start
    rw [length_addrPrefix] at hstart
    rw [artDescend, hmem, Option.bind_eq_bind, Option.bind_some, hoff]
    split
    · next hdeep =>
      have hpath : addrSlice addr n tbl.bits ++ addrPrefix addr n
          = addrPrefix addr (n + tbl.bits) := (addrPrefix_add addr n tbl.bits).symm
      have hitem := hrep.fringe (addrSlice addr n tbl.bits) (length_addrSlice ..)
      rw [hpath, artItem] at hitem
      rw [hrep.findex h.strides addr, Option.bind_eq_bind, Option.bind_some, length_addrPrefix, hitem]
      cases hc : T (addrPrefix addr (n + tbl.bits)) with
      | some c' =>
        obtain ⟨sub, hsub, hsrep⟩ := h.table _ _ hc
        refine ih hc hdeep fun sub' hsub' => ?_
        obtain rfl : sub = sub' := Option.some.inj (hsub.symm.trans hsub')
        have hlevel := h.level_lt hrep hsrep (by simp only [length_addrPrefix])
        have hbound := hfuel tbl hmem
        omega
      | none =>
        -- the table that has the length would need this one
        refine congrArg some (Option.eq_none_iff_forall_not_mem.2 fun t' ht' => ?_).symm
        have hsum : plen ≤ ar.bits.sum := h.strides.sum ▸ hplen
        obtain ⟨l, w, hw, hlo, hhi⟩ := exists_level (Nat.zero_lt_of_lt hn) hsum
        rw [Net.strideStart_eq hw hlo hhi] at ht'
        have hle : n + tbl.bits ≤ strideSum ar.bits l := by
          rw [hstart, ← strideSum_succ hrep.stride]
          refine strideSum_mono ar.bits ?_
          by_contra hlt
          have hmono := strideSum_mono ar.bits (show l + 1 ≤ tbl.level + 1 by omega)
          rw [strideSum_succ hw, strideSum_succ hrep.stride] at hmono
          omega
        have hclosed := h.up_closed (l := tbl.level + 1) (Option.isSome_of_mem ht')
          (by rw [length_addrPrefix, strideSum_succ hrep.stride, ← hstart]; exact hle)
        rw [length_addrPrefix, strideSum_succ hrep.stride, ← hstart, drop_addrPrefix hle,
          hc] at hclosed
        cases hclosed
    · next hhere =>
      have hss : strideStart ar.bits plen = n := by
        rw [hstart]
        exact Net.strideStart_eq hrep.stride (by omega) (by omega)
      rw [hss, ht]
      rfl

theorem ArtRep.descend_root (addr : Nat → BitVec 8) {plen : Nat} (hpos : 0 < plen)
    (hplen : plen ≤ ar.alen) :
    artDescend mem addr plen (artMaxlvl + 1) ar.root
      = some (T (addrPrefix addr (strideStart ar.bits plen))) := by
  refine h.descend hplen (n := 0) h.root hpos fun tbl _ => ?_
  exact Nat.lt_of_le_of_lt h.strides.few (by omega)

end

/-! ## Writing -/

theorem artItem_update {x : Option ν} {q : List Bool} (h : (T p).isSome ∨ p ≠ q) :
    artItem T (update V q x) p = artItem T V p := by
  cases hT : T p with
  | some t => simp only [artItem, hT]
  | none =>
    have hne : p ≠ q := h.resolve_left (by rw [hT]; exact Bool.false_ne_true)
    simp only [artItem, hT, update_of_ne hne]

variable [DecidableEq τ]

/-- A route goes into a slot that holds no table. -/
theorem ArtRep.setItem (h : ArtRep ar mem T V c) (hT : T g = some t) (hmem : mem t = some tbl)
    (ht : TableRep ar.bits T V c g tbl) (hle : s.length ≤ tbl.bits)
    (hleaf : s.length = tbl.bits → T (s ++ g) = none) (x : Option ν) :
    mem.setItem t (heapIdx s) (.node x)
        = some (update mem t (some (tbl.setItem (heapIdx s) (.node x)))) ∧
      ArtRep ar (update mem t (some (tbl.setItem (heapIdx s) (.node x)))) T
        (update V (s ++ g) x) c := by
  refine ⟨by rw [ArtMem.setItem, hmem]; rfl, ⟨h.strides, h.root, h.inj, ?_, ?_, h.up⟩⟩
  · intro t' ht'
    by_cases htt : t' = t
    · exact ⟨g, htt ▸ hT⟩
    · rw [update_of_ne htt] at ht'
      exact h.alloc t' ht'
  · intro g' t' hT'
    by_cases htt : t' = t
    · -- the table itself
      subst htt
      obtain rfl := h.inj hT hT'
      refine ⟨_, update_self .., ⟨ht.stride, ht.start, ht.offset, ht.minfringe, ht.refcnt,
        fun s' hs' => ?_, fun s' hs' => ?_⟩⟩
      · by_cases hss : s' = s
        · subst hss
          simp only [ArtTable.setItem, update_self]
        · have hidx : heapIdx s' ≠ heapIdx s := fun he => hss (heapIdx_injective he)
          have hpath : s' ++ g ≠ s ++ g := fun he => hss (append_cancel_right he)
          simp only [ArtTable.setItem, update_of_ne hidx, update_of_ne hpath]
          exact ht.inner s' hs'
      · by_cases hss : s' = s
        · subst hss
          simp only [ArtTable.setItem, update_self, artItem, hleaf hs']
        · have hidx : heapIdx s' ≠ heapIdx s := fun he => hss (heapIdx_injective he)
          have hpath : s' ++ g ≠ s ++ g := fun he => hss (append_cancel_right he)
          rw [artItem_update (.inr hpath)]
          simp only [ArtTable.setItem, update_of_ne hidx]
          exact ht.fringe s' hs'
    · -- another table has no slot for the string, unless this table itself is there
      obtain ⟨tbl', hmem', ht'⟩ := h.table g' t' hT'
      have hgg : g' ≠ g := by
        rintro rfl
        exact htt (Option.some.inj (hT'.symm.trans hT))
      refine ⟨tbl', by rwa [update_of_ne htt], ⟨ht'.stride, ht'.start, ht'.offset,
        ht'.minfringe, ht'.refcnt, fun s' hs' => ?_, fun s' hs' => ?_⟩⟩
      · have hpath : s' ++ g' ≠ s ++ g := by
          intro heq
          by_cases hs : s = []
          · subst hs
            by_cases hs₀ : s' = []
            · subst hs₀
              exact hgg heq
            · exact ht'.not_inside ht hs₀ hs' heq
          · by_cases hs₀ : s' = []
            · subst hs₀
              rcases Nat.lt_or_eq_of_le hle with hlt | heq'
              · exact ht.not_inside ht' hs hlt heq.symm
              · have hnone := hleaf heq'
                rw [← heq] at hnone
                exact Option.some_ne_none t' (hT'.symm.trans hnone)
            · exact hgg (ht'.place_unique ht hs₀ hs (Nat.le_of_lt hs') hle heq).1
        rw [update_of_ne hpath]
        exact ht'.inner s' hs'
      · have hs₀ : s' ≠ [] := by
          rintro rfl
          have hpos := ht'.bits_pos h.strides
          rw [← hs'] at hpos
          exact Nat.lt_irrefl 0 hpos
        rw [artItem_update]
        · exact ht'.fringe s' hs'
        · by_cases hs : s = []
          · subst hs
            by_cases heq : s' ++ g' = [] ++ g
            · left
              rw [heq, nil_append, hT]
              rfl
            · exact .inr heq
          · exact .inr fun heq => hgg (ht'.place_unique ht hs₀ hs (Nat.le_of_eq hs') hle heq).1

theorem ArtRep.setRefcnt (h : ArtRep ar mem T V c) (hT : T g = some t) (hmem : mem t = some tbl)
    (ht : TableRep ar.bits T V c g tbl) (n : Int) :
    ArtRep ar (update mem t (some { tbl with refcnt := n })) T V
      (update c g n) := by
  refine ⟨h.strides, h.root, h.inj, ?_, ?_, h.up⟩
  · intro t' ht'
    by_cases htt : t' = t
    · exact ⟨g, htt ▸ hT⟩
    · rw [update_of_ne htt] at ht'
      exact h.alloc t' ht'
  · intro g' t' hT'
    by_cases htt : t' = t
    · subst htt
      obtain rfl := h.inj hT hT'
      exact ⟨_, update_self .., ⟨ht.stride, ht.start, ht.offset, ht.minfringe,
        by rw [update_self], ht.inner, ht.fringe⟩⟩
    · obtain ⟨tbl', hmem', ht'⟩ := h.table g' t' hT'
      have hgg : g' ≠ g := by
        rintro rfl
        exact htt (Option.some.inj (hT'.symm.trans hT))
      exact ⟨tbl', by rwa [update_of_ne htt], ⟨ht'.stride, ht'.start, ht'.offset,
        ht'.minfringe, by rw [update_of_ne hgg]; exact ht'.refcnt, ht'.inner, ht'.fringe⟩⟩

/-- What `art_table_get` makes of a new subtable. -/
def subtable (tbl : ArtTable ν τ) (t : τ) (j w : Nat) (dflt : Option ν) : ArtTable ν τ where
  parent := some t
  index := j
  minfringe := 2 ^ w
  level := tbl.level + 1
  bits := w
  offset := tbl.offset + tbl.bits
  refcnt := 1
  heap := Function.update (fun _ => .node none) 1 (.node dflt)

omit [DecidableEq τ] in
theorem subtable_heap_one (tbl : ArtTable ν τ) (t : τ) (j w : Nat) (dflt : Option ν) :
    (subtable tbl t j w dflt).heap 1 = .node dflt := by
  simp only [subtable, update_self]

omit [DecidableEq τ] in
theorem subtable_heap_of_ne (tbl : ArtTable ν τ) (t : τ) (j w : Nat) (dflt : Option ν) {i : Nat}
    (hi : i ≠ 1) : (subtable tbl t j w dflt).heap i = .node none := by
  simp only [subtable, update_of_ne hi]

theorem ArtRep.tableGet (h : ArtRep ar mem T V c) (hmem : mem t = some tbl)
    (ht : TableRep ar.bits T V c g tbl) (hs : s.length = tbl.bits) (hleaf : T (s ++ g) = none)
    {w : Nat} (hw : ar.bits[tbl.level + 1]? = some w) {t' : τ} (hnew : mem t' = none) :
    artTableGet ar.bits mem (some t) (heapIdx s : Int) (some t')
      = some (update mem t' (some (subtable tbl t (heapIdx s) w (V (s ++ g)))),
        some t') := by
  have hpos := ht.bits_pos h.strides
  have htt : t ≠ t' := by
    rintro rfl
    exact Option.some_ne_none tbl (hmem.symm.trans hnew)
  have htwo : 2 ≤ heapIdx s := by
    cases s with
    | nil => exact absurd hs (Nat.ne_of_lt hpos)
    | cons b s => exact two_le_heapIdx_cons b s
  have hj : ((heapIdx s : Nat) : Int) ≠ 0 ∧ ((heapIdx s : Nat) : Int) ≠ 1 := by omega
  have hitem := ht.fringe s hs
  rw [artItem, hleaf] at hitem
  simp only [artTableGet, guard, if_pos hj, hmem, hw, hnew, artTableRef, Option.bind_eq_bind,
    Option.bind_some, update_self, update_of_ne htt, Int.toNat_natCast, hitem,
    ArtItem.asNode, ArtTable.setItem, ne_eq, reduceCtorEq, not_false_eq_true, true_or, if_true,
    Option.isNone_none, Option.pure_def, update_idem]
  rfl

/-- A new subtable below a slot of the fringe whose subtree has no routes. -/
theorem ArtRep.addTable (h : ArtRep ar mem T V c) (hT : T g = some t) (hmem : mem t = some tbl)
    (ht : TableRep ar.bits T V c g tbl) (hs : s.length = tbl.bits) (hleaf : T (s ++ g) = none)
    {w : Nat} (hw : ar.bits[tbl.level + 1]? = some w) {t' : τ} (hnew : mem t' = none)
    (hbelow : ∀ s', s' ≠ [] → s'.length ≤ w → V (s' ++ (s ++ g)) = none) :
    ArtRep ar (update
        (update mem t' (some (subtable tbl t (heapIdx s) w (V (s ++ g))))) t
        (some (tbl.setItem (heapIdx s) (.child t'))))
      (update T (s ++ g) (some t')) V (update c (s ++ g) 1) := by
  have hpos := ht.bits_pos h.strides
  have hs₀ : s ≠ [] := by
    rintro rfl
    exact absurd hs (Nat.ne_of_lt hpos)
  have htt : t ≠ t' := by
    rintro rfl
    exact Option.some_ne_none tbl (hmem.symm.trans hnew)
  have hfresh : ∀ g', T g' ≠ some t' := by
    intro g' hg'
    obtain ⟨tbl', hmem', -⟩ := h.table g' t' hg'
    exact Option.some_ne_none tbl' (hmem'.symm.trans hnew)
  have hself : g ≠ s ++ g := by
    intro heq
    have hlen := congrArg List.length heq
    rw [length_append] at hlen
    omega
  have hmono : ∀ g', (T g').isSome → (update T (s ++ g) (some t') g').isSome := by
    intro g' hg'
    by_cases hgg : g' = s ++ g
    · rw [hgg, update_self]
      rfl
    · rwa [update_of_ne hgg]
  refine ⟨h.strides, ?_, ?_, ?_, ?_, ?_⟩
  · rw [update_of_ne]
    · exact h.root
    · exact (append_ne_nil_of_left_ne_nil hs₀ g).symm
  · intro g₁ g₂ t₀ h₁ h₂
    by_cases hg₁ : g₁ = s ++ g <;> by_cases hg₂ : g₂ = s ++ g
    · rw [hg₁, hg₂]
    · rw [hg₁, update_self] at h₁
      rw [update_of_ne hg₂] at h₂
      exact absurd (h₂.trans h₁.symm) (hfresh g₂)
    · rw [hg₂, update_self] at h₂
      rw [update_of_ne hg₁] at h₁
      exact absurd (h₁.trans h₂.symm) (hfresh g₁)
    · rw [update_of_ne hg₁] at h₁
      rw [update_of_ne hg₂] at h₂
      exact h.inj h₁ h₂
  · intro t₀ ht₀
    by_cases ht₁ : t₀ = t'
    · exact ⟨s ++ g, by rw [update_self, ht₁]⟩
    · have hold : (mem t₀).isSome := by
        by_cases ht₂ : t₀ = t
        · rw [ht₂, hmem]
          rfl
        · rwa [update_of_ne ht₂, update_of_ne ht₁] at ht₀
      obtain ⟨g', hg'⟩ := h.alloc t₀ hold
      refine ⟨g', ?_⟩
      rw [update_of_ne]
      · exact hg'
      · rintro rfl
        exact Option.some_ne_none t₀ (hg'.symm.trans hleaf)
  · intro g' t₀ hT'
    by_cases hgg : g' = s ++ g
    · -- the new table
      subst hgg
      rw [update_self] at hT'
      obtain rfl := Option.some.inj hT'
      have hstart : (s ++ g).length = strideSum ar.bits (tbl.level + 1) := by
        rw [length_append, hs, strideSum_succ ht.stride, ht.start, Nat.add_comm]
      have hw₀ := h.strides.stride hw
      refine ⟨subtable tbl t (heapIdx s) w (V (s ++ g)), ?_, ⟨hw, hstart, ?_, rfl, ?_,
        fun s' hs' => ?_, fun s' hs' => ?_⟩⟩
      · rw [update_of_ne htt.symm, update_self]
      · show tbl.offset + tbl.bits = _
        rw [ht.offset, length_append, hs, Nat.add_comm]
      · rw [update_self]
        rfl
      · cases s' with
        | nil =>
          rw [nil_append]
          exact subtable_heap_one ..
        | cons b s' =>
          have hne : heapIdx (b :: s') ≠ 1 := by
            have := two_le_heapIdx_cons b s'
            omega
          rw [subtable_heap_of_ne _ _ _ _ _ hne,
            hbelow (b :: s') (cons_ne_nil b s') (Nat.le_of_lt hs')]
      · have hs'₀ : s' ≠ [] := by
          rintro rfl
          have hzero : 0 = w := hs'
          omega
        have htwo : heapIdx s' ≠ 1 := by
          cases s' with
          | nil => exact absurd rfl hs'₀
          | cons b s' =>
            have := two_le_heapIdx_cons b s'
            omega
        have hpath : s' ++ (s ++ g) ≠ s ++ g := by
          intro heq
          exact hs'₀ (append_left_eq_self.1 heq)
        -- a table further down would have needed this one
        have hnone : T (s' ++ (s ++ g)) = none := by
          refine Option.not_isSome_iff_eq_none.1 fun hsome => ?_
          have hup := h.up _ (append_ne_nil_of_left_ne_nil hs'₀ _) hsome
          have hw' : s'.length = w := hs'
          have hstride : strideStart ar.bits (s' ++ (s ++ g)).length = (s ++ g).length := by
            rw [length_append, hstart]
            exact Net.strideStart_eq hw (by omega) (by omega)
          rw [strideHead, hstride, length_append, Nat.add_sub_cancel, drop_left, hleaf] at hup
          cases hup
        rw [subtable_heap_of_ne _ _ _ _ _ htwo, artItem, update_of_ne hpath, hnone,
          hbelow s' hs'₀ (Nat.le_of_eq hs')]
    · rw [update_of_ne hgg] at hT'
      have htt' : t₀ ≠ t' := fun heq => hfresh g' (heq ▸ hT')
      obtain ⟨tbl', hmem', ht'⟩ := h.table g' t₀ hT'
      have hcount : tbl'.refcnt = update c (s ++ g) 1 g' := by
        rw [update_of_ne hgg]
        exact ht'.refcnt
      have hitem : ∀ s', s' ++ g' ≠ s ++ g →
          artItem (update T (s ++ g) (some t')) V (s' ++ g') = artItem T V (s' ++ g') := by
        intro s' hne
        rw [artItem, artItem, update_of_ne hne]
      by_cases hg : g' = g
      · -- the parent
        subst hg
        obtain rfl : t = t₀ := Option.some.inj (hT.symm.trans hT')
        obtain rfl : tbl = tbl' := Option.some.inj (hmem.symm.trans hmem')
        refine ⟨_, update_self .., ⟨ht.stride, ht.start, ht.offset, ht.minfringe, hcount,
          fun s' hs' => ?_, fun s' hs' => ?_⟩⟩
        · have hidx : heapIdx s' ≠ heapIdx s := by
            intro heq
            rw [heapIdx_injective heq, hs] at hs'
            exact Nat.lt_irrefl _ hs'
          simp only [ArtTable.setItem, update_of_ne hidx]
          exact ht.inner s' hs'
        · by_cases hss : s' = s
          · subst hss
            simp only [ArtTable.setItem, update_self, artItem]
          · have hidx : heapIdx s' ≠ heapIdx s := fun he => hss (heapIdx_injective he)
            rw [hitem s' fun he => hss (append_cancel_right he)]
            simp only [ArtTable.setItem, update_of_ne hidx]
            exact ht.fringe s' hs'
      · have htt₀ : t₀ ≠ t := fun heq => hg (h.inj hT' (heq ▸ hT))
        refine ⟨tbl', by rwa [update_of_ne htt₀, update_of_ne htt'],
          ⟨ht'.stride, ht'.start, ht'.offset, ht'.minfringe, hcount, ht'.inner, fun s' hs' => ?_⟩⟩
        have hs'₀ : s' ≠ [] := by
          rintro rfl
          exact absurd hs' (Nat.ne_of_lt (ht'.bits_pos h.strides))
        rw [hitem s' fun he =>
          hg (ht'.place_unique ht hs'₀ hs₀ (Nat.le_of_eq hs') (Nat.le_of_eq hs) he).1]
        exact ht'.fringe s' hs'
  · intro g' hg' hsome
    by_cases hgg : g' = s ++ g
    · rw [hgg, ht.strideHead_eq hs₀ (Nat.le_of_eq hs)]
      exact hmono g (by rw [hT]; rfl)
    · rw [update_of_ne hgg] at hsome
      exact hmono _ (h.up g' hg' hsome)

end

end OpenBsd.Net
