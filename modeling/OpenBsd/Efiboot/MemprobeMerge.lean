/-
  OpenBsd.Efiboot.MemprobeMerge

  How the table of `efi_memprobe_internal` comes about.

  Entries only grow, at their place in the table, and two entries are never
  joined.  Each descriptor lies in one entry, so an entry starts where a
  descriptor starts and ends where one ends.  Neighbours of one type may still
  be kept apart: a descriptor that touches two entries joins the first.
-/

import Mathlib.Data.List.Pairwise
import OpenBsd.Efiboot.MemprobeSlots

namespace OpenBsd.Efiboot

open List

variable {a b bm : BiosMemmap} {x : Nat} {mm mm' p : EfiMemoryDescriptor}

/-! ## Entries grow -/

/-- The one range lies in the other, of its type. -/
structure Within (a b : BiosMemmap) : Prop where
  type : a.type = b.type
  addr : b.addr ≤ a.addr
  limit : a.addr + a.size ≤ b.addr + b.size

theorem Within.refl (a : BiosMemmap) : Within a a := ⟨rfl, Nat.le_refl _, Nat.le_refl _⟩

theorem Within.trans {c : BiosMemmap} (h : Within a b) (h' : Within b c) : Within a c :=
  ⟨h.type.trans h'.type, Nat.le_trans h'.addr h.addr, Nat.le_trans h.limit h'.limit⟩

theorem Within.has (h : Within a b) (hx : a.Has x) : b.Has x := by
  have haddr := h.addr
  have hlimit := h.limit
  unfold BiosMemmap.Has at hx ⊢
  omega

theorem within_of_has (hfits : a.Fits) (htype : a.type = b.type) (h : ∀ x, a.Has x → b.Has x) :
    Within a b := by
  have hfirst := h a.addr
  have hlast := h (a.addr + a.size - 1)
  unfold BiosMemmap.Fits at hfits
  unfold BiosMemmap.Has at hfirst hlast
  exact ⟨htype, by omega, by omega⟩

/-- Each entry of the one table lies in the entry at its place in the other. -/
def Grows (map map' : List BiosMemmap) : Prop :=
  ∀ (i : Nat) (bm : BiosMemmap), map[i]? = some bm → ∃ bm', map'[i]? = some bm' ∧ Within bm bm'

theorem Grows.refl (map : List BiosMemmap) : Grows map map :=
  fun _ bm h => ⟨bm, h, Within.refl bm⟩

theorem Grows.trans {a b c : List BiosMemmap} (h : Grows a b) (h' : Grows b c) : Grows a c := by
  intro i bm hbm
  obtain ⟨bm', hbm', hin⟩ := h i bm hbm
  obtain ⟨bm'', hbm'', hin'⟩ := h' i bm' hbm'
  exact ⟨bm'', hbm'', hin.trans hin'⟩

theorem Grows.mem {map map' : List BiosMemmap} (h : Grows map map') (hbm : bm ∈ map) :
    ∃ bm' ∈ map', Within bm bm' := by
  obtain ⟨i, hi⟩ := mem_iff_getElem?.mp hbm
  obtain ⟨bm', hbm', hin⟩ := h i bm hi
  exact ⟨bm', mem_of_getElem? hbm', hin⟩

theorem grows_append (map : List BiosMemmap) (bm : BiosMemmap) : Grows map (map ++ [bm]) := by
  intro i e he
  refine ⟨e, ?_, Within.refl e⟩
  rw [getElem?_append_left (List.getElem?_eq_some_iff.mp he).1]
  exact he

theorem grows_replace {pre post : List BiosMemmap} {bm' : BiosMemmap} (h : Within bm bm') :
    Grows (pre ++ bm :: post) (pre ++ bm' :: post) := by
  intro i e he
  rcases Nat.lt_trichotomy i pre.length with hlt | heq | hgt
  · rw [getElem?_append_left hlt] at he
    refine ⟨e, ?_, Within.refl e⟩
    rw [getElem?_append_left hlt]
    exact he
  · rw [heq, getElem?_append_right (Nat.le_refl _), Nat.sub_self, getElem?_cons_zero] at he
    injection he with he
    refine ⟨bm', ?_, ?_⟩
    · rw [heq, getElem?_append_right (Nat.le_refl _), Nat.sub_self, getElem?_cons_zero]
    · rw [← he]
      exact h
  · obtain ⟨k, hk⟩ : ∃ k, i - pre.length = k + 1 := ⟨i - pre.length - 1, by omega⟩
    rw [getElem?_append_right (Nat.le_of_lt hgt), hk, getElem?_cons_succ] at he
    refine ⟨e, ?_, Within.refl e⟩
    rw [getElem?_append_right (Nat.le_of_lt hgt), hk, getElem?_cons_succ]
    exact he

/-- What one descriptor does to the table: it extends an entry of its type that
    it touches, or gets an entry of its own. -/
theorem mergeEntry_cases {map : List BiosMemmap} {bm0 : BiosMemmap} (hfits : ∀ bm ∈ map, bm.Fits)
    (hfits0 : bm0.Fits) (hapart : ∀ bm ∈ map, Apart bm bm0) :
    (∃ pre bm bm' post, map = pre ++ bm :: post ∧ mergeEntry map bm0 = pre ++ bm' :: post ∧
        Within bm bm' ∧ Within bm0 bm' ∧
        (bm.addr + bm.size = bm0.addr ∨ bm0.addr + bm0.size = bm.addr)) ∨
      ((¬ ∃ bm ∈ map, EntryTouches bm0 bm) ∧ mergeEntry map bm0 = map ++ [bm0]) := by
  unfold mergeEntry
  cases hext : extendEntry bm0 map with
  | none =>
    refine Or.inr ⟨?_, rfl⟩
    rintro ⟨bm, hbm, ht⟩
    exact extendEntry_none_iff.mp hext bm hbm ht
  | some map' =>
    obtain ⟨pre, bm, bm', post, hmap, hmap', htype, htype', hfits', hhas⟩ :=
      extendEntry_some hfits hfits0 hapart hext
    have hbm : bm ∈ map := by
      rw [hmap]
      exact mem_append_right _ mem_cons_self
    have hin := within_of_has (hfits bm hbm) (htype.trans htype'.symm) fun x hx => (hhas x).mpr (Or.inl hx)
    have hin0 := within_of_has hfits0 htype'.symm fun x hx => (hhas x).mpr (Or.inr hx)
    refine Or.inl ⟨pre, bm, bm', post, hmap, hmap', hin, hin0, ?_⟩
    -- an address between the two would be in neither
    have horder := (hapart bm hbm).order (hfits bm hbm) hfits0
    have hgap := (hhas (bm.addr + bm.size)).mp
    have hgap0 := (hhas (bm0.addr + bm0.size)).mp
    have h1 := hin.addr
    have h2 := hin.limit
    have h3 := hin0.addr
    have h4 := hin0.limit
    have hbmfits := hfits bm hbm
    unfold BiosMemmap.Fits at hbmfits hfits0
    unfold BiosMemmap.Has at hgap hgap0
    omega

/-! ## Tables of whole descriptors -/

/-- The table of descriptors that are not empty and have no address in common;
    each lies in one entry. -/
structure MapWhole (mms : List EfiMemoryDescriptor) (map : List BiosMemmap) : Prop where
  ok : MapOk mms map
  valid : ∀ mm ∈ mms, mm.Valid
  disjoint : DisjointRanges mms
  whole : ∀ mm ∈ mms, ∃ bm ∈ map, Within mm.memmap bm

theorem mapWhole_nil : MapWhole [] [] :=
  ⟨mapOk_nil, fun _ h => absurd h not_mem_nil, List.Pairwise.nil, fun _ h => absurd h not_mem_nil⟩

section

variable {mms : List EfiMemoryDescriptor} {map : List BiosMemmap}

/-- A descriptor that may come next. -/
structure Next (mms : List EfiMemoryDescriptor) (mm : EfiMemoryDescriptor) : Prop where
  valid : mm.Valid
  apart : ∀ mm' ∈ mms, ∀ x, mm'.Has x → ¬ mm.Has x

theorem MapWhole.step_cases (h : MapWhole mms map) (hmm : Next mms mm) :
    (∃ pre bm bm' post, map = pre ++ bm :: post ∧ mergeEntry map mm.memmap = pre ++ bm' :: post ∧
        Within bm bm' ∧ Within mm.memmap bm' ∧
        (bm.addr + bm.size = mm.memmap.addr ∨ mm.memmap.addr + mm.memmap.size = bm.addr)) ∨
      ((¬ ∃ mm' ∈ mms, mm'.Touches mm) ∧ mergeEntry map mm.memmap = map ++ [mm.memmap]) := by
  rw [← h.ok.touches_iff h.valid hmm.valid hmm.apart]
  exact mergeEntry_cases h.ok.fits (memmap_fits hmm.valid) (h.ok.apart_of hmm.valid hmm.apart)

theorem MapWhole.grows (h : MapWhole mms map) (hmm : Next mms mm) :
    Grows map (mergeEntry map mm.memmap) := by
  rcases h.step_cases hmm with ⟨pre, bm, bm', post, hmap, hmerge, hin, -, -⟩ | ⟨-, hmerge⟩
  · rw [hmerge, hmap]
    exact grows_replace hin
  · rw [hmerge]
    exact grows_append map _

theorem MapWhole.merge (h : MapWhole mms map) (hmm : Next mms mm) :
    MapWhole (mms ++ [mm]) (mergeEntry map mm.memmap) := by
  refine ⟨h.ok.merge hmm.valid hmm.apart, ?_, ?_, ?_⟩
  · intro mm' hmm'
    rcases mem_append.mp hmm' with hold | hnew
    · exact h.valid mm' hold
    · rw [mem_singleton.mp hnew]
      exact hmm.valid
  · refine pairwise_append.mpr ⟨h.disjoint, pairwise_singleton _ _, ?_⟩
    intro mm' hmm' mm'' hmm''
    rw [mem_singleton.mp hmm'']
    exact hmm.apart mm' hmm'
  · intro mm' hmm'
    rcases mem_append.mp hmm' with hold | hnew
    · obtain ⟨bm, hbm, hin⟩ := h.whole mm' hold
      obtain ⟨bm', hbm', hin'⟩ := (h.grows hmm).mem hbm
      exact ⟨bm', hbm', hin.trans hin'⟩
    · rw [mem_singleton.mp hnew]
      rcases h.step_cases hmm with ⟨pre, bm, bm', post, -, hmerge, -, hin, -⟩ | ⟨-, hmerge⟩
      · refine ⟨bm', ?_, hin⟩
        rw [hmerge]
        exact mem_append_right _ mem_cons_self
      · refine ⟨mm.memmap, ?_, Within.refl _⟩
        rw [hmerge]
        exact mem_append_right _ (mem_singleton.mpr rfl)

theorem next_of {mm : EfiMemoryDescriptor} {rest : List EfiMemoryDescriptor}
    (hvalid : ∀ mm' ∈ mms ++ mm :: rest, mm'.Valid) (hdisjoint : DisjointRanges (mms ++ mm :: rest)) :
    Next mms mm := by
  refine ⟨hvalid mm (mem_append_right _ mem_cons_self), ?_⟩
  intro mm' hmm'
  exact (pairwise_append.mp hdisjoint).2.2 mm' hmm' mm mem_cons_self

theorem MapWhole.run (h : MapWhole mms map) (rest : List EfiMemoryDescriptor)
    (hvalid : ∀ mm ∈ mms ++ rest, mm.Valid) (hdisjoint : DisjointRanges (mms ++ rest)) :
    MapWhole (mms ++ rest) (mergeAll map rest) ∧ Grows map (mergeAll map rest) := by
  induction rest generalizing mms map with
  | nil =>
    rw [append_nil]
    exact ⟨h, Grows.refl map⟩
  | cons mm rest ih =>
    have hnext := next_of hvalid hdisjoint
    have happend : mms ++ mm :: rest = (mms ++ [mm]) ++ rest := by
      rw [append_assoc, singleton_append]
    rw [happend] at hvalid hdisjoint ⊢
    obtain ⟨hwhole, hgrows⟩ := ih (h.merge hnext) hvalid hdisjoint
    exact ⟨hwhole, (h.grows hnext).trans hgrows⟩

/-! ## Where entries start and end -/

/-- The address behind the range of a descriptor. -/
def EfiMemoryDescriptor.limit (mm : EfiMemoryDescriptor) : Nat :=
  mm.physicalStart + mm.numberOfPages * efiPageSize

theorem EfiMemoryDescriptor.has_iff (mm : EfiMemoryDescriptor) (x : Nat) :
    mm.Has x ↔ mm.physicalStart ≤ x ∧ x < mm.limit := Iff.rfl

theorem memmap_limit (h : mm.Valid) : mm.memmap.addr + mm.memmap.size = mm.limit := by
  rw [memmap_size h]
  rfl

theorem EfiMemoryDescriptor.Valid.lt_limit (h : mm.Valid) : mm.physicalStart < mm.limit := by
  have hpos : 0 < mm.numberOfPages * efiPageSize := Nat.mul_pos h.1 (by decide)
  unfold EfiMemoryDescriptor.limit
  omega

section

variable (h : MapWhole mms map)
include h

theorem MapWhole.apart (hmm : mm ∈ mms) (hmm' : mm' ∈ mms) (hne : mm ≠ mm') :
    mm.limit ≤ mm'.physicalStart ∨ mm'.limit ≤ mm.physicalStart := by
  have hsymm : Std.Symm fun a b : EfiMemoryDescriptor => ∀ x, a.Has x → ¬ b.Has x :=
    ⟨fun a b hab x hb ha => hab x ha hb⟩
  have hdis := List.Pairwise.forall h.disjoint hmm hmm' hne
  have h1 := hdis mm.physicalStart
  have h2 := hdis mm'.physicalStart
  have hlt := (h.valid mm hmm).lt_limit
  have hlt' := (h.valid mm' hmm').lt_limit
  rw [EfiMemoryDescriptor.has_iff, EfiMemoryDescriptor.has_iff] at h1 h2
  omega

theorem MapWhole.entry_eq {bm' : BiosMemmap} (hbm : bm ∈ map) (hbm' : bm' ∈ map) (hx : bm.Has x)
    (hx' : bm'.Has x) : bm = bm' := by
  by_contra hne
  have hsymm : Std.Symm Apart := ⟨fun a b hab => hab.symm⟩
  exact List.Pairwise.forall h.ok.apart hbm hbm' hne x hx hx'

theorem MapWhole.descriptor_at (hbm : bm ∈ map) (hx : bm.Has x) :
    ∃ mm ∈ mms, mm.type.bios = bm.type ∧ mm.Has x ∧ Within mm.memmap bm := by
  obtain ⟨mm, hmm, htype, hhas⟩ := (h.ok.covers bm.type x).mp ⟨bm, hbm, rfl, hx⟩
  obtain ⟨bm', hbm', hin⟩ := h.whole mm hmm
  have heq := h.entry_eq hbm hbm' hx (hin.has ((memmap_has (h.valid mm hmm) x).mpr hhas))
  rw [← heq] at hin
  exact ⟨mm, hmm, htype, hhas, hin⟩

theorem MapWhole.entry_start (hbm : bm ∈ map) :
    ∃ mm ∈ mms, mm.type.bios = bm.type ∧ mm.physicalStart = bm.addr ∧ Within mm.memmap bm := by
  have hfits := h.ok.fits bm hbm
  have hfirst : bm.Has bm.addr := by
    unfold BiosMemmap.Fits at hfits
    unfold BiosMemmap.Has
    omega
  obtain ⟨mm, hmm, htype, hhas, hin⟩ := h.descriptor_at hbm hfirst
  refine ⟨mm, hmm, htype, ?_, hin⟩
  have haddr : bm.addr ≤ mm.physicalStart := hin.addr
  rw [EfiMemoryDescriptor.has_iff] at hhas
  omega

theorem MapWhole.entry_limit (hbm : bm ∈ map) :
    ∃ mm ∈ mms, mm.type.bios = bm.type ∧ mm.limit = bm.addr + bm.size ∧ Within mm.memmap bm := by
  have hfits := h.ok.fits bm hbm
  unfold BiosMemmap.Fits at hfits
  have hlast : bm.Has (bm.addr + bm.size - 1) := by
    unfold BiosMemmap.Has
    omega
  obtain ⟨mm, hmm, htype, hhas, hin⟩ := h.descriptor_at hbm hlast
  refine ⟨mm, hmm, htype, ?_, hin⟩
  have hlimit := hin.limit
  rw [memmap_limit (h.valid mm hmm)] at hlimit
  rw [EfiMemoryDescriptor.has_iff] at hhas
  omega

end

/-! ## Neighbours -/

theorem EfiMemoryDescriptor.Touches.symm (h : mm.Touches mm') :
    mm'.Touches mm := ⟨h.1.symm, h.2.symm⟩

theorem EfiMemoryDescriptor.Touches.ne (h : mm.Touches mm') (hvalid : mm.Valid) : mm ≠ mm' := by
  rintro rfl
  have hlt := hvalid.lt_limit
  unfold EfiMemoryDescriptor.limit at hlt
  rcases h.2 with heq | heq <;> omega

/-- A descriptor joins its neighbour when it has no other in front of it. -/
theorem MapWhole.joins (h : MapWhole mms map) (hmm : Next mms mm) (hp : p ∈ mms) (ht : p.Touches mm)
    (honly : ∀ r ∈ mms, r.Touches mm → r = p) :
    ∃ bm ∈ mergeEntry map mm.memmap, Within p.memmap bm ∧ Within mm.memmap bm := by
  rcases h.step_cases hmm with ⟨pre, bm, bm', post, hmap, hmerge, hin, hin0, hnext⟩ | ⟨hno, -⟩
  · have hbm : bm ∈ map := by
      rw [hmap]
      exact mem_append_right _ mem_cons_self
    have hfits := h.ok.fits bm hbm
    unfold BiosMemmap.Fits at hfits
    rw [memmap_limit hmm.valid] at hnext
    -- the descriptor of the entry that is next to the new one is `p`
    have hneighbour : ∃ r ∈ mms, r.Touches mm ∧ Within r.memmap bm := by
      rcases hnext with hend | hstart
      · have hhas : bm.Has (bm.addr + bm.size - 1) := by
          unfold BiosMemmap.Has
          omega
        obtain ⟨r, hr, htype, hrhas, hrin⟩ := h.descriptor_at hbm hhas
        have hlimit := hrin.limit
        rw [memmap_limit (h.valid r hr)] at hlimit
        rw [EfiMemoryDescriptor.has_iff] at hrhas
        have haddr : mm.memmap.addr = mm.physicalStart := rfl
        refine ⟨r, hr, ⟨htype.trans (hin.type.trans hin0.type.symm), Or.inl ?_⟩, hrin⟩
        show r.limit = mm.physicalStart
        omega
      · have hhas : bm.Has bm.addr := by
          unfold BiosMemmap.Has
          omega
        obtain ⟨r, hr, htype, hrhas, hrin⟩ := h.descriptor_at hbm hhas
        have haddr : bm.addr ≤ r.physicalStart := hrin.addr
        rw [EfiMemoryDescriptor.has_iff] at hrhas
        refine ⟨r, hr, ⟨htype.trans (hin.type.trans hin0.type.symm), Or.inr ?_⟩, hrin⟩
        show mm.limit = r.physicalStart
        omega
    obtain ⟨r, hr, hrt, hrin⟩ := hneighbour
    rw [honly r hr hrt] at hrin
    refine ⟨bm', ?_, hrin.trans hin, hin0⟩
    rw [hmerge]
    exact mem_append_right _ mem_cons_self
  · exact absurd ⟨p, hp, ht⟩ hno

/-- Two descriptors that touch each other and no other of their type. -/
structure PairOnly (all : List EfiMemoryDescriptor) (p q : EfiMemoryDescriptor) : Prop where
  touch : p.Touches q
  left : ∀ r ∈ all, r.Touches p → r = q
  right : ∀ r ∈ all, r.Touches q → r = p

/-- Such pairs share an entry. -/
def PairsJoined (all mms : List EfiMemoryDescriptor) (map : List BiosMemmap) : Prop :=
  ∀ p ∈ mms, ∀ q ∈ mms, PairOnly all p q → ∃ bm ∈ map, Within p.memmap bm ∧ Within q.memmap bm

theorem PairsJoined.step {all : List EfiMemoryDescriptor} (hj : PairsJoined all mms map)
    (h : MapWhole mms map) (hmm : Next mms mm) (hall : ∀ r ∈ mms, r ∈ all) :
    PairsJoined all (mms ++ [mm]) (mergeEntry map mm.memmap) := by
  intro p hp q hq hpair
  rcases mem_append.mp hp with hp | hp <;> rcases mem_append.mp hq with hq | hq
  · -- a pair that shared an entry still does
    obtain ⟨bm, hbm, hpin, hqin⟩ := hj p hp q hq hpair
    obtain ⟨bm', hbm', hin⟩ := (h.grows hmm).mem hbm
    exact ⟨bm', hbm', hpin.trans hin, hqin.trans hin⟩
  · rw [mem_singleton.mp hq] at hpair ⊢
    exact h.joins hmm hp hpair.touch fun r hr ht => hpair.right r (hall r hr) ht
  · rw [mem_singleton.mp hp] at hpair ⊢
    obtain ⟨bm, hbm, hqin, hmmin⟩ :=
      h.joins hmm hq hpair.touch.symm fun r hr ht => hpair.left r (hall r hr) ht
    exact ⟨bm, hbm, hmmin, hqin⟩
  · rw [mem_singleton.mp hp, mem_singleton.mp hq] at hpair
    exact absurd rfl (hpair.touch.ne hmm.valid)

theorem PairsJoined.run {all : List EfiMemoryDescriptor} (hj : PairsJoined all mms map)
    (h : MapWhole mms map) (rest : List EfiMemoryDescriptor)
    (hvalid : ∀ mm ∈ mms ++ rest, mm.Valid) (hdisjoint : DisjointRanges (mms ++ rest))
    (hall : ∀ r ∈ mms ++ rest, r ∈ all) : PairsJoined all (mms ++ rest) (mergeAll map rest) := by
  induction rest generalizing mms map with
  | nil =>
    rw [append_nil]
    exact hj
  | cons mm rest ih =>
    have hnext := next_of hvalid hdisjoint
    have happend : mms ++ mm :: rest = (mms ++ [mm]) ++ rest := by
      rw [append_assoc, singleton_append]
    have hold : ∀ r ∈ mms, r ∈ all := fun r hr => hall r (mem_append_left _ hr)
    rw [happend] at hvalid hdisjoint hall ⊢
    exact ih (hj.step h hnext hold) (h.merge hnext) hvalid hdisjoint hall

/-! ## The first entries -/

variable {q : EfiMemoryDescriptor}

end

end OpenBsd.Efiboot
