/-
  OpenBsd.Kern.SubrPoolSafe

  What the critical sections of a pool keep: the lists, the counters, the items and the current page.
-/

import OpenBsd.Kern.SubrPool
import Mathlib.Tactic.Ring

namespace OpenBsd.Kern

open OpenBsd.Lib List Function

variable {c : PoolConf} {pp : Pool}

/-! ## The lists and their counters -/

/-- Every page is on one list, and the counters say how many there are. -/
structure Shelved (c : PoolConf) (pp : Pool) : Prop where
  nodup : (pp.emptypages ++ pp.partpages ++ pp.fullpages).Nodup
  nidle : pp.nidle = pp.emptypages.length
  npages : pp.npages = pp.emptypages.length + pp.partpages.length + pp.fullpages.length
  nitems : pp.nitems = pp.npages * c.itemsperpage

namespace Shelved

section

variable (h : Shelved c pp)
include h

theorem nodup_empty : pp.emptypages.Nodup :=
  (nodup_append.1 (nodup_append.1 h.nodup).1).1

theorem not_part {ph : Nat} (hph : ph ∈ pp.emptypages) : ph ∉ pp.partpages :=
  fun hpart => (nodup_append.1 (nodup_append.1 h.nodup).1).2.2 ph hph ph hpart rfl

theorem not_full {ph : Nat} (hph : ph ∈ pp.emptypages ∨ ph ∈ pp.partpages) : ph ∉ pp.fullpages :=
  fun hfull => (nodup_append.1 h.nodup).2.2 ph (mem_append.2 hph) ph hfull rfl

theorem updateCurpage : Shelved c (poolUpdateCurpage pp) :=
  ⟨h.nodup, h.nidle, h.npages, h.nitems⟩

theorem setPage (page : Nat → PoolItemHeader) : Shelved c { pp with page := page } :=
  ⟨h.nodup, h.nidle, h.npages, h.nitems⟩

end

section

variable (h : Shelved c pp) {ph : Nat}
include h

theorem leaveEmpty (hph : ph ∈ pp.emptypages) : Shelved c (poolLeaveEmpty pp ph) := by
  have hlength := length_erase_of_mem hph
  have hpos := length_pos_of_mem hph
  refine ⟨?_, ?_, ?_, h.nitems⟩
  · have hperm : (pp.emptypages ++ pp.partpages ++ pp.fullpages).Perm
        (pp.emptypages.erase ph ++ (pp.partpages ++ [ph]) ++ pp.fullpages) := by
      apply List.Perm.append_right
      apply ((perm_cons_erase hph).append_right pp.partpages).trans
      rw [← append_assoc]
      exact (perm_append_singleton ph _).symm
    exact hperm.nodup h.nodup
  · show pp.nidle - 1 = (pp.emptypages.erase ph).length
    rw [hlength, h.nidle]
  · show pp.npages = (pp.emptypages.erase ph).length + (pp.partpages ++ [ph]).length + pp.fullpages.length
    have hnpages := h.npages
    rw [hlength, length_append, length_singleton]
    omega

theorem enterFull (hph : ph ∈ pp.partpages) : Shelved c (poolEnterFull pp ph) := by
  have hlength := length_erase_of_mem hph
  have hpos := length_pos_of_mem hph
  apply updateCurpage
  refine ⟨?_, h.nidle, ?_, h.nitems⟩
  · have hperm : (pp.emptypages ++ pp.partpages ++ pp.fullpages).Perm
        (pp.emptypages ++ pp.partpages.erase ph ++ (pp.fullpages ++ [ph])) := by
      rw [append_assoc, append_assoc]
      apply List.Perm.append_left
      apply ((perm_cons_erase hph).append_right pp.fullpages).trans
      rw [← append_assoc]
      exact (perm_append_singleton ph _).symm
    exact hperm.nodup h.nodup
  · show pp.npages = pp.emptypages.length + (pp.partpages.erase ph).length + (pp.fullpages ++ [ph]).length
    have hnpages := h.npages
    rw [hlength, length_append, length_singleton]
    omega

theorem leaveFull (hph : ph ∈ pp.fullpages) : Shelved c (poolLeaveFull pp ph) := by
  have hlength := length_erase_of_mem hph
  have hpos := length_pos_of_mem hph
  refine ⟨?_, h.nidle, ?_, h.nitems⟩
  · have hperm : (pp.emptypages ++ pp.partpages ++ pp.fullpages).Perm
        (pp.emptypages ++ (pp.partpages ++ [ph]) ++ pp.fullpages.erase ph) := by
      rw [append_assoc, append_assoc, append_assoc]
      apply List.Perm.append_left
      apply List.Perm.append_left
      exact perm_cons_erase hph
    exact hperm.nodup h.nodup
  · show pp.npages = pp.emptypages.length + (pp.partpages ++ [ph]).length + (pp.fullpages.erase ph).length
    have hnpages := h.npages
    rw [hlength, length_append, length_singleton]
    omega

theorem enterEmpty (hph : ph ∈ pp.partpages) : Shelved c (poolEnterEmpty pp ph) := by
  have hlength := length_erase_of_mem hph
  have hpos := length_pos_of_mem hph
  apply updateCurpage
  refine ⟨?_, ?_, ?_, h.nitems⟩
  · have hperm : (pp.emptypages ++ pp.partpages ++ pp.fullpages).Perm
        (pp.emptypages ++ [ph] ++ pp.partpages.erase ph ++ pp.fullpages) := by
      apply List.Perm.append_right
      rw [append_assoc]
      apply List.Perm.append_left
      exact perm_cons_erase hph
    exact hperm.nodup h.nodup
  · show pp.nidle + 1 = (pp.emptypages ++ [ph]).length
    rw [length_append, length_singleton, h.nidle]
  · show pp.npages = (pp.emptypages ++ [ph]).length + (pp.partpages.erase ph).length + pp.fullpages.length
    have hnpages := h.npages
    rw [hlength, length_append, length_singleton]
    omega

theorem insert (hph : ¬ pp.Has ph) : Shelved c (poolPInsert c pp ph) := by
  refine ⟨?_, ?_, ?_, ?_⟩
  · have hperm : (ph :: pp.emptypages ++ pp.partpages ++ pp.fullpages).Perm
        (pp.emptypages ++ [ph] ++ pp.partpages ++ pp.fullpages) := by
      apply List.Perm.append_right
      apply List.Perm.append_right
      exact (perm_append_singleton ph _).symm
    refine hperm.nodup (nodup_cons.2 ⟨?_, h.nodup⟩)
    intro hmem
    have hin : ph ∈ pp.emptypages ++ pp.partpages ++ pp.fullpages := hmem
    rw [mem_append, mem_append, or_assoc] at hin
    exact hph hin
  · show pp.nidle + 1 = (pp.emptypages ++ [ph]).length
    rw [length_append, length_singleton, h.nidle]
  · show pp.npages + 1 = (pp.emptypages ++ [ph]).length + pp.partpages.length + pp.fullpages.length
    have hnpages := h.npages
    rw [length_append, length_singleton]
    omega
  · show pp.nitems + c.itemsperpage = (pp.npages + 1) * c.itemsperpage
    rw [h.nitems, Nat.succ_mul]

theorem remove (hph : ph ∈ pp.emptypages) : Shelved c (poolPRemove c pp ph) := by
  have hlength := length_erase_of_mem hph
  have hpos := length_pos_of_mem hph
  apply updateCurpage
  refine ⟨?_, ?_, ?_, ?_⟩
  · apply List.Nodup.sublist ?_ h.nodup
    apply List.Sublist.append_right
    apply List.Sublist.append_right
    exact erase_sublist
  · show pp.nidle - 1 = (pp.emptypages.erase ph).length
    rw [hlength, h.nidle]
  · show pp.npages - 1 = (pp.emptypages.erase ph).length + pp.partpages.length + pp.fullpages.length
    have hnpages := h.npages
    omega
  · show pp.nitems - c.itemsperpage = (pp.npages - 1) * c.itemsperpage
    rw [h.nitems, Nat.sub_mul, Nat.one_mul]

end

end Shelved

/-- One page of the pool may have gone to another list; the rest stays where it is. -/
structure PoolMoved (c : PoolConf) (pp pp' : Pool) (ph : Nat) : Prop where
  shelved : Shelved c pp'
  frame : ∀ x, x ≠ ph → (x ∈ pp'.emptypages ↔ x ∈ pp.emptypages) ∧ (x ∈ pp'.partpages ↔ x ∈ pp.partpages) ∧
    (x ∈ pp'.fullpages ↔ x ∈ pp.fullpages)
  has : pp.Has ph
  has' : pp'.Has ph
  page : pp'.page = pp.page
  nout : pp'.nout = pp.nout

namespace PoolMoved

variable {pp' pp'' : Pool} {ph : Nat}

theorem refl (h : Shelved c pp) (hph : pp.Has ph) : PoolMoved c pp pp ph :=
  ⟨h, fun _ _ => ⟨Iff.rfl, Iff.rfl, Iff.rfl⟩, hph, hph, rfl, rfl⟩

theorem trans (h : PoolMoved c pp pp' ph) (h' : PoolMoved c pp' pp'' ph) : PoolMoved c pp pp'' ph := by
  refine ⟨h'.shelved, fun x hx => ?_, h.has, h'.has', h'.page.trans h.page, h'.nout.trans h.nout⟩
  obtain ⟨hempty, hpart, hfull⟩ := h.frame x hx
  obtain ⟨hempty', hpart', hfull'⟩ := h'.frame x hx
  exact ⟨hempty'.trans hempty, hpart'.trans hpart, hfull'.trans hfull⟩

theorem has_iff (h : PoolMoved c pp pp' ph) (x : Nat) : pp'.Has x ↔ pp.Has x := by
  by_cases hx : x = ph
  · rw [hx]
    exact ⟨fun _ => h.has, fun _ => h.has'⟩
  · obtain ⟨hempty, hpart, hfull⟩ := h.frame x hx
    unfold Pool.Has
    rw [hempty, hpart, hfull]

theorem leaveEmpty (h : Shelved c pp) (hph : ph ∈ pp.emptypages) :
    PoolMoved c pp (poolLeaveEmpty pp ph) ph ∧ ph ∈ (poolLeaveEmpty pp ph).partpages := by
  have hin : ph ∈ (poolLeaveEmpty pp ph).partpages := mem_append_right _ (mem_singleton_self ph)
  refine ⟨⟨h.leaveEmpty hph, fun x hx => ⟨mem_erase_of_ne hx, ?_, Iff.rfl⟩, .inl hph, .inr (.inl hin), rfl,
    rfl⟩, hin⟩
  show x ∈ pp.partpages ++ [ph] ↔ x ∈ pp.partpages
  rw [mem_append, mem_singleton, or_iff_left hx]

theorem enterFull (h : Shelved c pp) (hph : ph ∈ pp.partpages) :
    PoolMoved c pp (poolEnterFull pp ph) ph ∧ ph ∈ (poolEnterFull pp ph).fullpages := by
  have hin : ph ∈ (poolEnterFull pp ph).fullpages := mem_append_right _ (mem_singleton_self ph)
  refine ⟨⟨h.enterFull hph, fun x hx => ⟨Iff.rfl, mem_erase_of_ne hx, ?_⟩, .inr (.inl hph),
    .inr (.inr hin), rfl, rfl⟩, hin⟩
  show x ∈ pp.fullpages ++ [ph] ↔ x ∈ pp.fullpages
  rw [mem_append, mem_singleton, or_iff_left hx]

theorem leaveFull (h : Shelved c pp) (hph : ph ∈ pp.fullpages) :
    PoolMoved c pp (poolLeaveFull pp ph) ph ∧ ph ∈ (poolLeaveFull pp ph).partpages := by
  have hin : ph ∈ (poolLeaveFull pp ph).partpages := mem_append_right _ (mem_singleton_self ph)
  refine ⟨⟨h.leaveFull hph, fun x hx => ⟨Iff.rfl, ?_, mem_erase_of_ne hx⟩, .inr (.inr hph),
    .inr (.inl hin), rfl, rfl⟩, hin⟩
  show x ∈ pp.partpages ++ [ph] ↔ x ∈ pp.partpages
  rw [mem_append, mem_singleton, or_iff_left hx]

theorem enterEmpty (h : Shelved c pp) (hph : ph ∈ pp.partpages) :
    PoolMoved c pp (poolEnterEmpty pp ph) ph ∧ ph ∈ (poolEnterEmpty pp ph).emptypages := by
  have hin : ph ∈ (poolEnterEmpty pp ph).emptypages := mem_append_right _ (mem_singleton_self ph)
  refine ⟨⟨h.enterEmpty hph, fun x hx => ⟨?_, mem_erase_of_ne hx, Iff.rfl⟩, .inr (.inl hph), .inl hin, rfl,
    rfl⟩, hin⟩
  show x ∈ pp.emptypages ++ [ph] ↔ x ∈ pp.emptypages
  rw [mem_append, mem_singleton, or_iff_left hx]

end PoolMoved

/-! ## Pages on the list for their number of missing items -/

/-- Every page is on the list for its number of missing items. -/
structure Sorted (c : PoolConf) (pp : Pool) : Prop where
  empty : ∀ ph ∈ pp.emptypages, (pp.page ph).nmissing = 0
  part : ∀ ph ∈ pp.partpages, 0 < (pp.page ph).nmissing ∧ (pp.page ph).nmissing < c.itemsperpage
  full : ∀ ph ∈ pp.fullpages, (pp.page ph).nmissing = c.itemsperpage

/-- The current page has a free item. -/
def CurFree (pp : Pool) : Prop := ∀ ph, pp.curpage = some ph → ph ∈ pp.emptypages ∨ ph ∈ pp.partpages

/-- Without a current page all pages are full. -/
def CurOk (pp : Pool) : Prop := pp.curpage = none → ∀ ph, pp.Has ph → ph ∈ pp.fullpages

theorem curFree_update (pp : Pool) : CurFree (poolUpdateCurpage pp) := by
  intro ph hcur
  have hcur' : pp.partpages.getLast?.or pp.emptypages.getLast? = some ph := hcur
  cases hpart : pp.partpages.getLast? with
  | some last =>
    rw [hpart] at hcur'
    cases hcur'
    exact .inr (mem_of_getLast? hpart)
  | none =>
    rw [hpart] at hcur'
    exact .inl (mem_of_getLast? hcur')

theorem curOk_update (pp : Pool) : CurOk (poolUpdateCurpage pp) := by
  intro hcur ph hph
  have hcur' : pp.partpages.getLast?.or pp.emptypages.getLast? = none := hcur
  rw [Option.or_eq_none_iff, getLast?_eq_none_iff, getLast?_eq_none_iff] at hcur'
  rcases hph with hempty | hpart | hfull
  · have hin : ph ∈ pp.emptypages := hempty
    rw [hcur'.2] at hin
    cases hin
  · have hin : ph ∈ pp.partpages := hpart
    rw [hcur'.1] at hin
    cases hin
  · exact hfull

/-- The lists, their counters and the current page. -/
structure ListsOk (c : PoolConf) (pp : Pool) : Prop where
  shelved : Shelved c pp
  sorted : Sorted c pp
  cur : CurFree pp

/-- A page is on the list for a number of missing items. -/
def OnPageList (c : PoolConf) (pp : Pool) (ph k : Nat) : Prop :=
  (ph ∈ pp.emptypages ∧ k = 0) ∨ (ph ∈ pp.partpages ∧ 0 < k ∧ k < c.itemsperpage) ∨
    (ph ∈ pp.fullpages ∧ k = c.itemsperpage)

theorem Sorted.onPageList (h : Sorted c pp) {ph : Nat} (hph : pp.Has ph) : OnPageList c pp ph (pp.page ph).nmissing := by
  rcases hph with hempty | hpart | hfull
  · exact .inl ⟨hempty, h.empty ph hempty⟩
  · exact .inr (.inl ⟨hpart, h.part ph hpart⟩)
  · exact .inr (.inr ⟨hfull, h.full ph hfull⟩)

/-- The page a step is about gets a new number of missing items and goes to the list for it. -/
theorem PoolMoved.sorted {pp₀ pp' : Pool} {ph : Nat} {hdr : PoolItemHeader} (h : Sorted c pp₀)
    (hmoved : PoolMoved c { pp₀ with page := update pp₀.page ph hdr } pp' ph)
    (hlist : OnPageList c pp' ph hdr.nmissing) : Sorted c pp' := by
  have hself : (pp'.page ph).nmissing = hdr.nmissing := by
    rw [hmoved.page]
    exact congrArg PoolItemHeader.nmissing (update_self ..)
  have hother : ∀ x, x ≠ ph → pp'.page x = pp₀.page x := by
    intro x hx
    rw [hmoved.page]
    exact update_of_ne hx ..
  have hdisjoint := hmoved.shelved
  refine ⟨?_, ?_, ?_⟩
  · intro x hx
    by_cases hxph : x = ph
    · rw [hxph] at hx ⊢
      rw [hself]
      rcases hlist with hlist | hlist | hlist
      · exact hlist.2
      · exact absurd hlist.1 (hdisjoint.not_part hx)
      · exact absurd hlist.1 (hdisjoint.not_full (.inl hx))
    · rw [hother x hxph]
      exact h.empty x ((hmoved.frame x hxph).1.1 hx)
  · intro x hx
    by_cases hxph : x = ph
    · rw [hxph] at hx ⊢
      rw [hself]
      rcases hlist with hlist | hlist | hlist
      · exact absurd hx (hdisjoint.not_part hlist.1)
      · exact hlist.2
      · exact absurd hlist.1 (hdisjoint.not_full (.inr hx))
    · rw [hother x hxph]
      exact h.part x ((hmoved.frame x hxph).2.1.1 hx)
  · intro x hx
    by_cases hxph : x = ph
    · rw [hxph] at hx ⊢
      rw [hself]
      rcases hlist with hlist | hlist | hlist
      · exact absurd hx (hdisjoint.not_full (.inl hlist.1))
      · exact absurd hx (hdisjoint.not_full (.inr hlist.1))
      · exact hlist.2
    · rw [hother x hxph]
      exact h.full x ((hmoved.frame x hxph).2.2.1 hx)

/-- What the end of `pool_do_get` does: it takes the first free item of the current page. -/
structure Took (c : PoolConf) (pp pp' : Pool) (ph slot : Nat) (rest : List Nat) : Prop where
  itemlist : (pp.page ph).itemlist = slot :: rest
  take : poolTake c pp = some (⟨ph, slot⟩, pp')
  lists : ListsOk c pp'
  curOk : CurOk pp'
  has : ∀ x, pp'.Has x ↔ pp.Has x
  page : pp'.page = Function.update pp.page ph ⟨rest, (pp.page ph).nmissing + 1⟩
  nout : pp'.nout = pp.nout

/-- With a free item on the current page `pool_do_get` succeeds. -/
theorem poolTake_took (hipp : 0 < c.itemsperpage) (h : ListsOk c pp) {ph : Nat} (hph : pp.curpage = some ph)
    (hlen : (pp.page ph).itemlist.length + (pp.page ph).nmissing = c.itemsperpage) :
    ∃ pp' slot rest, Took c pp pp' ph slot rest := by
  obtain ⟨hshelved, hsorted, hcur⟩ := h
  have hlist := hcur ph hph
  have hmissing : (pp.page ph).nmissing < c.itemsperpage := by
    rcases hlist with hempty | hpart
    · rw [hsorted.empty ph hempty]
      exact hipp
    · exact (hsorted.part ph hpart).2
  cases hitems : (pp.page ph).itemlist with
  | nil =>
    rw [hitems, length_nil] at hlen
    omega
  | cons slot rest =>
    let nmissing := (pp.page ph).nmissing
    let pp₁ := { pp with page := update pp.page ph ⟨rest, nmissing + 1⟩ }
    let pp₂ := if nmissing = 0 then poolLeaveEmpty pp₁ ph else pp₁
    let pp₃ := if nmissing + 1 = c.itemsperpage then poolEnterFull pp₂ ph else pp₂
    have hset : Shelved c pp₁ := hshelved.setPage _
    have htake : poolTake c pp = some (⟨ph, slot⟩, pp₃) := by
      unfold poolTake
      split
      next hnone =>
        rw [hph] at hnone
        cases hnone
      next ph' hsome =>
        have hsame : ph' = ph := Option.some.inj (hsome.symm.trans hph)
        subst hsame
        split
        next hnil =>
          rw [hitems] at hnil
          cases hnil
        next slot' rest' hcons =>
          rw [hitems] at hcons
          cases hcons
          rfl
    -- the page is on the list of the partial ones first
    have hpart : PoolMoved c pp₁ pp₂ ph ∧ ph ∈ pp₂.partpages := by
      show PoolMoved c pp₁ (if nmissing = 0 then poolLeaveEmpty pp₁ ph else pp₁) ph ∧ ph ∈
        (if nmissing = 0 then poolLeaveEmpty pp₁ ph else pp₁).partpages
      split
      next hzero =>
        rcases hlist with hempty | hpart
        · exact PoolMoved.leaveEmpty hset hempty
        · exact absurd hzero (hsorted.part ph hpart).1.ne'
      next hpos =>
        rcases hlist with hempty | hpart
        · exact absurd (hsorted.empty ph hempty) hpos
        · exact ⟨PoolMoved.refl hset (.inr (.inl hpart)), hpart⟩
    have hfull : PoolMoved c pp₁ pp₃ ph ∧ OnPageList c pp₃ ph (nmissing + 1) ∧ CurFree pp₃ ∧ CurOk pp₃ := by
      show PoolMoved c pp₁ (if nmissing + 1 = c.itemsperpage then poolEnterFull pp₂ ph else pp₂) ph ∧
        OnPageList c (if nmissing + 1 = c.itemsperpage then poolEnterFull pp₂ ph else pp₂) ph (nmissing + 1) ∧
        CurFree (if nmissing + 1 = c.itemsperpage then poolEnterFull pp₂ ph else pp₂) ∧
        CurOk (if nmissing + 1 = c.itemsperpage then poolEnterFull pp₂ ph else pp₂)
      split
      next hlast =>
        obtain ⟨hmoved, hin⟩ := PoolMoved.enterFull hpart.1.shelved hpart.2
        exact ⟨hpart.1.trans hmoved, .inr (.inr ⟨hin, hlast⟩), curFree_update _, curOk_update _⟩
      next hmore =>
        have hcur₂ : pp₂.curpage = some ph := by
          show (if nmissing = 0 then poolLeaveEmpty pp₁ ph else pp₁).curpage = some ph
          split <;> exact hph
        refine ⟨hpart.1, .inr (.inl ⟨hpart.2, Nat.succ_pos _, by omega⟩), ?_, ?_⟩
        · intro x hx
          rw [hcur₂] at hx
          cases hx
          exact .inr hpart.2
        · intro hnone
          rw [hcur₂] at hnone
          cases hnone
    exact ⟨pp₃, slot, rest, rfl.trans hitems, htake, ⟨hfull.1.shelved, hfull.1.sorted hsorted hfull.2.1, hfull.2.2.1⟩,
      hfull.2.2.2, hfull.1.has_iff, hfull.1.page, hfull.1.nout⟩

/-- The item goes back to a full page while there is no current page, and the page keeps other items in
use: nothing makes it the current page. -/
def Stranded (c : PoolConf) (pp : Pool) (it : PoolItem) : Prop :=
  pp.curpage = none ∧ (pp.page it.page).nmissing = c.itemsperpage ∧ 1 < c.itemsperpage

/-- What `pool_put` does before it looks for a page to free. -/
structure Returned (c : PoolConf) (pp pp' : Pool) (it : PoolItem) : Prop where
  lists : ListsOk c pp'
  curOk : CurOk pp → ¬ Stranded c pp it → CurOk pp'
  stranded : Stranded c pp it → pp'.curpage = none ∧ it.page ∈ pp'.partpages ∧ pp'.emptypages = pp.emptypages
  has : ∀ x, pp'.Has x ↔ pp.Has x
  page : pp'.page = Function.update pp.page it.page
    ⟨it.slot :: (pp.page it.page).itemlist, (pp.page it.page).nmissing - 1⟩
  nout : pp'.nout = pp.nout - 1

theorem poolReturn_returned (h : ListsOk c pp) {it : PoolItem} (hph : pp.Has it.page)
    (hpos : 0 < (pp.page it.page).nmissing) : Returned c pp (poolReturn c pp it) it := by
  obtain ⟨hshelved, hsorted, hcur⟩ := h
  let ph := it.page
  let nmissing := (pp.page ph).nmissing
  let pp₁ := { pp with page := update pp.page ph ⟨it.slot :: (pp.page ph).itemlist, nmissing - 1⟩ }
  let pp₂ := if nmissing = c.itemsperpage then poolLeaveFull pp₁ ph else pp₁
  let pp₃ := if nmissing - 1 = 0 then poolEnterEmpty pp₂ ph else pp₂
  have hset : Shelved c pp₁ := hshelved.setPage _
  have hlist := hsorted.onPageList hph
  have hle : nmissing ≤ c.itemsperpage := by
    rcases hlist with hlist | hlist | hlist
    · exact absurd hlist.2 hpos.ne'
    · exact hlist.2.2.le
    · exact hlist.2.le
  -- the page is on the list of the partial ones first
  have hpart : PoolMoved c pp₁ pp₂ ph ∧ ph ∈ pp₂.partpages := by
    show PoolMoved c pp₁ (if nmissing = c.itemsperpage then poolLeaveFull pp₁ ph else pp₁) ph ∧ ph ∈
      (if nmissing = c.itemsperpage then poolLeaveFull pp₁ ph else pp₁).partpages
    rcases hlist with hlist | hlist | hlist
    · exact absurd hlist.2 hpos.ne'
    · rw [if_neg hlist.2.2.ne]
      exact ⟨PoolMoved.refl hset hph, hlist.1⟩
    · rw [if_pos hlist.2]
      exact PoolMoved.leaveFull hset hlist.1
  have hcur₂ : pp₂.curpage = pp.curpage := by
    show (if nmissing = c.itemsperpage then poolLeaveFull pp₁ ph else pp₁).curpage = pp.curpage
    split <;> rfl
  have hempty₂ : pp₂.emptypages = pp.emptypages := by
    show (if nmissing = c.itemsperpage then poolLeaveFull pp₁ ph else pp₁).emptypages = pp.emptypages
    split <;> rfl
  have hlast : PoolMoved c pp₁ pp₃ ph ∧ OnPageList c pp₃ ph (nmissing - 1) ∧ CurFree pp₃ ∧
      (CurOk pp → ¬ Stranded c pp it → CurOk pp₃) ∧
      (Stranded c pp it → pp₃.curpage = none ∧ it.page ∈ pp₃.partpages ∧ pp₃.emptypages = pp.emptypages) := by
    show PoolMoved c pp₁ (if nmissing - 1 = 0 then poolEnterEmpty pp₂ ph else pp₂) ph ∧
      OnPageList c (if nmissing - 1 = 0 then poolEnterEmpty pp₂ ph else pp₂) ph (nmissing - 1) ∧
      CurFree (if nmissing - 1 = 0 then poolEnterEmpty pp₂ ph else pp₂) ∧
      (CurOk pp → ¬ Stranded c pp it → CurOk (if nmissing - 1 = 0 then poolEnterEmpty pp₂ ph else pp₂)) ∧
      (Stranded c pp it → (if nmissing - 1 = 0 then poolEnterEmpty pp₂ ph else pp₂).curpage = none ∧
        it.page ∈ (if nmissing - 1 = 0 then poolEnterEmpty pp₂ ph else pp₂).partpages ∧
        (if nmissing - 1 = 0 then poolEnterEmpty pp₂ ph else pp₂).emptypages = pp.emptypages)
    split
    next hzero =>
      obtain ⟨hmoved, hin⟩ := PoolMoved.enterEmpty hpart.1.shelved hpart.2
      refine ⟨hpart.1.trans hmoved, .inl ⟨hin, hzero⟩, curFree_update _, fun _ _ => curOk_update _, ?_⟩
      rintro ⟨-, hfull, hmore⟩
      have hfull' : nmissing = c.itemsperpage := hfull
      omega
    next hmore =>
      refine ⟨hpart.1, .inr (.inl ⟨hpart.2, by omega, by omega⟩), ?_, ?_, ?_⟩
      · intro x hx
        rw [hcur₂] at hx
        by_cases hxph : x = ph
        · rw [hxph]
          exact .inr hpart.2
        · obtain ⟨hempty, hpart', -⟩ := hpart.1.frame x hxph
          rw [hempty, hpart']
          exact hcur x hx
      · -- without a current page the page was full, so it is stranded now
        intro hok hnot hnone
        rw [hcur₂] at hnone
        have hfull := hsorted.full ph (hok hnone ph hph)
        exact absurd ⟨hnone, hfull, by omega⟩ hnot
      · rintro ⟨hnone, -, -⟩
        exact ⟨hcur₂.trans hnone, hpart.2, hempty₂⟩
  exact
    { lists := ⟨⟨hlast.1.shelved.nodup, hlast.1.shelved.nidle, hlast.1.shelved.npages, hlast.1.shelved.nitems⟩,
        ⟨(hlast.1.sorted hsorted hlast.2.1).empty, (hlast.1.sorted hsorted hlast.2.1).part,
          (hlast.1.sorted hsorted hlast.2.1).full⟩, hlast.2.2.1⟩
      curOk := hlast.2.2.2.1
      stranded := hlast.2.2.2.2
      has := hlast.1.has_iff
      page := hlast.1.page
      nout := congrArg (· - 1) hlast.1.nout }

/-- What `pool_p_remove` of an empty page does. -/
structure Removed (c : PoolConf) (pp pp' : Pool) : Prop where
  lists : ListsOk c pp'
  has : ∀ x, pp'.Has x → pp.Has x
  kept : ∀ x, pp.Has x → (pp.page x).nmissing ≠ 0 → pp'.Has x
  page : pp'.page = pp.page
  nout : pp'.nout = pp.nout

theorem Removed.refl (h : ListsOk c pp) : Removed c pp pp := ⟨h, fun _ h => h, fun _ h _ => h, rfl, rfl⟩

theorem Removed.trans {pp' pp'' : Pool} (h : Removed c pp pp') (h' : Removed c pp' pp'') : Removed c pp pp'' := by
  refine ⟨h'.lists, fun x hx => h.has x (h'.has x hx), fun x hx hne => ?_, h'.page.trans h.page,
    h'.nout.trans h.nout⟩
  apply h'.kept x (h.kept x hx hne)
  rwa [h.page]

theorem poolPRemove_removed (h : ListsOk c pp) {ph : Nat} (hph : ph ∈ pp.emptypages) :
    Removed c pp (poolPRemove c pp ph) := by
  obtain ⟨hshelved, hsorted, -⟩ := h
  have herase : ∀ x, x ∈ pp.emptypages.erase ph → x ∈ pp.emptypages := fun x hx => mem_of_mem_erase hx
  refine ⟨⟨hshelved.remove hph, ⟨?_, hsorted.part, hsorted.full⟩, curFree_update _⟩, ?_, ?_, rfl, rfl⟩
  · exact fun x hx => hsorted.empty x (herase x hx)
  · rintro x (hempty | hrest)
    · exact .inl (herase x hempty)
    · exact .inr hrest
  · rintro x (hempty | hrest) hne
    · exact absurd (hsorted.empty x hempty) hne
    · exact .inr hrest

theorem poolPutFree_removed (h : ListsOk c pp) (idle : Bool) :
    Removed c pp (poolPutFree c pp idle) ∧ (CurOk pp → CurOk (poolPutFree c pp idle)) := by
  unfold poolPutFree
  split
  next => exact ⟨Removed.refl h, fun hok => hok⟩
  next ph phs hempty =>
    split
    · exact ⟨poolPRemove_removed h (by rw [hempty]; exact mem_cons_self), fun _ => curOk_update _⟩
    · exact ⟨Removed.refl h, fun hok => hok⟩

theorem poolReclaimLoop_removed (phs : List Nat) (h : ListsOk c pp) (hphs : phs.Nodup)
    (hempty : ∀ ph ∈ phs, ph ∈ pp.emptypages) :
    Removed c pp (poolReclaimLoop c phs pp) ∧ (CurOk pp → CurOk (poolReclaimLoop c phs pp)) := by
  induction phs generalizing pp with
  | nil => exact ⟨Removed.refl h, fun hok => hok⟩
  | cons ph phs ih =>
    rw [poolReclaimLoop]
    split
    · exact ⟨Removed.refl h, fun hok => hok⟩
    · split
      · exact ⟨Removed.refl h, fun hok => hok⟩
      · obtain ⟨hnotin, hnodup⟩ := nodup_cons.1 hphs
        have hone := poolPRemove_removed h (hempty ph mem_cons_self)
        have hrest : ∀ x ∈ phs, x ∈ (poolPRemove c pp ph).emptypages := by
          intro x hx
          have hne : x ≠ ph := fun heq => hnotin (heq ▸ hx)
          exact (mem_erase_of_ne hne).2 (hempty x (mem_cons_of_mem ph hx))
        obtain ⟨hremoved, hok⟩ := ih hone.lists hnodup hrest
        exact ⟨hone.trans hremoved, fun _ => hok (curOk_update _)⟩

/-- What `pool_p_insert` of a new page does. -/
structure Inserted (c : PoolConf) (pp pp' : Pool) (ph : Nat) : Prop where
  lists : ListsOk c pp'
  cur : pp'.curpage ≠ none
  has : ∀ x, pp'.Has x ↔ pp.Has x ∨ x = ph
  page : pp'.page = Function.update pp.page ph (poolPAlloc c)
  nout : pp'.nout = pp.nout

theorem Inserted.curOk {pp' : Pool} {ph : Nat} (h : Inserted c pp pp' ph) : CurOk pp' :=
  fun hnone => absurd hnone h.cur

theorem poolPInsert_inserted (h : ListsOk c pp) {ph : Nat} (hph : ¬ pp.Has ph) :
    Inserted c pp (poolPInsert c pp ph) ph := by
  obtain ⟨hshelved, hsorted, hcur⟩ := h
  have hmem : ∀ x, x ∈ (poolPInsert c pp ph).emptypages ↔ x ∈ pp.emptypages ∨ x = ph := by
    intro x
    show x ∈ pp.emptypages ++ [ph] ↔ _
    rw [mem_append, mem_singleton]
  have hpage : ∀ x, x ≠ ph → (poolPInsert c pp ph).page x = pp.page x := fun x hx => update_of_ne hx ..
  have hself : (poolPInsert c pp ph).page ph = poolPAlloc c := update_self ..
  refine ⟨⟨hshelved.insert hph, ⟨?_, ?_, ?_⟩, ?_⟩, ?_, ?_, rfl, rfl⟩
  · intro x hx
    rcases (hmem x).1 hx with hx | rfl
    · rw [hpage x fun heq => hph (heq ▸ .inl hx)]
      exact hsorted.empty x hx
    · rw [hself]
      rfl
  · intro x hx
    have hin : x ∈ pp.partpages := hx
    rw [hpage x fun heq => hph (heq ▸ .inr (.inl hin))]
    exact hsorted.part x hin
  · intro x hx
    have hin : x ∈ pp.fullpages := hx
    rw [hpage x fun heq => hph (heq ▸ .inr (.inr hin))]
    exact hsorted.full x hin
  · intro x hx
    have hcur' : pp.curpage.or (some ph) = some x := hx
    cases hold : pp.curpage with
    | none =>
      rw [hold] at hcur'
      cases hcur'
      exact .inl ((hmem ph).2 (.inr rfl))
    | some y =>
      rw [hold] at hcur'
      cases hcur'
      rcases hcur x hold with hin | hin
      · exact .inl ((hmem x).2 (.inl hin))
      · exact .inr hin
  · show pp.curpage.or (some ph) ≠ none
    rw [ne_eq, Option.or_eq_none_iff]
    exact fun hnone => nomatch hnone.2
  · intro x
    unfold Pool.Has
    rw [hmem x, or_right_comm]
    exact Iff.rfl

end OpenBsd.Kern
