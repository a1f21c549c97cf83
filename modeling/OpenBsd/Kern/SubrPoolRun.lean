/-
  OpenBsd.Kern.SubrPoolRun

  The pool and its callers, over whole runs: the items, the current page, and the calls that fail.
-/

import OpenBsd.Kern.SubrPoolSafe

namespace OpenBsd.Kern

open OpenBsd.Lib List

variable {c : PoolConf} {s : PoolSys}

/-- How many items of the page are held. -/
def heldOn (held : List PoolItem) (ph : Nat) : Nat := held.countP fun it => it.page = ph

theorem heldOn_cons_self (held : List PoolItem) (it : PoolItem) :
    heldOn (it :: held) it.page = heldOn held it.page + 1 := by
  unfold heldOn
  rw [countP_cons, if_pos (decide_eq_true rfl)]

variable {ph : Nat} {it : PoolItem}

theorem heldOn_cons_of_ne {held : List PoolItem} (h : it.page ≠ ph) :
    heldOn (it :: held) ph = heldOn held ph := by
  unfold heldOn
  rw [countP_cons, if_neg (by simpa using h), Nat.add_zero]

/-- Every item of a page is free or held by one caller. -/
structure PoolOk (c : PoolConf) (s : PoolSys) : Prop where
  lists : ListsOk c s.pp
  itemlist : ∀ ph, s.pp.Has ph → (s.pp.page ph).itemlist.Nodup
  total : ∀ ph, s.pp.Has ph → (s.pp.page ph).itemlist.length + (s.pp.page ph).nmissing = c.itemsperpage
  missing : ∀ ph, s.pp.Has ph → (s.pp.page ph).nmissing = heldOn s.held ph
  free : ∀ ph, s.pp.Has ph → ∀ slot ∈ (s.pp.page ph).itemlist, (⟨ph, slot⟩ : PoolItem) ∉ s.held
  held : ∀ it ∈ s.held, s.pp.Has it.page
  nodup : s.held.Nodup

theorem poolOk_init (c : PoolConf) : PoolOk c poolSysInit := by
  have hnone : ∀ ph, ¬ poolSysInit.pp.Has ph := by
    rintro ph (h | h | h) <;> cases h
  have hlists : ListsOk c poolSysInit.pp := by
    refine ⟨⟨nodup_nil, rfl, rfl, ?_⟩, ⟨?_, ?_, ?_⟩, fun _ h => nomatch h⟩
    · show 0 = 0 * c.itemsperpage
      rw [Nat.zero_mul]
    all_goals
      intro ph h
      cases h
  refine ⟨hlists, ?_, ?_, ?_, ?_, ?_, nodup_nil⟩
  all_goals intro ph h
  · exact absurd h (hnone ph)
  · exact absurd h (hnone ph)
  · exact absurd h (hnone ph)
  · exact absurd h (hnone ph)
  · cases h

theorem ListsOk.counted {pp : Pool} (h : ListsOk c pp) (n : Nat) : ListsOk c { pp with nout := n } :=
  ⟨⟨h.shelved.nodup, h.shelved.nidle, h.shelved.npages, h.shelved.nitems⟩,
    ⟨h.sorted.empty, h.sorted.part, h.sorted.full⟩, h.cur⟩

theorem PoolOk.of_fewer {s' : PoolSys} (h : PoolOk c s) (hlists : ListsOk c s'.pp)
    (hhas : ∀ ph, s'.pp.Has ph → s.pp.Has ph) (hkept : ∀ it ∈ s.held, s'.pp.Has it.page)
    (hpage : s'.pp.page = s.pp.page) (hheld : s'.held = s.held) : PoolOk c s' := by
  refine ⟨hlists, ?_, ?_, ?_, ?_, ?_, ?_⟩
  · intro ph hph
    rw [hpage]
    exact h.itemlist ph (hhas ph hph)
  · intro ph hph
    rw [hpage]
    exact h.total ph (hhas ph hph)
  · intro ph hph
    rw [hpage, hheld]
    exact h.missing ph (hhas ph hph)
  · intro ph hph
    rw [hpage, hheld]
    exact h.free ph (hhas ph hph)
  · intro it hit
    rw [hheld] at hit
    exact hkept it hit
  · rw [hheld]
    exact h.nodup

theorem PoolOk.missing_pos (h : PoolOk c s) {it : PoolItem} (hit : it ∈ s.held) :
    0 < (s.pp.page it.page).nmissing := by
  rw [h.missing it.page (h.held it hit)]
  exact countP_pos_iff.2 ⟨it, hit, decide_eq_true rfl⟩

variable {pp' : Pool}

theorem PoolOk.removed (h : PoolOk c s) (hremoved : Removed c s.pp pp') :
    PoolOk c { s with pp := pp' } := by
  apply h.of_fewer hremoved.lists hremoved.has
  · intro it hit
    exact hremoved.kept it.page (h.held it hit) (h.missing_pos hit).ne'
  · exact hremoved.page
  · rfl

/-- The item taken is held from now on. -/
theorem PoolOk.took {pp' : Pool} {ph slot : Nat} {rest : List Nat} (h : PoolOk c s) (hph : s.pp.Has ph)
    (htook : Took c s.pp pp' ph slot rest) :
    PoolOk c { s with pp := pp', held := ⟨ph, slot⟩ :: s.held } := by
  have hself : pp'.page ph = ⟨rest, (s.pp.page ph).nmissing + 1⟩ := by
    rw [htook.page]
    exact Function.update_self ..
  have hother : ∀ x, x ≠ ph → pp'.page x = s.pp.page x := by
    intro x hx
    rw [htook.page]
    exact Function.update_of_ne hx ..
  have hnodup := h.itemlist ph hph
  have hfree := h.free ph hph
  have htotal := h.total ph hph
  rw [htook.itemlist] at hnodup hfree htotal
  obtain ⟨hnotin, hrest⟩ := nodup_cons.1 hnodup
  refine ⟨htook.lists, ?_, ?_, ?_, ?_, ?_, ?_⟩
  · intro x hx
    show (pp'.page x).itemlist.Nodup
    by_cases hxph : x = ph
    · rw [hxph, hself]
      exact hrest
    · rw [hother x hxph]
      exact h.itemlist x ((htook.has x).1 hx)
  · intro x hx
    show (pp'.page x).itemlist.length + (pp'.page x).nmissing = _
    by_cases hxph : x = ph
    · rw [hxph, hself]
      show rest.length + ((s.pp.page ph).nmissing + 1) = _
      rw [length_cons] at htotal
      omega
    · rw [hother x hxph]
      exact h.total x ((htook.has x).1 hx)
  · intro x hx
    show (pp'.page x).nmissing = heldOn (⟨ph, slot⟩ :: s.held) x
    by_cases hxph : x = ph
    · rw [hxph, hself]
      show (s.pp.page ph).nmissing + 1 = heldOn (⟨ph, slot⟩ :: s.held) (PoolItem.page ⟨ph, slot⟩)
      rw [heldOn_cons_self, h.missing ph hph]
    · rw [hother x hxph, heldOn_cons_of_ne fun heq => hxph heq.symm]
      exact h.missing x ((htook.has x).1 hx)
  · intro x hx slot' hslot' hheld
    have hslot'' : slot' ∈ (pp'.page x).itemlist := hslot'
    by_cases hxph : x = ph
    · subst hxph
      rw [hself] at hslot''
      rcases mem_cons.1 hheld with heq | hheld
      · cases heq
        exact hnotin hslot''
      · exact hfree slot' (mem_cons_of_mem slot hslot'') hheld
    · rw [hother x hxph] at hslot''
      rcases mem_cons.1 hheld with heq | hheld
      · exact hxph (congrArg PoolItem.page heq)
      · exact h.free x ((htook.has x).1 hx) slot' hslot'' hheld
  · intro it hit
    rcases mem_cons.1 hit with rfl | hit
    · exact (htook.has ph).2 hph
    · exact (htook.has _).2 (h.held it hit)
  · exact nodup_cons.2 ⟨hfree slot mem_cons_self, h.nodup⟩

/-- The item returned is free from now on. -/
theorem PoolOk.returned (h : PoolOk c s) (hit : it ∈ s.held)
    (hret : Returned c s.pp pp' it) : PoolOk c { s with pp := pp', held := s.held.erase it } := by
  have hph := h.held it hit
  have hpos := h.missing_pos hit
  have hself : pp'.page it.page =
      ⟨it.slot :: (s.pp.page it.page).itemlist, (s.pp.page it.page).nmissing - 1⟩ := by
    rw [hret.page]
    exact Function.update_self ..
  have hother : ∀ x, x ≠ it.page → pp'.page x = s.pp.page x := by
    intro x hx
    rw [hret.page]
    exact Function.update_of_ne hx ..
  have hgone : it ∉ s.held.erase it := fun hin => (h.nodup.mem_erase_iff.1 hin).1 rfl
  refine ⟨hret.lists, ?_, ?_, ?_, ?_, ?_, h.nodup.erase it⟩
  · intro x hx
    show (pp'.page x).itemlist.Nodup
    by_cases hxph : x = it.page
    · rw [hxph, hself]
      exact nodup_cons.2 ⟨fun hin => h.free it.page hph it.slot hin hit, h.itemlist it.page hph⟩
    · rw [hother x hxph]
      exact h.itemlist x ((hret.has x).1 hx)
  · intro x hx
    show (pp'.page x).itemlist.length + (pp'.page x).nmissing = _
    by_cases hxph : x = it.page
    · rw [hxph, hself]
      have htotal := h.total it.page hph
      show ((s.pp.page it.page).itemlist.length + 1) + ((s.pp.page it.page).nmissing - 1) = _
      omega
    · rw [hother x hxph]
      exact h.total x ((hret.has x).1 hx)
  · intro x hx
    show (pp'.page x).nmissing = heldOn (s.held.erase it) x
    have hcount : heldOn s.held x = heldOn (it :: s.held.erase it) x := (perm_cons_erase hit).countP_eq _
    rw [← h.missing x ((hret.has x).1 hx)] at hcount
    by_cases hxph : x = it.page
    · rw [hxph, heldOn_cons_self] at hcount
      rw [hxph, hself]
      show (s.pp.page it.page).nmissing - 1 = _
      omega
    · rw [heldOn_cons_of_ne fun heq => hxph heq.symm] at hcount
      rw [hother x hxph, hcount]
  · intro x hx slot hslot hheld
    have hslot' : slot ∈ (pp'.page x).itemlist := hslot
    have hheld' := mem_of_mem_erase hheld
    by_cases hxph : x = it.page
    · subst hxph
      rw [hself] at hslot'
      rcases mem_cons.1 hslot' with rfl | hslot'
      · exact hgone hheld
      · exact h.free it.page hph slot hslot' hheld'
    · rw [hother x hxph] at hslot'
      exact h.free x ((hret.has x).1 hx) slot hslot' hheld'
  · intro it' hit'
    exact (hret.has _).2 (h.held it' (mem_of_mem_erase hit'))

/-- A new page has all its items. -/
theorem PoolOk.inserted (h : PoolOk c s) (hph : ¬ s.pp.Has ph)
    (hins : Inserted c s.pp pp' ph) : PoolOk c { s with pp := pp' } := by
  have hself : pp'.page ph = poolPAlloc c := by
    rw [hins.page]
    exact Function.update_self ..
  have hother : ∀ x, x ≠ ph → pp'.page x = s.pp.page x := by
    intro x hx
    rw [hins.page]
    exact Function.update_of_ne hx ..
  have hold : ∀ x, x ≠ ph → pp'.Has x → s.pp.Has x := by
    intro x hxph hx
    rcases (hins.has x).1 hx with hx | hx
    · exact hx
    · exact absurd hx hxph
  have hnoheld : ∀ it ∈ s.held, it.page ≠ ph := fun it hit heq => hph (heq ▸ h.held it hit)
  refine ⟨hins.lists, ?_, ?_, ?_, ?_, ?_, h.nodup⟩
  · intro x hx
    show (pp'.page x).itemlist.Nodup
    by_cases hxph : x = ph
    · rw [hxph, hself]
      exact nodup_range
    · rw [hother x hxph]
      exact h.itemlist x (hold x hxph hx)
  · intro x hx
    show (pp'.page x).itemlist.length + (pp'.page x).nmissing = _
    by_cases hxph : x = ph
    · rw [hxph, hself]
      show (List.range c.itemsperpage).length + 0 = _
      rw [length_range, Nat.add_zero]
    · rw [hother x hxph]
      exact h.total x (hold x hxph hx)
  · intro x hx
    show (pp'.page x).nmissing = _
    by_cases hxph : x = ph
    · rw [hxph, hself]
      symm
      apply countP_eq_zero.2
      intro it hit
      simpa using hnoheld it hit
    · rw [hother x hxph]
      exact h.missing x (hold x hxph hx)
  · intro x hx slot hslot hheld
    by_cases hxph : x = ph
    · exact hnoheld _ hheld hxph
    · have hslot' : slot ∈ (pp'.page x).itemlist := hslot
      rw [hother x hxph] at hslot'
      exact h.free x (hold x hxph hx) slot hslot' hheld
  · intro it hit
    exact (hins.has _).2 (.inl (h.held it hit))

/-! ## Steps -/

/-- Without a current page the pool was depleted for every call that did not get an item. -/
structure CurTold (s : PoolSys) : Prop where
  cur : CurOk s.pp
  waiting : ∀ looked ∈ s.waiting, looked = true
  failed : ∀ looked ∈ s.failed, looked = true

/-- No `pool_put` gives an item to a full page, so that it is a partial one, while there is no current
page. -/
def PutOk (c : PoolConf) (s : PoolSys) : PoolStep → Prop
  | .put it _ => ¬ Stranded c s.pp it
  | _ => True

/-- `pr_nout` counts the items that are held and those that are on the way. -/
def NoutOk (s : PoolSys) : Prop := s.pp.nout = s.held.length + s.waiting.length

theorem PoolOk.nmissing_full (h : PoolOk c s) {ph : Nat} (hph : s.pp.Has ph) :
    (s.pp.page ph).nmissing = c.itemsperpage ↔ (s.pp.page ph).itemlist = [] := by
  have htotal := h.total ph hph
  rw [← length_eq_zero_iff]
  omega

theorem PoolOk.mem_full (h : PoolOk c s) {ph : Nat} (hph : s.pp.Has ph) :
    ph ∈ s.pp.fullpages → (s.pp.page ph).itemlist = [] :=
  fun hfull => (h.nmissing_full hph).1 (h.lists.sorted.full ph hfull)

theorem PoolOk.depleted (h : PoolOk c s) (hcur : CurOk s.pp) (hnone : s.pp.curpage = none) :
    s.pp.depleted = true := by
  unfold Pool.depleted
  rw [all_eq_true]
  intro ph hin
  rw [mem_append, mem_append, or_assoc] at hin
  rw [h.mem_full hin (hcur hnone ph hin)]
  rfl

theorem PoolSys.take_ok (hipp : 0 < c.itemsperpage) {pp : Pool} (h : PoolOk c { s with pp := pp })
    (hcur : pp.curpage ≠ none) :
    ∃ s', s.take c pp = some s' ∧ PoolOk c s' ∧ CurOk s'.pp ∧ s'.waiting = s.waiting ∧ s'.failed = s.failed ∧
      s'.held.length = s.held.length + 1 ∧ s'.pp.nout = pp.nout := by
  obtain ⟨ph, hph⟩ := Option.ne_none_iff_exists'.1 hcur
  have hhas : pp.Has ph := by
    rcases h.lists.cur ph hph with hempty | hpart
    · exact .inl hempty
    · exact .inr (.inl hpart)
  obtain ⟨pp', slot, rest, htook⟩ := poolTake_took hipp h.lists hph (h.total ph hhas)
  refine ⟨{ s with pp := pp', held := ⟨ph, slot⟩ :: s.held }, ?_, ?_, htook.curOk, rfl, rfl,
    length_cons, htook.nout⟩
  · unfold PoolSys.take
    rw [htook.take]
    rfl
  · exact @PoolOk.took c { s with pp := pp } pp' ph slot rest h hhas htook

theorem poolPrime_ok (phs : List Nat) (h : PoolOk c s) (hnodup : phs.Nodup)
    (hnew : ∀ ph ∈ phs, ¬ s.pp.Has ph) :
    PoolOk c { s with pp := phs.foldl (poolPInsert c) s.pp } ∧
      (CurOk s.pp → CurOk (phs.foldl (poolPInsert c) s.pp)) ∧
      (phs.foldl (poolPInsert c) s.pp).nout = s.pp.nout := by
  induction phs generalizing s with
  | nil => exact ⟨h, fun hok => hok, rfl⟩
  | cons ph phs ih =>
    obtain ⟨hnotin, hnodup⟩ := nodup_cons.1 hnodup
    have hins := poolPInsert_inserted h.lists (hnew ph mem_cons_self)
    have hone := h.inserted (hnew ph mem_cons_self) hins
    have hrest := @ih { s with pp := poolPInsert c s.pp ph } hone hnodup ?_
    · exact ⟨hrest.1, fun _ => hrest.2.1 hins.curOk, hrest.2.2.trans hins.nout⟩
    · intro x hx hhas
      rcases (hins.has x).1 hhas with hold | hsame
      · exact hnew x (mem_cons_of_mem ph hx) hold
      · exact hnotin (hsame ▸ hx)

/-- One critical section. -/
theorem poolStep_ok (hipp : 0 < c.itemsperpage) {s' : PoolSys} {e : PoolStep} (h : PoolOk c s)
    (hnout : NoutOk s) (hstep : poolStep c s e = some s') :
    PoolOk c s' ∧ NoutOk s' ∧ (CurTold s → PutOk c s e → CurTold s') := by
  unfold NoutOk at hnout
  cases e with
  | get =>
    rw [poolStep] at hstep
    have hcount : PoolOk c { s with pp := { s.pp with nout := s.pp.nout + 1 } } :=
      h.of_fewer (h.lists.counted _) (fun _ hph => hph) h.held rfl rfl
    split at hstep
    · cases hstep
      exact ⟨h, hnout, fun htold _ => htold⟩
    · split at hstep
      next hnone =>
        -- the call waits for a page, and remembers what it saw
        cases hstep
        refine ⟨hcount.of_fewer hcount.lists (fun _ hph => hph) hcount.held rfl rfl, ?_, fun htold _ => ?_⟩
        · show s.pp.nout + 1 = s.held.length + (s.waiting ++ [s.pp.depleted]).length
          rw [length_append, length_singleton]
          omega
        · refine ⟨htold.cur, ?_, htold.failed⟩
          intro looked hlooked
          rcases mem_append.1 hlooked with hold | hnew
          · exact htold.waiting looked hold
          · rw [mem_singleton.1 hnew]
            exact h.depleted htold.cur hnone
      next hsome =>
        obtain ⟨s'', htake, hok, hcur, hwaiting, hfailed, hheld, hout⟩ := PoolSys.take_ok hipp hcount hsome
        rw [htake] at hstep
        cases hstep
        refine ⟨hok, ?_, fun htold _ => ⟨hcur, ?_, ?_⟩⟩
        · unfold NoutOk
          rw [hout, hheld, hwaiting]
          show s.pp.nout + 1 = _
          omega
        · rw [hwaiting]
          exact htold.waiting
        · rw [hfailed]
          exact htold.failed
  | noPage k =>
    rw [poolStep] at hstep
    split at hstep
    · cases hstep
    next looked hlooked =>
      cases hstep
      have hk := (List.getElem?_eq_some_iff.1 hlooked).1
      refine ⟨h.of_fewer (h.lists.counted _) (fun _ hph => hph) h.held rfl rfl, ?_,
        fun htold _ => ⟨htold.cur, ?_, ?_⟩⟩
      · show s.pp.nout - 1 = s.held.length + (s.waiting.eraseIdx k).length
        rw [length_eraseIdx_of_lt hk]
        omega
      · exact fun x hx => htold.waiting x (mem_of_mem_eraseIdx hx)
      · intro x hx
        rcases mem_cons.1 hx with rfl | hx
        · exact htold.waiting _ (mem_of_getElem? hlooked)
        · exact htold.failed x hx
  | newPage k ph =>
    rw [poolStep] at hstep
    split at hstep
    next hnew =>
      have hins := poolPInsert_inserted h.lists hnew.2
      have hpage := h.inserted hnew.2 hins
      have hpage' : PoolOk c { s with waiting := s.waiting.eraseIdx k, pp := poolPInsert c s.pp ph } :=
        hpage.of_fewer hpage.lists (fun _ hph => hph) hpage.held rfl rfl
      obtain ⟨s'', htake, hok, hcur, hwaiting, hfailed, hheld, hout⟩ :=
        @PoolSys.take_ok c { s with waiting := s.waiting.eraseIdx k } hipp _ hpage' hins.cur
      rw [htake] at hstep
      cases hstep
      refine ⟨hok, ?_, fun htold _ => ⟨hcur, ?_, ?_⟩⟩
      · unfold NoutOk
        rw [hout, hheld, hwaiting, hins.nout]
        show s.pp.nout = s.held.length + 1 + (s.waiting.eraseIdx k).length
        rw [length_eraseIdx_of_lt hnew.1]
        omega
      · rw [hwaiting]
        exact fun x hx => htold.waiting x (mem_of_mem_eraseIdx hx)
      · rw [hfailed]
        exact htold.failed
    next => cases hstep
  | put it idle =>
    rw [poolStep] at hstep
    split at hstep
    next hit =>
      cases hstep
      have hret := poolReturn_returned h.lists (h.held it hit) (h.missing_pos hit)
      have hmid := h.returned hit hret
      obtain ⟨hremoved, hcur⟩ := poolPutFree_removed hret.lists idle
      refine ⟨hmid.removed hremoved, ?_, fun htold hput => ⟨?_, htold.waiting, htold.failed⟩⟩
      · show (poolPutFree c (poolReturn c s.pp it) idle).nout = (s.held.erase it).length + s.waiting.length
        rw [hremoved.nout, hret.nout, length_erase_of_mem hit]
        have hpos := length_pos_of_mem hit
        omega
      · exact hcur (hret.curOk htold.cur hput)
    next => cases hstep
  | prime phs =>
    rw [poolStep] at hstep
    split at hstep
    next hnew =>
      cases hstep
      obtain ⟨hok, hcur, hout⟩ := poolPrime_ok phs h hnew.1 hnew.2
      exact ⟨hok, hout.trans hnout, fun htold _ => ⟨hcur htold.cur, htold.waiting, htold.failed⟩⟩
    next => cases hstep
  | reclaim =>
    cases hstep
    obtain ⟨hremoved, hcur⟩ := poolReclaimLoop_removed s.pp.emptypages h.lists h.lists.shelved.nodup_empty
      fun _ hph => hph
    exact ⟨h.removed hremoved, hremoved.nout.trans hnout,
      fun htold _ => ⟨hcur htold.cur, htold.waiting, htold.failed⟩⟩

/-! ## Runs -/

/-- Pages are on the lists for their missing items, no item is held twice, there is no current page
exactly when every page is full, and the pool was depleted for every call below the hard limit that
returned `NULL`. -/
structure PoolGood (c : PoolConf) (s : PoolSys) : Prop where
  listed : (s.pp.emptypages ++ s.pp.partpages ++ s.pp.fullpages).Nodup
  sorted : ∀ ph, s.pp.Has ph → OnPageList c s.pp ph (s.pp.page ph).nmissing
  missing : ∀ ph, s.pp.Has ph → (s.pp.page ph).nmissing = heldOn s.held ph
  nodup : s.held.Nodup
  cur : s.pp.curpage = none ↔ ∀ ph, s.pp.Has ph → (s.pp.page ph).nmissing = c.itemsperpage
  failed : ∀ looked ∈ s.failed, looked = true

theorem PoolOk.good (hipp : 0 < c.itemsperpage) (h : PoolOk c s) (htold : CurTold s) : PoolGood c s := by
  refine ⟨h.lists.shelved.nodup, fun ph hph => h.lists.sorted.onPageList hph, h.missing, h.nodup, ⟨?_, ?_⟩,
    htold.failed⟩
  · intro hnone ph hph
    exact h.lists.sorted.full ph (htold.cur hnone ph hph)
  · intro hfull
    by_contra hsome
    obtain ⟨ph, hph⟩ := Option.ne_none_iff_exists'.1 hsome
    rcases h.lists.cur ph hph with hempty | hpart
    · have hmissing := hfull ph (.inl hempty)
      rw [h.lists.sorted.empty ph hempty] at hmissing
      omega
    · have hmissing := hfull ph (.inr (.inl hpart))
      have hpartial := h.lists.sorted.part ph hpart
      omega

theorem poolStep_stranded (h : PoolOk c s) (htold : CurTold s) {s' : PoolSys} {it : PoolItem} {idle : Bool}
    (hstep : poolStep c s (.put it idle) = some s') (hput : Stranded c s.pp it) :
    s'.pp.curpage = none ∧ it.page ∈ s'.pp.partpages := by
  rw [poolStep] at hstep
  split at hstep
  next hit =>
    cases hstep
    have hret := poolReturn_returned h.lists (h.held it hit) (h.missing_pos hit)
    obtain ⟨hnone, hin, hempty⟩ := hret.stranded hput
    -- every page was full, so there is none to free
    have hnil : s.pp.emptypages = [] := by
      apply eq_nil_iff_forall_not_mem.2
      intro ph hph
      exact h.lists.shelved.not_full (.inl hph) (htold.cur hput.1 ph (.inl hph))
    have hfree : poolPutFree c (poolReturn c s.pp it) idle = poolReturn c s.pp it := by
      unfold poolPutFree
      rw [hempty, hnil]
    show (poolPutFree c (poolReturn c s.pp it) idle).curpage = none ∧
      it.page ∈ (poolPutFree c (poolReturn c s.pp it) idle).partpages
    rw [hfree]
    exact ⟨hnone, hin⟩
  next => cases hstep

theorem curTold_init : CurTold poolSysInit := by
  refine ⟨?_, ?_, ?_⟩
  · rintro - ph (h | h | h) <;> cases h
  all_goals
    intro looked h
    cases h

theorem poolStep_good_iff (hipp : 0 < c.itemsperpage) {s' : PoolSys} {e : PoolStep} (h : PoolOk c s)
    (hnout : NoutOk s) (htold : CurTold s) (hstep : poolStep c s e = some s') :
    PutOk c s e ↔ PoolGood c s' := by
  obtain ⟨hok, -, htold'⟩ := poolStep_ok hipp h hnout hstep
  constructor
  · intro hput
    exact hok.good hipp (htold' htold hput)
  · intro hgood
    cases e with
    | put it idle =>
      intro hstranded
      obtain ⟨hnone, hpart⟩ := poolStep_stranded h htold hstep hstranded
      have hfull := hgood.cur.1 hnone it.page (.inr (.inl hpart))
      have hpartial := hok.lists.sorted.part it.page hpart
      omega
    | _ => trivial

/-- A run in which no item is stranded keeps the pool in order: a call below the hard limit returns
`NULL` only if no page had a free item when it looked.  The first step that strands an item ends that. -/
theorem pool_run_good (c : PoolConf) (hipp : 0 < c.itemsperpage) {es : List PoolStep} {s : PoolSys}
    (hrun : Run (poolStep c) (PutOk c) poolSysInit es s) :
    PoolGood c s ∧ ∀ e s', poolStep c s e = some s' → (PutOk c s e ↔ PoolGood c s') := by
  have hstep : ∀ s e s', PoolOk c s ∧ NoutOk s ∧ CurTold s → PutOk c s e → poolStep c s e = some s' →
      PoolOk c s' ∧ NoutOk s' ∧ CurTold s' := by
    intro s e s' hinv hput hstep
    obtain ⟨hok, hnout, htold⟩ := poolStep_ok hipp hinv.1 hinv.2.1 hstep
    exact ⟨hok, hnout, htold hinv.2.2 hput⟩
  have hinv := hrun.invariant hstep ⟨poolOk_init c, rfl, curTold_init⟩
  refine ⟨hinv.1.good hipp hinv.2.2, fun e s' hnext => ?_⟩
  exact poolStep_good_iff hipp hinv.1 hinv.2.1 hinv.2.2 hnext

/-- Two items on a page, and memory for one page. -/
def poolTwo : PoolConf := ⟨2, 16, 0, 0, 4⟩

/-- A call that gets page 7, a second one that fills it, and `pool_prime` with page 8 before the first
item comes back. -/
theorem pool_run_good_primed :
    ∃ s, Run (poolStep poolTwo) (PutOk poolTwo) poolSysInit
      [.get, .newPage 0 7, .get, .prime [8], .put ⟨7, 0⟩ false, .get] s ∧ PoolGood poolTwo s := by
  have hrun : Run (poolStep poolTwo) (PutOk poolTwo) poolSysInit
      [.get, .newPage 0 7, .get, .prime [8], .put ⟨7, 0⟩ false, .get] _ :=
    .cons trivial rfl (.cons trivial rfl (.cons trivial rfl (.cons trivial rfl
      (.cons (fun h => nomatch h.1) rfl (.cons trivial rfl (.nil _))))))
  exact ⟨_, hrun, (pool_run_good poolTwo (by decide) hrun).1⟩

/-- Page 7 is the only one and full.  One of its items comes back, and the next call gets no page: it
returns `NULL`. -/
theorem pool_put_strands :
    ∃ s, Run (poolStep poolTwo) (fun _ _ => True) poolSysInit
      [.get, .newPage 0 7, .get, .put ⟨7, 0⟩ false, .get, .noPage 0] s ∧ s.pp.curpage = none ∧
      s.pp.partpages = [7] ∧ (s.pp.page 7).itemlist = [0] ∧ s.failed = [false] ∧ ¬ PoolGood poolTwo s := by
  have hrun : Run (poolStep poolTwo) (fun _ _ => True) poolSysInit
      [.get, .newPage 0 7, .get, .put ⟨7, 0⟩ false, .get, .noPage 0] _ :=
    .cons trivial rfl (.cons trivial rfl (.cons trivial rfl (.cons trivial rfl
      (.cons trivial rfl (.cons trivial rfl (.nil _))))))
  refine ⟨_, hrun, rfl, rfl, rfl, rfl, ?_⟩
  intro hgood
  exact absurd (hgood.failed false (mem_singleton_self false)) (by decide)

/-- Also in a run that strands items, no item is handed out while it is held, the free and the held
items of a page are all its items, `pr_nout` is exact and the current page has a free item. -/
theorem pool_run_exclusive (c : PoolConf) (hipp : 0 < c.itemsperpage) {es : List PoolStep}
    {s : PoolSys} (hrun : Run (poolStep c) (fun _ _ => True) poolSysInit es s) :
    s.held.Nodup ∧
    (∀ it ∈ s.held, s.pp.Has it.page ∧ it.slot ∉ (s.pp.page it.page).itemlist) ∧
    (∀ ph, s.pp.Has ph → (s.pp.page ph).itemlist.Nodup ∧
      (s.pp.page ph).itemlist.length + heldOn s.held ph = c.itemsperpage) ∧
    s.pp.nout = s.held.length + s.waiting.length ∧
    ∀ ph, s.pp.curpage = some ph → s.pp.Has ph ∧ (s.pp.page ph).itemlist ≠ [] := by
  obtain ⟨h, hnout⟩ := @Run.invariant _ _ _ _ (fun s => PoolOk c s ∧ NoutOk s)
    (fun _ _ _ hinv _ hstep => (poolStep_ok hipp hinv.1 hinv.2 hstep).imp_right And.left) _ _ _ hrun
    ⟨poolOk_init c, rfl⟩
  refine ⟨h.nodup, ?_, ?_, hnout, ?_⟩
  · exact fun it hit => ⟨h.held it hit, fun hfree => h.free it.page (h.held it hit) it.slot hfree hit⟩
  · exact fun ph hph => ⟨h.itemlist ph hph, h.missing ph hph ▸ h.total ph hph⟩
  · intro ph hcur
    have hph : s.pp.Has ph := (h.lists.cur ph hcur).imp_right .inl
    refine ⟨hph, fun hnil => ?_⟩
    have hfull := (h.nmissing_full hph).2 hnil
    rcases h.lists.cur ph hcur with hempty | hpart
    · have hnone := h.lists.sorted.empty ph hempty
      omega
    · have hpartial := h.lists.sorted.part ph hpart
      omega

/-- A page is full when one of its items comes back. -/
theorem pool_run_exclusive_stranded : ∃ s, Run (poolStep poolTwo) (fun _ _ => True) poolSysInit
    [.get, .newPage 0 7, .get, .put ⟨7, 0⟩ false] s ∧ s.held.Nodup := by
  have hrun : Run (poolStep poolTwo) (fun _ _ => True) poolSysInit
      [.get, .newPage 0 7, .get, .put ⟨7, 0⟩ false] _ :=
    .cons trivial rfl (.cons trivial rfl (.cons trivial rfl (.cons trivial rfl (.nil _))))
  exact ⟨_, hrun, (pool_run_exclusive poolTwo (by decide) hrun).1⟩

end OpenBsd.Kern
