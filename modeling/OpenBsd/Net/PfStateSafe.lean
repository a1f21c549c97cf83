/-
  OpenBsd.Net.PfStateSafe

  `pf_state_key_attach` and `pf_state_insert` keep the invariant of the state table, on
  every path to an error as well.
-/

import OpenBsd.Net.PfStateInv

namespace OpenBsd.Net

open List Option

variable {s k : Nat} {t t' t'' : PfStateTable} {x : Option Nat} {st v : PfState}
  {cmp : PfStateKeyCmp}

/-! ## The states besides the one that is inserted -/

/-- Some states that are done are marked closed. -/
structure Closes (s : Nat) (t t' : PfStateTable) : Prop where
  states : ∀ s', t'.states s' = t.states s' ∨ ∃ old, t.states s' = some old ∧ old.done ∧ s' ≠ s ∧
    t'.states s' = some { old with srcState := 0, dstState := 0 }
  keys : t'.keys = t.keys
  statetbl : t'.statetbl = t.statetbl
  treeId : t'.treeId = t.treeId

theorem not_done_closed (old : PfState) :
    ¬({ old with srcState := 0, dstState := 0 } : PfState).done := by
  simp [PfState.done, tcpsFinWait2]

theorem Closes.refl (s : Nat) (t : PfStateTable) : Closes s t t :=
  ⟨fun _ => .inl rfl, rfl, rfl, rfl⟩

theorem Closes.trans (h : Closes s t t') (h' : Closes s t' t'') : Closes s t t'' := by
  refine ⟨fun x => ?_, h'.keys.trans h.keys, h'.statetbl.trans h.statetbl, h'.treeId.trans h.treeId⟩
  rcases h.states x with hx | ⟨old, hold, hdone, hne, hx⟩
  · rcases h'.states x with hx' | ⟨old, hold, hdone, hne, hx'⟩
    · exact .inl (hx'.trans hx)
    · exact .inr ⟨old, hx.symm.trans hold, hdone, hne, hx'⟩
  · rcases h'.states x with hx' | ⟨old', hold', hdone', -, -⟩
    · exact .inr ⟨old, hold, hdone, hne, hx'.trans hx⟩
    · -- a closed state is not closed again
      rw [hx] at hold'
      cases hold'
      exact absurd hdone' (not_done_closed old)

theorem Closes.setState {x : Nat} {old : PfState} (hx : t.states x = some old) (hdone : old.done)
    (hne : x ≠ s) : Closes s t (t.setState x (some { old with srcState := 0, dstState := 0 })) := by
  refine ⟨fun y => ?_, rfl, rfl, rfl⟩
  by_cases hy : y = x
  · subst hy
    exact .inr ⟨old, hx, hdone, hne, PfStateTable.setState_self_states _⟩
  · exact .inl (PfStateTable.setState_states_of_ne hy _)

theorem Closes.self (h : Closes s t t') : t'.states s = t.states s := by
  rcases h.states s with hs | ⟨_, _, _, hne, _⟩
  · exact hs
  · exact absurd rfl hne

theorem Closes.state {x : Nat} (h : Closes s t t') (hx : t.states x = some st) :
    ∃ st', t'.states x = some st' ∧ st'.wire = st.wire ∧ st'.stack = st.stack ∧ st'.id = st.id ∧
      st'.creatorid = st.creatorid := by
  rcases h.states x with hx' | ⟨old, hold, -, -, hx'⟩
  · exact ⟨st, hx'.trans hx, rfl, rfl, rfl, rfl⟩
  · have heq : old = st := Option.some.inj (hold.symm.trans hx)
    subst heq
    exact ⟨_, hx', rfl, rfl, rfl, rfl⟩

theorem Closes.state_of {x : Nat} {st' : PfState} (h : Closes s t t')
    (hx' : t'.states x = some st') :
    ∃ st, t.states x = some st ∧ st'.wire = st.wire ∧ st'.stack = st.stack ∧ st'.id = st.id ∧
      st'.creatorid = st.creatorid := by
  have hsome : t.states x ≠ none := by
    rcases h.states x with hx | ⟨old, hold, -, -, -⟩
    · rw [← hx, hx']
      simp
    · rw [hold]
      simp
  obtain ⟨st, hst⟩ := ne_none_iff_exists'.1 hsome
  obtain ⟨st₁, hst₁, heqs⟩ := h.state hst
  have heq : st₁ = st' := Option.some.inj (hst₁.symm.trans hx')
  subst heq
  exact ⟨st, hst, heqs⟩

theorem KeysOk.closes (h : KeysOk t) (hcl : Closes s t t') : KeysOk t' := by
  refine h.congr hcl.statetbl (fun k _ => by rw [hcl.keys]) fun x k => ?_
  constructor
  · rintro ⟨st, hst, href⟩
    obtain ⟨st₀, hst₀, hwire, hstack, -, -⟩ := hcl.state_of hst
    rw [PfState.refs, hwire, hstack] at href
    exact ⟨st₀, hst₀, href⟩
  · rintro ⟨st, hst, href⟩
    obtain ⟨st₁, hst₁, hwire, hstack, -, -⟩ := hcl.state hst
    rw [PfState.refs, ← hwire, ← hstack] at href
    exact ⟨st₁, hst₁, href⟩

theorem StatesOk.closes (h : StatesOk x t) (hcl : Closes s t t') : StatesOk x t' where
  both := by
    intro y st hne hst
    obtain ⟨st₀, hst₀, hwire, hstack, -, -⟩ := hcl.state_of hst
    rw [hwire, hstack, hcl.treeId]
    exact h.both y st₀ hne hst₀
  ids_nodup := hcl.treeId ▸ h.ids_nodup
  ids_states := by
    intro y hy hnone
    rw [hcl.treeId] at hy
    obtain ⟨st, hst⟩ := ne_none_iff_exists'.1 (h.ids_states y hy)
    obtain ⟨st₁, hst₁, -⟩ := hcl.state hst
    rw [hnone] at hst₁
    cases hst₁
  ids_distinct := by
    intro y hy y' hy' st st' hst hst' hid hcid
    rw [hcl.treeId] at hy hy'
    obtain ⟨st₀, hst₀, -, -, hid₀, hcid₀⟩ := hcl.state_of hst
    obtain ⟨st₀', hst₀', -, -, hid₀', hcid₀'⟩ := hcl.state_of hst'
    refine h.ids_distinct y hy y' hy' st₀ st₀' hst₀ hst₀' ?_ ?_
    · rw [← hid₀, ← hid₀', hid]
    · rw [← hcid₀, ← hcid₀', hcid]

/-- One state changes, and keeps its id if it has one. -/
theorem StatesOk.onlyState (h : StatesOk x t) (honly : OnlyState s v t t')
    (hid : s ∈ t.treeId → ∃ st, t.states s = some st ∧ v.id = st.id ∧ v.creatorid = st.creatorid)
    (hboth : some s = x ∨ (v.wire = none ↔ v.stack = none) ∧ (v.wire ≠ none → s ∈ t.treeId)) :
    StatesOk x t' where
  both := by
    intro y st hne hst
    rw [honly.treeId]
    by_cases hy : y = s
    · subst hy
      have heq : v = st := Option.some.inj (honly.self.symm.trans hst)
      subst heq
      exact hboth.resolve_left hne
    · rw [honly.others y hy] at hst
      exact h.both y st hne hst
  ids_nodup := honly.treeId ▸ h.ids_nodup
  ids_states := by
    intro y hy
    rw [honly.treeId] at hy
    by_cases hys : y = s
    · rw [hys, honly.self]
      simp
    · rw [honly.others y hys]
      exact h.ids_states y hy
  ids_distinct := by
    intro y hy y' hy' st st' hst hst' heq hceq
    rw [honly.treeId] at hy hy'
    -- every state of the tree had its id before
    have hbefore : ∀ z ∈ t.treeId, ∀ w, t'.states z = some w →
        ∃ w₀, t.states z = some w₀ ∧ w.id = w₀.id ∧ w.creatorid = w₀.creatorid := by
      intro z hz w hw
      by_cases hzs : z = s
      · subst hzs
        have hvw : v = w := Option.some.inj (honly.self.symm.trans hw)
        subst hvw
        exact hid hz
      · rw [honly.others z hzs] at hw
        exact ⟨w, hw, rfl, rfl⟩
    obtain ⟨w, hw, hwid, hwcid⟩ := hbefore y hy st hst
    obtain ⟨w', hw', hwid', hwcid'⟩ := hbefore y' hy' st' hst'
    refine h.ids_distinct y hy y' hy' w w' hw hw' ?_ ?_
    · rw [← hwid, ← hwid', heq]
    · rw [← hwcid, ← hwcid', hceq]

theorem StatesOk.congr (h : StatesOk x t) (hstates : ∀ y, t'.states y = t.states y)
    (htree : t'.treeId = t.treeId) : StatesOk x t' := by
  have heq : t'.states = t.states := funext hstates
  refine ⟨?_, htree ▸ h.ids_nodup, ?_, ?_⟩
  · rw [heq, htree]
    exact h.both
  · rw [heq, htree]
    exact h.ids_states
  · rw [heq, htree]
    exact h.ids_distinct

theorem StatesOk.erase (h : StatesOk x t) (hst : t.states s = some st)
    (hnone : st.wire = none ∧ st.stack = none) :
    StatesOk x { t with treeId := t.treeId.erase s } where
  both := by
    intro y st' hne hst'
    obtain ⟨hiff, hmem⟩ := h.both y st' hne hst'
    refine ⟨hiff, fun hw => ?_⟩
    rw [h.ids_nodup.mem_erase_iff]
    refine ⟨?_, hmem hw⟩
    rintro rfl
    have heq : st = st' := Option.some.inj (hst.symm.trans hst')
    subst heq
    exact hw hnone.1
  ids_nodup := h.ids_nodup.erase s
  ids_states := fun y hy => h.ids_states y (mem_of_mem_erase hy)
  ids_distinct := fun y hy y' hy' =>
    h.ids_distinct y (mem_of_mem_erase hy) y' (mem_of_mem_erase hy')

/-- The states that are not done, but for `s`, stay as they are. -/
structure KeptStates (s : Nat) (t t' : PfStateTable) : Prop where
  state : ∀ x st, x ≠ s → t.states x = some st → ¬st.done → t'.states x = some st
  ids : ∀ x st, x ≠ s → t.states x = some st → ¬st.done → x ∈ t.treeId → x ∈ t'.treeId
  cmps : ∀ x st k, x ≠ s → t.states x = some st → ¬st.done → st.refs k →
    (t'.keys k).map PfStateKey.cmp = (t.keys k).map PfStateKey.cmp
  treeId : ∀ x ∈ t'.treeId, x ∈ t.treeId

theorem KeptStates.refl (s : Nat) (t : PfStateTable) : KeptStates s t t :=
  ⟨fun _ _ _ h _ => h, fun _ _ _ _ _ h => h, fun _ _ _ _ _ _ _ => rfl, fun _ h => h⟩

theorem KeptStates.trans (h : KeptStates s t t') (h' : KeptStates s t' t'') :
    KeptStates s t t'' where
  state := fun x st hne hst hnd => h'.state x st hne (h.state x st hne hst hnd) hnd
  ids := fun x st hne hst hnd hx =>
    h'.ids x st hne (h.state x st hne hst hnd) hnd (h.ids x st hne hst hnd hx)
  cmps := fun x st k hne hst hnd href =>
    (h'.cmps x st k hne (h.state x st hne hst hnd) hnd href).trans
      (h.cmps x st k hne hst hnd href)
  treeId := fun x hx => h.treeId x (h'.treeId x hx)

theorem Closes.kept (h : Closes s t t') : KeptStates s t t' where
  state := by
    intro x st _ hst hnd
    rcases h.states x with hx | ⟨old, hold, hdone, -, -⟩
    · exact hx.trans hst
    · have heq : old = st := Option.some.inj (hold.symm.trans hst)
      exact absurd (heq ▸ hdone) hnd
  ids := fun _ _ _ _ _ hx => h.treeId ▸ hx
  cmps := fun _ _ _ _ _ _ _ => by rw [h.keys]
  treeId := fun _ hx => h.treeId ▸ hx

theorem OnlyState.kept (h : OnlyState s v t t') :
    KeptStates s t t' where
  state := fun x _ hne hst _ => (h.others x hne).trans hst
  ids := fun _ _ _ _ _ hx => h.treeId ▸ hx
  cmps := fun x st k hne hst _ href => h.cmps x st k hne hst href
  treeId := fun _ hx => h.treeId ▸ hx

/-! ## Attaching -/

/-- The keys of a state can be read. -/
def Readable (t : PfStateTable) (st : PfState) : Prop :=
  (∃ a, t.keyAf st.wire = some a) ∧ ∃ a, t.keyAf st.stack = some a

theorem sameFlow_readable {old : PfState} (h : Readable t old) (sk : PfStateKeyCmp) (st : PfState) :
    ∃ b, sameFlow t sk st old = some b := by
  obtain ⟨⟨waf, hwaf⟩, saf, hsaf⟩ := h
  simp only [sameFlow, hwaf, hsaf]
  split
  · exact ⟨_, rfl⟩
  · split
    · exact ⟨_, rfl⟩
    · exact ⟨_, rfl⟩

/-- The scan of the items ends, closes states that are done only, and is a collision if the
    state itself is among them. -/
theorem attachScan_spec (sk : PfStateKeyCmp) :
    ∀ (items : List Nat) (t : PfStateTable) (olds : Option Nat), t.states s = some st →
      (∀ x ∈ items, x ≠ s → ∃ old, t.states x = some old ∧ Readable t old) →
      (s ∈ items → t.keyAf st.wire = some sk.af ∧ ¬(sk.proto = ipprotoTcp ∧ st.done)) →
      ∃ t' r, attachScan sk s items t olds = some (t', r) ∧ Closes s t t' ∧
        ∀ o, r = some o → s ∉ items ∧
          (o = olds ∨ ∃ n old, o = some n ∧ n ∈ items ∧ t.states n = some old ∧ old.done) := by
  intro items
  induction items with
  | nil => exact fun t olds _ _ _ => ⟨t, some olds, rfl, Closes.refl s t, fun o ho => by simp_all⟩
  | cons x items ih =>
    intro t olds hst hread hself
    by_cases hx : x = s
    · -- the state meets itself
      subst hx
      obtain ⟨haf, hno⟩ := hself (mem_cons_self ..)
      have hflow : sameFlow t sk st st = some true := by simp [sameFlow, haf]
      refine ⟨t, none, ?_, Closes.refl x t, by simp⟩
      simp only [attachScan, hst, hflow, if_neg hno]
    · obtain ⟨old, hold, hreads⟩ := hread x (mem_cons_self ..) hx
      have hsx : s ≠ x := fun h => hx h.symm
      have hrest : ∀ t₁ olds₁, Closes s t t₁ →
          (∀ o, o = olds₁ → o = olds ∨ ∃ n old, o = some n ∧ n ∈ x :: items ∧
            t.states n = some old ∧ old.done) →
          ∃ t' r, attachScan sk s items t₁ olds₁ = some (t', r) ∧ Closes s t t' ∧
            ∀ o, r = some o → s ∉ x :: items ∧
              (o = olds ∨ ∃ n old, o = some n ∧ n ∈ x :: items ∧ t.states n = some old ∧
                old.done) := by
        intro t₁ olds₁ hcl holds
        have hst₁ : t₁.states s = some st := hcl.self.trans hst
        have haf : t₁.keyAf = t.keyAf := by
          funext k
          cases k <;> simp only [PfStateTable.keyAf, hcl.keys]
        obtain ⟨t', r, hscan, hcl', hres⟩ := ih t₁ olds₁ hst₁ (fun y hy hys => by
            obtain ⟨oldy, holdy, hready⟩ := hread y (mem_cons_of_mem x hy) hys
            obtain ⟨old₁, hold₁, hwire, hstack, -⟩ := hcl.state holdy
            refine ⟨old₁, hold₁, ?_⟩
            rw [Readable, haf, hwire, hstack]
            exact hready)
          (fun hs => by
            rw [haf]
            exact hself (mem_cons_of_mem x hs))
        refine ⟨t', r, hscan, hcl.trans hcl', fun o ho => ?_⟩
        obtain ⟨hnot, ho'⟩ := hres o ho
        refine ⟨fun hmem => (mem_cons.1 hmem).elim hsx hnot, ?_⟩
        rcases ho' with ho' | ⟨n, oldn, hon, hn, holdn, hdone⟩
        · exact holds o ho'
        · -- it was not closed before, so it is as it was
          refine .inr ⟨n, oldn, hon, mem_cons_of_mem x hn, ?_, hdone⟩
          rcases hcl.states n with hn' | ⟨oldn', hn', -, -, hclosed⟩
          · exact hn'.symm.trans holdn
          · rw [hclosed] at holdn
            cases holdn
            exact absurd hdone (not_done_closed oldn')
      obtain ⟨b, hflow⟩ := sameFlow_readable hreads sk st
      cases b with
      | false =>
        obtain ⟨t', r, hscan, hres⟩ := hrest t olds (Closes.refl s t) fun o ho => .inl ho
        refine ⟨t', r, ?_, hres⟩
        simp only [attachScan, hst, hold, hflow]
        exact hscan
      | true =>
        by_cases hdone : sk.proto = ipprotoTcp ∧ old.done
        · obtain ⟨t', r, hscan, hres⟩ := hrest _ (some x) (Closes.setState hold hdone.2 hx)
            fun o ho => .inr ⟨x, old, ho, mem_cons_self .., hold, hdone.2⟩
          refine ⟨t', r, ?_, hres⟩
          simp only [attachScan, hst, hold, hflow, if_pos hdone]
          exact hscan
        · refine ⟨t, none, ?_, Closes.refl s t, by simp⟩
          simp only [attachScan, hst, hold, hflow, if_neg hdone]

/-- A state gets an item on a key that it does not have: on one of the table, or on a new
    one that compares equal to none. -/
theorem KeysOk.addItem (h : KeysOk t) {key : PfStateKey} {tbl l : List Nat}
    (hst : t.states s = some st) (hkey : t.keys k = some key)
    (htbl : (k ∈ t.statetbl ∧ tbl = t.statetbl) ∨ (k ∉ t.statetbl ∧ tbl = k :: t.statetbl ∧ key.states = [] ∧ ∀ k' ∈ t.statetbl, ∀ a, t.keys k' = some a → sameKey a.cmp key.cmp = false))
    (hl : l.Nodup) (hmem : ∀ x, x ∈ l ↔ x = s ∨ x ∈ key.states)
    (hv : ∀ k', v.refs k' ↔ st.refs k' ∨ k' = k) :
    KeysOk (({ t with statetbl := tbl }.setState s (some v)).setKeyMem k
      (some { key with states := l })) := by
  have hin : ∀ k', k' ∈ tbl ↔ k' ∈ t.statetbl ∨ k' = k := by
    intro k'
    rcases htbl with ⟨hk, rfl⟩ | ⟨-, rfl, -⟩
    · constructor
      · exact .inl
      · rintro (hk' | rfl)
        · exact hk'
        · exact hk
    · rw [mem_cons, or_comm]
  -- the items of the key are the states that have it
  have hrefs : ∀ x, x ∈ key.states ↔ ∃ st, t.states x = some st ∧ st.refs k := by
    intro x
    rcases htbl with ⟨hk, -⟩ | ⟨hk, -, hnil, -⟩
    · obtain ⟨key', hkey', -, -, hmem'⟩ := h.items k hk
      have heq : key = key' := Option.some.inj (hkey.symm.trans hkey')
      rw [heq]
      exact hmem' x
    · rw [hnil]
      refine ⟨fun hx => absurd hx not_mem_nil, ?_⟩
      rintro ⟨st', hst', href'⟩
      exact absurd (h.refs x st' k hst' href') hk
  have hcmps : ∀ k' a, (if k' = k then some { key with states := l } else t.keys k') = some a →
      ∃ b, t.keys k' = some b ∧ b.cmp = a.cmp := by
    intro k' a ha
    split at ha
    case isTrue heq =>
      cases ha
      exact ⟨key, heq ▸ hkey, rfl⟩
    case isFalse => exact ⟨a, ha, rfl⟩
  refine ⟨?_, ?_, ?_, ?_⟩
  · rcases htbl with ⟨-, rfl⟩ | ⟨hk, rfl, -⟩
    · exact h.nodup
    · exact nodup_cons.2 ⟨hk, h.nodup⟩
  · intro k₁ hk₁ k₂ hk₂ a b ha hb hsame
    obtain ⟨a', ha', hacmp⟩ := hcmps k₁ a ha
    obtain ⟨b', hb', hbcmp⟩ := hcmps k₂ b hb
    rw [← hacmp, ← hbcmp] at hsame
    rcases htbl with ⟨-, rfl⟩ | ⟨hk, rfl, -, hnew⟩
    · exact h.distinct k₁ hk₁ k₂ hk₂ a' b' ha' hb' hsame
    · rcases mem_cons.1 hk₁ with rfl | hm₁ <;> rcases mem_cons.1 hk₂ with rfl | hm₂
      · rfl
      · have heq : a' = key := Option.some.inj (ha'.symm.trans hkey)
        rw [heq] at hsame
        exact absurd (sameKey_symm hsame) (by rw [hnew k₂ hm₂ b' hb']; simp)
      · have heq : b' = key := Option.some.inj (hb'.symm.trans hkey)
        rw [heq] at hsame
        exact absurd hsame (by rw [hnew k₁ hm₁ a' ha']; simp)
      · exact h.distinct k₁ hm₁ k₂ hm₂ a' b' ha' hb' hsame
  · intro k' hk'
    by_cases hkk : k' = k
    · subst hkk
      refine ⟨_, PfStateTable.setKeyMem_self_keys _, ?_, hl, fun x => ?_⟩
      · exact ne_nil_of_mem ((hmem s).2 (.inl rfl))
      · rw [hmem x, hrefs x]
        by_cases hx : x = s
        · subst hx
          simp [hv]
        · rw [PfStateTable.setKeyMem_states, PfStateTable.setState_states_of_ne hx]
          simp [hx]
    · have hk₀ : k' ∈ t.statetbl := ((hin k').1 hk').resolve_right hkk
      obtain ⟨key', hkey', hne', hnodup', hmem'⟩ := h.items k' hk₀
      refine ⟨key', ?_, hne', hnodup', fun x => ?_⟩
      · rw [PfStateTable.setKeyMem_keys_of_ne hkk]
        exact hkey'
      · rw [hmem' x, PfStateTable.setKeyMem_states]
        by_cases hx : x = s
        · subst hx
          simp [hst, hv, hkk]
        · rw [PfStateTable.setState_states_of_ne hx]
  · intro x st' k' hst' href'
    rw [PfStateTable.setKeyMem_states] at hst'
    refine (hin k').2 ?_
    by_cases hx : x = s
    · subst hx
      rw [PfStateTable.setState_self_states] at hst'
      cases hst'
      exact ((hv k').1 href').imp (h.refs x st k' hst) id
    · rw [PfStateTable.setState_states_of_ne hx] at hst'
      exact .inl (h.refs x st' k' hst' href')

theorem pfUnlinkState_spec {o : Nat} (h : KeysOk t) (hs : StatesOk x t) (hst : t.states o = some st)
    (ho : o ∈ t.treeId) :
    ∃ t', pfUnlinkState t o = some t' ∧ KeysOk t' ∧ StatesOk x t' ∧
      OnlyState o st.detached { t with treeId := t.treeId.erase o } t' := by
  have hok : KeysOk { t with treeId := t.treeId.erase o } :=
    h.congr rfl (fun _ _ => rfl) fun _ _ => Iff.rfl
  obtain ⟨t', hdet, hok', honly⟩ := pfDetachState_spec hok hst
  refine ⟨t', ?_, hok', ?_, honly⟩
  · rw [pfUnlinkState, rbRemove, if_pos ho]
    exact hdet
  · -- without its keys in the old table, and then out of the tree
    have hnone := hs.onlyState (OnlyState.setState o st.detached)
      (fun _ => ⟨st, hst, rfl, rfl⟩) (.inr ⟨Iff.rfl, fun hw => absurd rfl hw⟩)
    have herase := hnone.erase (PfStateTable.setState_self_states _) ⟨rfl, rfl⟩
    refine herase.congr (fun y => ?_) honly.treeId
    by_cases hyo : y = o
    · subst hyo
      exact honly.self.trans (PfStateTable.setState_self_states _).symm
    · exact (honly.others y hyo).trans (PfStateTable.setState_states_of_ne hyo _).symm

/-- The states besides `s` and an old one stay as they are. -/
structure KeptBut (s : Nat) (olds : Option Nat) (t t' : PfStateTable) : Prop where
  state : ∀ x, x ≠ s → olds ≠ some x → t'.states x = t.states x
  ids : ∀ x, x ≠ s → olds ≠ some x → x ∈ t.treeId → x ∈ t'.treeId
  cmps : ∀ x st k, x ≠ s → olds ≠ some x → t.states x = some st → st.refs k →
    (t'.keys k).map PfStateKey.cmp = (t.keys k).map PfStateKey.cmp
  treeId : ∀ x ∈ t'.treeId, x ∈ t.treeId

variable {olds : Option Nat}

theorem KeptStates.but (h : KeptStates s t t') (h' : KeptBut s olds t' t'')
    (hdone : ∀ o, olds = some o → ∃ st, t.states o = some st ∧ st.done) : KeptStates s t t'' := by
  have hold : ∀ x st, t.states x = some st → ¬st.done → olds ≠ some x := by
    intro x st hst hnd heq
    obtain ⟨st', hst', hd⟩ := hdone x heq
    have hsame : st' = st := Option.some.inj (hst'.symm.trans hst)
    exact hnd (hsame ▸ hd)
  refine ⟨?_, ?_, ?_, fun x hx => h.treeId x (h'.treeId x hx)⟩
  · intro x st hne hst hnd
    exact (h'.state x hne (hold x st hst hnd)).trans (h.state x st hne hst hnd)
  · intro x st hne hst hnd hx
    exact h'.ids x hne (hold x st hst hnd) (h.ids x st hne hst hnd hx)
  · intro x st k hne hst hnd href
    exact (h'.cmps x st k hne (hold x st hst hnd) (h.state x st hne hst hnd) href).trans
      (h.cmps x st k hne hst hnd href)

theorem unlinkOld_spec (h : KeysOk t) (hs : StatesOk (some s) t)
    (hst : t.states s = some st) (holds : ∀ o, olds = some o → o ≠ s ∧ o ∈ t.treeId) :
    ∃ t', unlinkOld t olds = some t' ∧ KeysOk t' ∧ StatesOk (some s) t' ∧ KeptBut s olds t t' ∧
      t'.states s = some st ∧
      (∀ k, k ∉ t.statetbl → t'.keys k = t.keys k ∧ k ∉ t'.statetbl) ∧
      ∀ k, st.refs k → (t'.keys k).map PfStateKey.cmp = (t.keys k).map PfStateKey.cmp := by
  cases olds with
  | none =>
    exact ⟨t, rfl, h, hs, ⟨fun _ _ _ => rfl, fun _ _ _ h => h, fun _ _ _ _ _ _ _ => rfl,
      fun _ h => h⟩, hst, fun _ hk => ⟨rfl, hk⟩, fun _ _ => rfl⟩
  | some o =>
    obtain ⟨hne, ho⟩ := holds o rfl
    obtain ⟨sto, hsto⟩ := ne_none_iff_exists'.1 (hs.ids_states o ho)
    obtain ⟨t', hun, hok, hs', honly⟩ := pfUnlinkState_spec h hs hsto ho
    refine ⟨t', hun, hok, hs', ⟨?_, ?_, ?_, ?_⟩, (honly.others s (Ne.symm hne)).trans hst, ?_, ?_⟩
    · exact fun x _ hx => honly.others x fun heq => hx (heq ▸ rfl)
    · intro x _ hx hmem
      rw [honly.treeId]
      exact hs.ids_nodup.mem_erase_iff.2 ⟨fun heq => hx (heq ▸ rfl), hmem⟩
    · exact fun x stx k _ hx hstx href => honly.cmps x stx k (fun heq => hx (heq ▸ rfl)) hstx href
    · intro x hx
      rw [honly.treeId] at hx
      exact mem_of_mem_erase hx
    · exact fun k hk => ⟨honly.free k hk, fun hk' => hk (honly.statetbl k hk')⟩
    · exact fun k href => honly.cmps s st k (Ne.symm hne) hst href

/-- What is left of `pf_state_key_attach` from the item on. -/
theorem attachItem_spec {idx : PfSk} {key : PfStateKey} {tbl : List Nat} (olds : Option Nat)
    (item : Bool) (h : KeysOk t) (hs : StatesOk (some s) t) (hst : t.states s = some st)
    (hid : s ∉ t.treeId) (hidx : st.key idx = none) (hkey : t.keys k = some key)
    (htbl : (k ∈ t.statetbl ∧ tbl = t.statetbl) ∨ (k ∉ t.statetbl ∧ tbl = k :: t.statetbl ∧ key.states = [] ∧ ∀ k' ∈ t.statetbl, ∀ a, t.keys k' = some a → sameKey a.cmp key.cmp = false))
    (hnot : s ∉ key.states) (holds : ∀ o, olds = some o → o ≠ s ∧ o ∈ t.treeId) :
    ∃ t' ok, attachItem { t with statetbl := tbl } s idx k olds item = some (t', ok) ∧
      KeysOk t' ∧ StatesOk (some s) t' ∧ KeptBut s olds t t' ∧
      (∀ k', k' ∉ t.statetbl → k' ≠ k → t'.keys k' = t.keys k' ∧ k' ∉ t'.statetbl) ∧
      (∀ k', st.refs k' → (t'.keys k').map PfStateKey.cmp = (t.keys k').map PfStateKey.cmp) ∧
      (ok = false → t'.states s = some st) ∧
      (ok = true → t'.states s = some (st.setKey idx (some k)) ∧
        (t'.keys k).map PfStateKey.cmp = some key.cmp) := by
  have hnref : ¬st.refs k := by
    intro href
    obtain ⟨key', hkey', hmem⟩ := h.key_of_refs hst href
    have heq : key = key' := Option.some.inj (hkey.symm.trans hkey')
    exact hnot (heq ▸ hmem)
  have hback : (st.setKey idx (some k)).setKey idx none = st := by
    rw [show (st.setKey idx (some k)).setKey idx none = st.setKey idx none by cases idx <;> rfl]
    exact PfState.setKey_eq_self hidx
  have hget : (st.setKey idx (some k)).key idx = some k := by cases idx <;> rfl
  have hv : ∀ k', (st.setKey idx (some k)).refs k' ↔ st.refs k' ∨ k' = k := by
    intro k'
    rw [PfState.refs_iff _ idx, PfState.refs_iff st idx, hget, hidx]
    have hother : (st.setKey idx (some k)).key idx.other = st.key idx.other := by cases idx <;> rfl
    rw [hother]
    simp only [Option.some.injEq, reduceCtorEq, false_or]
    rw [or_comm, eq_comm (a := k)]
  cases item with
  | false =>
    rcases htbl with ⟨hk, rfl⟩ | ⟨hk, rfl, hnil, -⟩
    · -- the key stays as it was
      refine ⟨t, false, ?_, h, hs, ⟨fun _ _ _ => rfl, fun _ _ _ h => h, fun _ _ _ _ _ _ _ => rfl,
        fun _ h => h⟩, fun k' hk' _ => ⟨rfl, hk'⟩, fun _ _ => rfl, fun _ => hst,
        fun htrue => absurd htrue (by decide)⟩
      have hne : key.states ≠ [] := by
        obtain ⟨key', hkey', hne', -⟩ := h.items k hk
        have heq : key = key' := Option.some.inj (hkey.symm.trans hkey')
        exact heq ▸ hne'
      simp only [attachItem, hst, pfStateKeyDetach, PfStateTable.setState_self_states, hget,
        PfStateTable.setState_keys, hkey, erase_of_not_mem hnot, if_neg hne, hback,
        map_some, Bool.false_eq_true, if_false]
      have hmem : (t.setState s (some (st.setKey idx (some k)))).setKeyMem k (some key) =
          t.setState s (some (st.setKey idx (some k))) := PfStateTable.setKeyMem_eq_self hkey
      rw [hmem, PfStateTable.setState_setState, PfStateTable.setState_eq_self hst]
    · -- the new key goes again
      refine ⟨t.setKeyMem k none, false, ?_, h.setKeyMem hk none, hs.congr (fun _ => rfl) rfl,
        ⟨fun _ _ _ => rfl, fun _ _ _ h => h, fun x st' k' _ _ hst' href' => ?_, fun _ h => h⟩,
        fun k' hk' hne => ⟨PfStateTable.setKeyMem_keys_of_ne hne none, hk'⟩, fun k' href' => ?_,
        fun _ => hst, fun htrue => absurd htrue (by decide)⟩
      · simp only [attachItem, hst, pfStateKeyDetach, PfStateTable.setState_self_states, hget,
          PfStateTable.setState_keys, hkey, hnil, hback, map_some, Bool.false_eq_true, if_false]
        have herase : rbRemove (k :: t.statetbl) k = t.statetbl := by simp [rbRemove]
        have hself := (PfStateTable.setState_setState (t := t.setKeyMem k none) (s := s)
          (some (st.setKey idx (some k))) (some st)).trans (PfStateTable.setState_eq_self hst)
        simp only [PfStateTable.setState_statetbl, herase]
        exact congrArg (fun t => some (t, false)) hself
      · rw [PfStateTable.setKeyMem_keys_of_ne]
        rintro rfl
        exact hk (h.refs x st' k' hst' href')
      · rw [PfStateTable.setKeyMem_keys_of_ne]
        rintro rfl
        exact hnref href'
  | true =>
    -- the new list of items
    obtain ⟨l, hl, hlmem, hleq⟩ : ∃ l : List Nat, l.Nodup ∧ (∀ x, x ∈ l ↔ x = s ∨ x ∈ key.states) ∧
        l = if st.kif = pfiAll then key.states ++ [s] else s :: key.states := by
      have hnodup : key.states.Nodup := by
        rcases htbl with ⟨hk, -⟩ | ⟨-, -, hnil, -⟩
        · obtain ⟨key', hkey', -, hnodup', -⟩ := h.items k hk
          have heq : key = key' := Option.some.inj (hkey.symm.trans hkey')
          exact heq ▸ hnodup'
        · rw [hnil]
          exact nodup_nil
      refine ⟨_, ?_, fun x => ?_, rfl⟩
      · split
        · exact nodup_append_comm.1 (nodup_cons.2 ⟨hnot, hnodup⟩)
        · exact nodup_cons.2 ⟨hnot, hnodup⟩
      · split <;> simp [or_comm]
    have hok := h.addItem hst hkey htbl hl hlmem hv
    have hin : ∀ k', k' ∈ tbl → k' ∈ t.statetbl ∨ k' = k := by
      rcases htbl with ⟨-, rfl⟩ | ⟨-, rfl, -⟩
      · exact fun _ h => .inl h
      · exact fun _ h => (mem_cons.1 h).symm
    have hcmp : ∀ k', ((({ t with statetbl := tbl }.setState s
        (some (st.setKey idx (some k)))).setKeyMem k (some { key with states := l })).keys k').map
          PfStateKey.cmp = (t.keys k').map PfStateKey.cmp := by
      intro k'
      by_cases hkk : k' = k
      · subst hkk
        rw [PfStateTable.setKeyMem_self_keys, hkey]
        rfl
      · rw [PfStateTable.setKeyMem_keys_of_ne hkk]
        rfl
    have hstates : StatesOk (some s) (({ t with statetbl := tbl }.setState s
        (some (st.setKey idx (some k)))).setKeyMem k (some { key with states := l })) :=
      (hs.onlyState (OnlyState.setState s (st.setKey idx (some k))) (fun hmem => absurd hmem hid)
        (.inl rfl)).congr (fun _ => rfl) rfl
    have hself : (({ t with statetbl := tbl }.setState s (some (st.setKey idx (some k)))).setKeyMem k
        (some { key with states := l })).states s = some (st.setKey idx (some k)) :=
      PfStateTable.setState_self_states _
    have hrest : ∀ x, x ≠ s → (({ t with statetbl := tbl }.setState s
        (some (st.setKey idx (some k)))).setKeyMem k (some { key with states := l })).states x =
          t.states x := fun x hx => PfStateTable.setState_states_of_ne hx _
    have hfree : ∀ k', k' ∉ t.statetbl → k' ≠ k → k' ∉ tbl := fun k' hk' hne hmem =>
      (hin k' hmem).elim hk' hne
    obtain ⟨t', hun, hok', hstates', hkept, hself', hfree', hown⟩ :=
      unlinkOld_spec hok hstates hself holds
    refine ⟨t', true, ?_, hok', hstates', ⟨?_, ?_, ?_, ?_⟩, ?_, ?_,
      fun hfalse => absurd hfalse (by decide), fun _ => ⟨hself', ?_⟩⟩
    · simp only [attachItem, hst, if_true, PfStateTable.setState_keys, hkey]
      rw [← hleq, hun]
      rfl
    · exact fun x hx ho => (hkept.state x hx ho).trans (hrest x hx)
    · exact fun x hx ho hmem => hkept.ids x hx ho hmem
    · intro x stx k' hx ho hstx href
      exact (hkept.cmps x stx k' hx ho ((hrest x hx).trans hstx) href).trans (hcmp k')
    · exact fun x hx => hkept.treeId x hx
    · intro k' hk' hne
      obtain ⟨hkeys', htbl'⟩ := hfree' k' (hfree k' hk' hne)
      exact ⟨hkeys'.trans (PfStateTable.setKeyMem_keys_of_ne hne _), htbl'⟩
    · exact fun k' href => (hown k' ((hv k').2 (.inl href))).trans (hcmp k')
    · rw [hown k ((hv k).2 (.inr rfl)), hcmp k, hkey]
      rfl

/-- The end of `pf_state_key_attach` for the state `s` with the new key `sk`. -/
structure AttachEnd (s sk : Nat) (st : PfState) (idx : PfSk) (cmp : PfStateKeyCmp)
    (t t' : PfStateTable) (ok : Bool) : Prop where
  keysOk : KeysOk t'
  statesOk : StatesOk (some s) t'
  kept : KeptStates s t t'
  free : ∀ k, k ∉ t.statetbl → k ≠ sk → t'.keys k = t.keys k ∧ k ∉ t'.statetbl
  own : ∀ k, st.refs k → (t'.keys k).map PfStateKey.cmp = (t.keys k).map PfStateKey.cmp
  rejected : ok = false → t'.states s = some st
  attached : ok = true → ∃ k cmp', t'.states s = some (st.setKey idx (some k)) ∧
    (t'.keys k).map PfStateKey.cmp = some cmp' ∧ sameKey cmp' cmp = true

theorem readable_of_refs {x : Nat} (h : KeysOk t) (hs : StatesOk (some s) t) (hne : x ≠ s)
    (hst : t.states x = some st) (href : st.refs k) : Readable t st ∧ x ∈ t.treeId := by
  obtain ⟨hiff, hmem⟩ := hs.both x st (fun heq => hne (Option.some.inj heq)) hst
  have hwire : st.wire ≠ none := by
    rcases href with href | href
    · rw [href]
      simp
    · rw [ne_eq, hiff, href]
      simp
  obtain ⟨kw, hkw⟩ := ne_none_iff_exists'.1 hwire
  obtain ⟨ks, hks⟩ := ne_none_iff_exists'.1 fun hnone => hwire (hiff.2 hnone)
  obtain ⟨keyw, hkeyw, -⟩ := h.key_of_refs hst (.inl hkw)
  obtain ⟨keys, hkeys, -⟩ := h.key_of_refs hst (.inr hks)
  refine ⟨⟨⟨keyw.cmp.af, ?_⟩, keys.cmp.af, ?_⟩, hmem hwire⟩
  · simp [PfStateTable.keyAf, hkw, hkeyw]
  · simp [PfStateTable.keyAf, hks, hkeys]

theorem findKey_none (h : t.findKey cmp = none) :
    ∀ k ∈ t.statetbl, ∀ a, t.keys k = some a → sameKey a.cmp cmp = false := by
  intro k hk a ha
  have hno := find?_eq_none.1 h k hk
  simp only [ha] at hno
  exact Bool.eq_false_iff.2 hno

theorem findKey_some (h : t.findKey cmp = some k) :
    k ∈ t.statetbl ∧ ∃ key, t.keys k = some key ∧ sameKey key.cmp cmp = true := by
  have hsome := find?_some h
  refine ⟨mem_of_find?_eq_some h, ?_⟩
  split at hsome
  case h_1 key hkey => exact ⟨key, hkey, hsome⟩
  case h_2 => cases hsome

/-- `pf_state_key_attach` ends, with the state attached or as it was. -/
theorem pfStateKeyAttach_spec {sk : Nat} (idx : PfSk) (item : Bool) (h : KeysOk t)
    (hs : StatesOk (some s) t) (hst : t.states s = some st) (hid : s ∉ t.treeId)
    (hidx : st.key idx = none) (hstack : st.stack = none) (hsk : t.keys sk = some ⟨cmp, []⟩)
    (hnew : sk ∉ t.statetbl)
    (hself : ∀ k key, st.wire = some k → t.keys k = some key → sameKey key.cmp cmp = true → ¬(cmp.proto = ipprotoTcp ∧ st.done)) :
    ∃ t' ok, pfStateKeyAttach t sk s idx item = some (t', ok) ∧
      AttachEnd s sk st idx cmp t t' ok := by
  cases hfind : t.findKey cmp with
  | none =>
    obtain ⟨t', ok, hatt, hok, hs', hkept, hfree, hown, hrej, hin⟩ :=
      attachItem_spec none item h hs hst hid hidx hsk
        (.inr ⟨hnew, rfl, rfl, findKey_none hfind⟩) not_mem_nil
        (fun o ho => absurd ho (some_ne_none o).symm)
    refine ⟨t', ok, ?_, hok, hs', (KeptStates.refl s t).but hkept (by simp), hfree, hown, hrej,
      fun htrue => ⟨sk, cmp, (hin htrue).1, (hin htrue).2, sameKey_refl cmp⟩⟩
    simp only [pfStateKeyAttach, hsk, hfind]
    exact hatt
  | some cur =>
    obtain ⟨hcur, key, hkey, hsame⟩ := findKey_some hfind
    obtain ⟨key', hkey', -, -, hmem⟩ := h.items cur hcur
    have heq : key = key' := Option.some.inj (hkey.symm.trans hkey')
    subst heq
    have hitems : ∀ x ∈ key.states, x ≠ s →
        ∃ old, t.states x = some old ∧ Readable t old ∧ x ∈ t.treeId := by
      intro x hx hxs
      obtain ⟨old, hold, href⟩ := (hmem x).1 hx
      obtain ⟨hread, htree⟩ := readable_of_refs h hs hxs hold href
      exact ⟨old, hold, hread, htree⟩
    obtain ⟨t₁, r, hscan, hcl, hres⟩ := attachScan_spec cmp key.states t none hst
      (fun x hx hxs => (hitems x hx hxs).imp fun _ hx => ⟨hx.1, hx.2.1⟩)
      (fun hmems => by
        -- the state is on the list by its wire key
        obtain ⟨st', hst', href⟩ := (hmem s).1 hmems
        have hstst : st' = st := Option.some.inj (hst'.symm.trans hst)
        rw [hstst] at href
        have hwire : st.wire = some cur := href.resolve_right (by simp [hstack])
        refine ⟨?_, hself cur key hwire hkey hsame⟩
        simp only [PfStateTable.keyAf, hwire, hkey, map_some, (sameKey_iff.1 hsame).2.1])
    have hskcur : ∀ k ∈ t.statetbl, k ≠ sk := by
      rintro k hk rfl
      exact hnew hk
    have hkeys₁ : ∀ k, k ≠ sk → (t₁.setKeyMem sk none).keys k = t.keys k := fun k hk => by
      rw [PfStateTable.setKeyMem_keys_of_ne hk, hcl.keys]
    have hok₁ : KeysOk (t₁.setKeyMem sk none) := (h.closes hcl).setKeyMem (hcl.statetbl ▸ hnew) none
    have hs₁ : StatesOk (some s) (t₁.setKeyMem sk none) := (hs.closes hcl).congr (fun _ => rfl) rfl
    have hst₁ : (t₁.setKeyMem sk none).states s = some st := hcl.self.trans hst
    have hkept₁ : KeptStates s t (t₁.setKeyMem sk none) := by
      refine ⟨hcl.kept.state, hcl.kept.ids, fun x stx k _ hstx _ href => ?_, hcl.kept.treeId⟩
      rw [hkeys₁ k (hskcur k (h.refs x stx k hstx href))]
    cases r with
    | none =>
      refine ⟨_, false, ?_, hok₁, hs₁, hkept₁, fun k hk hne => ⟨hkeys₁ k hne, ?_⟩,
        fun k href => ?_, fun _ => hst₁, fun htrue => absurd htrue (by decide)⟩
      · simp only [pfStateKeyAttach, hsk, hfind, hkey, hscan]
      · rw [PfStateTable.setKeyMem_statetbl, hcl.statetbl]
        exact hk
      · rw [hkeys₁ k (hskcur k (h.refs s st k hst href))]
    | some olds =>
      obtain ⟨hnot, holds⟩ := hres olds rfl
      have hdone : ∀ o, olds = some o → o ∈ key.states ∧ ∃ old, t.states o = some old ∧ old.done := by
        rintro o rfl
        obtain ho | ⟨n, old, ho, hn, hold, hd⟩ := holds
        · cases ho
        · cases ho
          exact ⟨hn, old, hold, hd⟩
      obtain ⟨t', ok, hatt, hok, hs', hkept, hfree, hown, hrej, hin⟩ :=
        attachItem_spec olds item hok₁ hs₁ hst₁
          (by rw [PfStateTable.setKeyMem_treeId, hcl.treeId]; exact hid) hidx
          ((hkeys₁ cur (hskcur cur hcur)).trans hkey)
          (.inl ⟨by rw [PfStateTable.setKeyMem_statetbl, hcl.statetbl]; exact hcur, rfl⟩) hnot
          (fun o ho => by
            have hos : o ≠ s := fun heq => hnot (heq ▸ (hdone o ho).1)
            obtain ⟨-, -, -, htree⟩ := hitems o (hdone o ho).1 hos
            rw [PfStateTable.setKeyMem_treeId, hcl.treeId]
            exact ⟨hos, htree⟩)
      refine ⟨t', ok, ?_, hok, hs', hkept₁.but hkept fun o ho => (hdone o ho).2, fun k hk hne => ?_,
        fun k href => ?_, hrej, fun htrue => ⟨cur, key.cmp, (hin htrue).1, (hin htrue).2, hsame⟩⟩
      · simp only [pfStateKeyAttach, hsk, hfind, hkey, hscan]
        exact hatt
      · obtain ⟨hkeys', htbl'⟩ := hfree k
          (by rw [PfStateTable.setKeyMem_statetbl, hcl.statetbl]; exact hk)
          (fun heq => hk (heq ▸ hcur))
        exact ⟨hkeys'.trans (hkeys₁ k hne), htbl'⟩
      · rw [hown k href, hkeys₁ k (hskcur k (h.refs s st k hst href))]

end OpenBsd.Net
