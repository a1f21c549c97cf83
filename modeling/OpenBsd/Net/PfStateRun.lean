/-
  OpenBsd.Net.PfStateRun

  Runs of the state table: inserting, unlinking and detaching states in any order keeps
  every key, item and id in its place, unless a state comes with two keys that compare
  equal while both of its TCP peers are done.
-/

import OpenBsd.Net.PfStateSafe

namespace OpenBsd.Net

open Option

variable {t t₁ : PfStateTable} {s : Nat} {st : PfState} {skw sks : PfStateKeyCmp} {c : PfInsert}

/-! ## Inserting a state -/

theorem StatesOk.weaken (h : StatesOk none t) (s : Nat) : StatesOk (some s) t :=
  ⟨fun x st _ hst => h.both x st (some_ne_none x) hst, h.ids_nodup, h.ids_states, h.ids_distinct⟩

theorem StatesOk.full (h : StatesOk (some s) t) (hst : t.states s = some st)
    (hboth : (st.wire = none ↔ st.stack = none) ∧ (st.wire ≠ none → s ∈ t.treeId)) :
    StatesOk none t := by
  refine ⟨fun x stx _ hstx => ?_, h.ids_nodup, h.ids_states, h.ids_distinct⟩
  by_cases hx : x = s
  · subst hx
    have heq : st = stx := Option.some.inj (hst.symm.trans hstx)
    exact heq ▸ hboth
  · exact h.both x stx (fun heq => hx (Option.some.inj heq)) hstx

/-- The state `s` has a key that compares equal to `cmp`. -/
def HasKey (t : PfStateTable) (k : Option Nat) (cmp : PfStateKeyCmp) : Prop :=
  ∃ n key, k = some n ∧ n ∈ t.statetbl ∧ t.keys n = some key ∧ sameKey key.cmp cmp = true

/-- What an insertion comes to: the state is in the table under its keys and its id, or
    nothing refers to it. -/
structure InsertEnd (s : Nat) (skw sks : PfStateKeyCmp) (t t' : PfStateTable) (ok : Bool) : Prop where
  table : TableOk t'
  kept : KeptStates s t { t' with treeId := t'.treeId.erase s }
  inserted : ok = true → s ∈ t'.treeId ∧
    ∃ st, t'.states s = some st ∧ HasKey t' st.wire skw ∧ HasKey t' st.stack sks
  rejected : ok = false → s ∉ t'.treeId ∧
    (∀ k ∈ t'.statetbl, ∀ key, t'.keys k = some key → s ∉ key.states) ∧
    ∃ st, t'.states s = some st ∧ st.wire = none ∧ st.stack = none

variable {t' : PfStateTable}

theorem InsertEnd.of_rejected (h : KeysOk t') (hs : StatesOk (some s) t')
    (hkept : KeptStates s t t') (hid : s ∉ t.treeId) (hst : t'.states s = some st)
    (hnone : st.wire = none ∧ st.stack = none) : InsertEnd s skw sks t t' false := by
  have hid' : s ∉ t'.treeId := fun hmem => hid (hkept.treeId s hmem)
  refine ⟨⟨h, hs.full hst ?_⟩, ?_, nofun, fun _ => ⟨hid', fun k hk key hkey hmem => ?_, st, hst,
    hnone⟩⟩
  · rw [hnone.1, hnone.2]
    exact ⟨Iff.rfl, fun hw => absurd rfl hw⟩
  · rw [List.erase_of_not_mem hid']
    exact hkept
  · obtain ⟨key', hkey', -, -, hmem'⟩ := h.items k hk
    have heq : key = key' := Option.some.inj (hkey.symm.trans hkey')
    rw [heq] at hmem
    obtain ⟨st', hst', href⟩ := (hmem' s).1 hmem
    have hsts : st' = st := Option.some.inj (hst'.symm.trans hst)
    rw [hsts, PfState.refs, hnone.1, hnone.2] at href
    simp at href

theorem findId_none (h : t.findId st = none) :
    ∀ s ∈ t.treeId, ∀ st', t.states s = some st' →
      ¬(st'.id = st.id ∧ st'.creatorid = st.creatorid) := by
  intro s hs st' hst'
  have hno := List.find?_eq_none.1 h s hs
  simpa only [hst', Bool.and_eq_true, beq_iff_eq] using hno

theorem hasKey_of_cmp (h : KeysOk t) {k : Nat} {cmp cmp' : PfStateKeyCmp}
    (hst : t.states s = some st) (href : st.refs k)
    (hcmp : (t.keys k).map PfStateKey.cmp = some cmp') (hsame : sameKey cmp' cmp = true) :
    HasKey t (some k) cmp := by
  obtain ⟨key, hkey, heq⟩ := map_eq_some_iff.1 hcmp
  exact ⟨k, key, rfl, h.refs s st k hst href, hkey, heq ▸ hsame⟩

theorem giveId_spec (h : KeysOk t) (hst : t.states s = some st) :
    ∃ st', st'.wire = st.wire ∧ st'.stack = st.stack ∧ (giveId t s st).keys = t.keys ∧
      KeysOk (giveId t s st) ∧ OnlyState s st' t (giveId t s st) := by
  rw [giveId]
  split
  · refine ⟨{ st with id := t.stateid, creatorid := t.hostid }, rfl, rfl, rfl, ?_, ?_⟩
    · have hset := h.setState hst
        (fun k => (Iff.rfl : PfState.refs { st with id := t.stateid, creatorid := t.hostid } k ↔ _))
      exact hset.congr rfl (fun _ _ => rfl) fun _ _ => Iff.rfl
    · exact ⟨PfStateTable.setState_self_states _,
        fun _ hne => PfStateTable.setState_states_of_ne hne _, rfl, fun _ _ _ _ _ _ => rfl,
        fun _ _ => rfl, fun _ h => h⟩
  · exact ⟨st, rfl, rfl, rfl, h, OnlyState.refl hst⟩

/-- The end of `pf_state_insert`. -/
theorem insertId_spec {kw ks : Nat} {cw cs : PfStateKeyCmp} (skw sks : PfStateKeyCmp)
    (h : KeysOk t₁) (hs : StatesOk (some s) t₁) (hkept : KeptStates s t t₁) (hid : s ∉ t.treeId)
    (hst : t₁.states s = some st) (hwire : st.wire = some kw) (hstack : st.stack = some ks)
    (hcw : (t₁.keys kw).map PfStateKey.cmp = some cw)
    (hcs : (t₁.keys ks).map PfStateKey.cmp = some cs) (hsamew : sameKey cw skw = true)
    (hsames : sameKey cs sks = true) :
    ∃ t' ok, insertId t₁ s = some (t', ok) ∧ InsertEnd s skw sks t t' ok := by
  have hid₁ : s ∉ t₁.treeId := fun hmem => hid (hkept.treeId s hmem)
  obtain ⟨st₂, hwire₂, hstack₂, hkeys, hok₂, honly⟩ := giveId_spec h hst
  have hunfold : insertId t₁ s = insertTree (giveId t₁ s st) s := by simp only [insertId, hst]
  rw [hunfold]
  rw [← hkeys] at hcw hcs
  generalize giveId t₁ s st = t₂ at *
  have hself := honly.self
  have hs₂ := hs.onlyState honly (fun hmem => absurd hmem hid₁) (.inl rfl)
  have hkept₂ := hkept.trans honly.kept
  have hid₂ : s ∉ t₂.treeId := honly.treeId ▸ hid₁
  cases hfind : t₂.findId st₂ with
  | some x =>
    obtain ⟨t', hdet, hok', honly'⟩ := pfDetachState_spec hok₂ hself
    refine ⟨t', false, ?_, InsertEnd.of_rejected hok' ?_ (hkept₂.trans honly'.kept) hid honly'.self
      ⟨rfl, rfl⟩⟩
    · simp only [insertTree, hself, hfind, hdet, map_some]
    · exact hs₂.onlyState honly' (fun hmem => absurd hmem hid₂) (.inl rfl)
  | none =>
    have hno := findId_none hfind
    have hok₃ : KeysOk { t₂ with treeId := s :: t₂.treeId } :=
      hok₂.congr rfl (fun _ _ => rfl) fun _ _ => Iff.rfl
    refine ⟨{ t₂ with treeId := s :: t₂.treeId }, true, ?_, ⟨hok₃, ?_⟩, ?_,
      fun _ => ⟨List.mem_cons_self .., st₂, hself, ?_, ?_⟩, nofun⟩
    · simp only [insertTree, hself, hfind]
    · refine ⟨fun x stx _ hstx => ?_, List.nodup_cons.2 ⟨hid₂, hs₂.ids_nodup⟩, fun x hx => ?_, ?_⟩
      · by_cases hx : x = s
        · subst hx
          have heq : st₂ = stx := Option.some.inj (hself.symm.trans hstx)
          rw [← heq, hwire₂, hstack₂, hwire, hstack]
          simp
        · obtain ⟨hiff, hmem⟩ := hs₂.both x stx (fun heq => hx (Option.some.inj heq)) hstx
          exact ⟨hiff, fun hw => List.mem_cons_of_mem s (hmem hw)⟩
      · rcases List.mem_cons.1 hx with rfl | hx
        · exact fun hnone => some_ne_none st₂ (hself.symm.trans hnone)
        · exact hs₂.ids_states x hx
      · intro x hx y hy stx sty hstx hsty hxy hcxy
        rcases List.mem_cons.1 hx with rfl | hx' <;> rcases List.mem_cons.1 hy with rfl | hy'
        · rfl
        · have heq : st₂ = stx := Option.some.inj (hself.symm.trans hstx)
          exact absurd ⟨heq ▸ hxy.symm, heq ▸ hcxy.symm⟩ (hno y hy' sty hsty)
        · have heq : st₂ = sty := Option.some.inj (hself.symm.trans hsty)
          exact absurd ⟨heq ▸ hxy, heq ▸ hcxy⟩ (hno x hx' stx hstx)
        · exact hs₂.ids_distinct x hx' y hy' stx sty hstx hsty hxy hcxy
    · rw [List.erase_cons_head]
      exact hkept₂
    · rw [hwire₂, hwire]
      exact hasKey_of_cmp hok₃ hself (.inl (hwire₂.trans hwire)) hcw hsamew
    · rw [hstack₂, hstack]
      exact hasKey_of_cmp hok₃ hself (.inr (hstack₂.trans hstack)) hcs hsames

theorem KeptStates.setKeyMem {k : Nat} (h : KeptStates s t t') (hok : KeysOk t')
    (hk : k ∉ t'.statetbl) (v : Option PfStateKey) : KeptStates s t (t'.setKeyMem k v) := by
  refine ⟨h.state, h.ids, fun x st k' hne hst hnd href => ?_, h.treeId⟩
  rw [PfStateTable.setKeyMem_keys_of_ne, h.cmps x st k' hne hst hnd href]
  rintro rfl
  exact hk (hok.refs x st k' (h.state x st hne hst hnd) href)

/-- The stack key of an insertion; with one key for both it is the wire key. -/
def PfInsert.stackCmp (c : PfInsert) (skw sks : PfStateKeyCmp) : PfStateKeyCmp :=
  if c.skw = c.sks then skw else sks

/-- The keys of a state are the same key, or compare different, or the state may not be
    displaced. -/
def KeysDiffer (skw sks : PfStateKeyCmp) (st : PfState) (c : PfInsert) : Prop :=
  c.skw = c.sks ∨ sameKey skw sks = false ∨ ¬(sks.proto = ipprotoTcp ∧ st.done)

instance (skw sks : PfStateKeyCmp) (st : PfState) (c : PfInsert) :
    Decidable (KeysDiffer skw sks st c) :=
  inferInstanceAs (Decidable (_ ∨ _ ∨ _))

/-- The table with a state and keys from the pools. -/
theorem prepare_spec (skw sks : PfStateKeyCmp) (st : PfState) (h : TableOk t)
    (hskw : t.keys c.skw = none) (hsks : t.keys c.sks = none) (hnew : t.states c.s = none) :
    KeysOk (prepare t skw sks st c) ∧ StatesOk (some c.s) (prepare t skw sks st c) ∧
      KeptStates c.s t (prepare t skw sks st c) ∧ c.s ∉ t.treeId ∧
      (prepare t skw sks st c).states c.s = some st.detached ∧
      (prepare t skw sks st c).treeId = t.treeId ∧
      (prepare t skw sks st c).keys c.skw = some ⟨skw, []⟩ ∧
      c.skw ∉ (prepare t skw sks st c).statetbl ∧
      (c.skw ≠ c.sks → (prepare t skw sks st c).keys c.sks = some ⟨sks, []⟩) ∧
      c.sks ∉ (prepare t skw sks st c).statetbl := by
  obtain ⟨hok, hs⟩ := h
  have hfree : ∀ k, t.keys k = none → k ∉ t.statetbl := by
    intro k hnone hk
    obtain ⟨key, hkey, -⟩ := hok.items k hk
    rw [hnone] at hkey
    cases hkey
  have hid : c.s ∉ t.treeId := fun hmem => hs.ids_states c.s hmem hnew
  -- the memory of the keys
  obtain ⟨t₁, ht₁, hkeys₁, hskw₁, hsks₁, hok₁, hkept₁⟩ : ∃ t₁ : PfStateTable,
      prepare t skw sks st c = t₁.setState c.s (some st.detached) ∧
      (t₁.states = t.states ∧ t₁.treeId = t.treeId ∧ t₁.statetbl = t.statetbl) ∧
      t₁.keys c.skw = some ⟨skw, []⟩ ∧ (c.skw ≠ c.sks → t₁.keys c.sks = some ⟨sks, []⟩) ∧
      KeysOk t₁ ∧ KeptStates c.s t t₁ := by
    have hokw := hok.setKeyMem (hfree c.skw hskw) (some ⟨skw, []⟩)
    have hkeptw := (KeptStates.refl c.s t).setKeyMem hok (hfree c.skw hskw) (some ⟨skw, []⟩)
    by_cases heq : c.skw = c.sks
    · refine ⟨t.setKeyMem c.skw (some ⟨skw, []⟩), ?_, ⟨rfl, rfl, rfl⟩,
        PfStateTable.setKeyMem_self_keys _, fun hne => absurd heq hne, hokw, hkeptw⟩
      rw [prepare, if_pos heq]
      rfl
    · refine ⟨(t.setKeyMem c.skw (some ⟨skw, []⟩)).setKeyMem c.sks (some ⟨sks, []⟩), ?_,
        ⟨rfl, rfl, rfl⟩, ?_, fun _ => PfStateTable.setKeyMem_self_keys _,
        hokw.setKeyMem (hfree c.sks hsks) _, hkeptw.setKeyMem hokw (hfree c.sks hsks) _⟩
      · rw [prepare, if_neg heq]
        rfl
      · rw [PfStateTable.setKeyMem_keys_of_ne heq, PfStateTable.setKeyMem_self_keys]
  obtain ⟨hstates₁, htree₁, htbl₁⟩ := hkeys₁
  have honly : OnlyState c.s st.detached t₁ (t₁.setState c.s (some st.detached)) :=
    OnlyState.setState c.s _
  have hs₁ : StatesOk none t₁ := hs.congr (fun x => by rw [hstates₁]) htree₁
  rw [ht₁]
  refine ⟨?_, ?_, hkept₁.trans honly.kept, hid, honly.self, htree₁, hskw₁, ?_, hsks₁, ?_⟩
  · refine hok₁.congr rfl (fun _ _ => rfl) fun x k => ?_
    by_cases hx : x = c.s
    · subst hx
      rw [PfStateTable.setState_self_states, hstates₁, hnew]
      simp [PfState.refs, PfState.detached]
    · rw [PfStateTable.setState_states_of_ne hx]
  · exact (hs₁.onlyState honly (fun hmem => absurd (htree₁ ▸ hmem) hid)
      (.inr ⟨Iff.rfl, fun hw => absurd rfl hw⟩)).weaken c.s
  · rw [PfStateTable.setState_statetbl, htbl₁]
    exact hfree c.skw hskw
  · rw [PfStateTable.setState_statetbl, htbl₁]
    exact hfree c.sks hsks

/-- The state with its keys still to come. -/
structure Fresh (c : PfInsert) (st : PfState) (skw : PfStateKeyCmp) (t : PfStateTable) : Prop where
  keysOk : KeysOk t
  statesOk : StatesOk (some c.s) t
  state : t.states c.s = some st
  ids : c.s ∉ t.treeId
  wire : st.wire = none
  stack : st.stack = none
  skw_mem : t.keys c.skw = some ⟨skw, []⟩
  skw_new : c.skw ∉ t.statetbl

theorem Fresh.attach (h : Fresh c st skw t) :
    ∃ t' ok, pfStateKeyAttach t c.skw c.s .wire c.wireItem = some (t', ok) ∧
      AttachEnd c.s c.skw st .wire skw t t' ok := by
  refine pfStateKeyAttach_spec .wire c.wireItem h.keysOk h.statesOk h.state h.ids h.wire h.stack h.skw_mem
    h.skw_new fun k key hk => ?_
  rw [h.wire] at hk
  cases hk

theorem insertOne_spec (h : Fresh c st skw t₁) (hkept : KeptStates c.s t t₁)
    (hid : c.s ∉ t.treeId) :
    ∃ t' ok, insertOne t₁ c = some (t', ok) ∧ InsertEnd c.s skw skw t t' ok := by
  obtain ⟨t₂, ok, hatt, hend⟩ := h.attach
  have hkept₂ := hkept.trans hend.kept
  rw [insertOne, hatt]
  cases ok with
  | false =>
    exact ⟨t₂, false, rfl, InsertEnd.of_rejected hend.keysOk hend.statesOk hkept₂ hid
      (hend.rejected rfl) ⟨h.wire, h.stack⟩⟩
  | true =>
    obtain ⟨k, cmp, hst₂, hcmp, hsame⟩ := hend.attached rfl
    have hid₂ : c.s ∉ t₂.treeId := fun hmem => hid (hkept₂.treeId _ hmem)
    have honly : OnlyState c.s { st with wire := some k, stack := some k } t₂
        (t₂.setState c.s (some { st with wire := some k, stack := some k })) :=
      OnlyState.setState c.s _
    have hrefs : ∀ k', ({ st with wire := some k, stack := some k } : PfState).refs k' ↔
        (st.setKey .wire (some k)).refs k' := by
      intro k'
      simp [PfState.refs, PfState.setKey, h.stack]
    have hins := insertId_spec skw skw (hend.keysOk.setState hst₂ hrefs)
      (hend.statesOk.onlyState honly (fun hmem => absurd hmem hid₂) (.inl rfl))
      (hkept₂.trans honly.kept) hid honly.self rfl rfl hcmp hcmp hsame hsame
    obtain ⟨t', ok, heq, hres⟩ := hins
    refine ⟨t', ok, ?_, hres⟩
    simp only [hst₂]
    exact heq

theorem insertTwo_spec (h : Fresh c st skw t₁) (hkept : KeptStates c.s t t₁) (hid : c.s ∉ t.treeId)
    (hne : c.sks ≠ c.skw) (hsks : t₁.keys c.sks = some ⟨sks, []⟩) (hnew : c.sks ∉ t₁.statetbl)
    (hdiffer : sameKey skw sks = true → ¬(sks.proto = ipprotoTcp ∧ st.done)) :
    ∃ t' ok, insertTwo t₁ c = some (t', ok) ∧ InsertEnd c.s skw sks t t' ok := by
  obtain ⟨t₂, ok, hatt, hend⟩ := h.attach
  have hkept₂ := hkept.trans hend.kept
  obtain ⟨hsks₂, hnew₂⟩ := hend.free c.sks hnew hne
  rw [insertTwo, hatt]
  cases ok with
  | false =>
    refine ⟨_, false, rfl, InsertEnd.of_rejected (hend.keysOk.setKeyMem hnew₂ none)
      (hend.statesOk.congr (fun _ => rfl) rfl) (hkept₂.setKeyMem hend.keysOk hnew₂ none) hid
      (hend.rejected rfl) ⟨h.wire, h.stack⟩⟩
  | true =>
    obtain ⟨k, cmp, hst₂, hcmp, hsame⟩ := hend.attached rfl
    have hid₂ : c.s ∉ t₂.treeId := fun hmem => hid (hkept₂.treeId _ hmem)
    have hstack₂ : (st.setKey .wire (some k)).stack = none := h.stack
    obtain ⟨t₃, ok₃, hatt₃, hend₃⟩ := pfStateKeyAttach_spec .stack c.stackItem hend.keysOk
      hend.statesOk hst₂ hid₂ hstack₂ hstack₂ (hsks₂.trans hsks) hnew₂ (by
        intro k' key hk' hkey hsks'
        -- the wire key compares equal to the stack key
        have hkk : k = k' := Option.some.inj hk'
        subst hkk
        rw [hkey] at hcmp
        have heq : key.cmp = cmp := Option.some.inj hcmp
        rw [heq] at hsks'
        exact hdiffer (sameKey_trans (sameKey_symm hsame) hsks'))
    have hkept₃ := hkept₂.trans hend₃.kept
    have hid₃ : c.s ∉ t₃.treeId := fun hmem => hid (hkept₃.treeId _ hmem)
    simp only [hatt₃]
    cases ok₃ with
    | false =>
      obtain ⟨t₄, hdet, hok₄, honly₄⟩ := pfStateKeyDetach_spec .wire hend₃.keysOk
        (hend₃.rejected rfl) (fun k' _ hk' => by
          have hnone : (none : Option Nat) = some k' := h.stack.symm.trans hk'
          cases hnone)
      refine ⟨t₄, false, ?_, InsertEnd.of_rejected hok₄
        (hend₃.statesOk.onlyState honly₄ (fun hmem => absurd hmem hid₃) (.inl rfl))
        (hkept₃.trans honly₄.kept) hid honly₄.self ⟨rfl, h.stack⟩⟩
      simp only [hdet, map_some]
    | true =>
      obtain ⟨ks, cmps, hst₃, hcmps, hsames⟩ := hend₃.attached rfl
      exact insertId_spec skw sks hend₃.keysOk hend₃.statesOk hkept₃ hid hst₃ rfl rfl
        ((hend₃.own k (.inl rfl)).trans hcmp) hcmps hsame hsames

theorem pfStateInsert_spec (h : TableOk t) (hskw : t.keys c.skw = none) (hsks : t.keys c.sks = none)
    (hnew : t.states c.s = none) (hdiffer : KeysDiffer skw sks st c) :
    ∃ t' ok, pfStateInsert (prepare t skw sks st c) c = some (t', ok) ∧
      InsertEnd c.s skw (c.stackCmp skw sks) t t' ok := by
  obtain ⟨hok₀, hs₀, hkept₀, hid, hst₀, htree₀, hkw₀, hnw₀, hks₀, hns₀⟩ :=
    prepare_spec skw sks st h hskw hsks hnew
  generalize prepare t skw sks st c = t₀ at *
  have honly : OnlyState c.s { st.detached with kif := c.kif } t₀
      (t₀.setState c.s (some { st.detached with kif := c.kif })) := OnlyState.setState c.s _
  have hid₀ : c.s ∉ t₀.treeId := htree₀ ▸ hid
  have hfresh : Fresh c { st.detached with kif := c.kif } skw
      (t₀.setState c.s (some { st.detached with kif := c.kif })) :=
    ⟨hok₀.setState hst₀ fun _ => Iff.rfl,
      hs₀.onlyState honly (fun hmem => absurd hmem hid₀) (.inl rfl), honly.self, hid₀, rfl, rfl, hkw₀,
      hnw₀⟩
  have hkept := hkept₀.trans honly.kept
  simp only [pfStateInsert, hst₀, PfInsert.stackCmp]
  by_cases heq : c.skw = c.sks
  · rw [if_pos heq, if_pos heq]
    exact insertOne_spec hfresh hkept hid
  · rw [if_neg heq, if_neg heq]
    refine insertTwo_spec hfresh hkept hid (Ne.symm heq) (hks₀ heq) hns₀ fun hsame => ?_
    exact (hdiffer.resolve_left heq).resolve_left (by rw [hsame]; simp)

/-! ## Runs -/

/-- The tables of the runs whose steps are all `good`. -/
inductive PfReach (good : PfOp → Prop) (t₀ : PfStateTable) : PfStateTable → Prop where
  | start : PfReach good t₀ t₀
  | step {t t' : PfStateTable} (op : PfOp) : PfReach good t₀ t → op.ready t → good op →
      pfStep t op = some t' → PfReach good t₀ t'

/-- A state is inserted with keys that differ, or with one key. -/
def PfOp.keysDiffer : PfOp → Prop
  | .insert skw sks st c => KeysDiffer skw sks st c
  | _ => True

/-- What a step does besides keeping the invariant. -/
def StepOk (t : PfStateTable) : PfOp → Prop
  | .insert skw sks st c =>
    ∃ t' ok, pfStateInsert (prepare t skw sks st c) c = some (t', ok) ∧
      InsertEnd c.s skw (c.stackCmp skw sks) t t' ok
  | .unlink s => ∃ t', pfUnlinkState t s = some t' ∧ ∀ x, x ≠ s → t'.states x = t.states x
  | .detach s => ∃ t', pfDetachState t s = some t' ∧ ∀ x, x ≠ s → t'.states x = t.states x
  | .peers s src dst => ∃ t', pfStep t (.peers s src dst) = some t' ∧
    ∀ x, x ≠ s → t'.states x = t.states x

theorem TableOk.free (h : TableOk t) (hst : t.states s = some st) (hid : s ∉ t.treeId)
    (hnone : st.wire = none ∧ st.stack = none) : TableOk (t.setState s none) := by
  obtain ⟨hok, hs⟩ := h
  refine ⟨hok.congr rfl (fun _ _ => rfl) fun x k => ?_, ?_, hs.ids_nodup, fun x hx => ?_, ?_⟩
  · by_cases hx : x = s
    · subst hx
      simp [hst, PfState.refs, hnone.1, hnone.2]
    · rw [PfStateTable.setState_states_of_ne hx]
  · intro x stx hne hstx
    by_cases hx : x = s
    · subst hx
      rw [PfStateTable.setState_self_states] at hstx
      cases hstx
    · rw [PfStateTable.setState_states_of_ne hx] at hstx
      exact hs.both x stx hne hstx
  · have hxs : x ≠ s := fun heq => hid (heq ▸ hx)
    rw [PfStateTable.setState_states_of_ne hxs]
    exact hs.ids_states x hx
  · intro x hx y hy stx sty hstx hsty
    have hxs : x ≠ s := fun heq => hid (heq ▸ hx)
    have hys : y ≠ s := fun heq => hid (heq ▸ hy)
    rw [PfStateTable.setState_states_of_ne hxs] at hstx
    rw [PfStateTable.setState_states_of_ne hys] at hsty
    exact hs.ids_distinct x hx y hy stx sty hstx hsty

theorem pfStep_ok {op : PfOp} (h : TableOk t) (hready : op.ready t) (hdiffer : op.keysDiffer) :
    StepOk t op ∧ ∃ t', pfStep t op = some t' ∧ TableOk t' := by
  cases op with
  | insert skw sks st c =>
    obtain ⟨hskw, hsks, hnew⟩ := hready
    obtain ⟨t', ok, heq, hend⟩ := pfStateInsert_spec h hskw hsks hnew hdiffer
    refine ⟨⟨t', ok, heq, hend⟩, _, by rw [pfStep, heq, map_some], ?_⟩
    cases ok with
    | true => exact hend.table
    | false =>
      obtain ⟨hid, -, st', hst', hnone⟩ := hend.rejected rfl
      exact hend.table.free hst' hid hnone
  | unlink s =>
    obtain ⟨st, hst⟩ := ne_none_iff_exists'.1 (h.2.ids_states s hready)
    obtain ⟨t', hun, hok, hs, honly⟩ := pfUnlinkState_spec h.1 h.2 hst hready
    exact ⟨⟨t', hun, honly.others⟩, t', hun, hok, hs⟩
  | detach s =>
    obtain ⟨st, hst⟩ := ne_none_iff_exists'.1 hready
    obtain ⟨t', hdet, hok, honly⟩ := pfDetachState_spec h.1 hst
    refine ⟨⟨t', hdet, honly.others⟩, t', hdet, hok, ?_⟩
    exact h.2.onlyState honly (fun _ => ⟨st, hst, rfl, rfl⟩)
      (.inr ⟨Iff.rfl, fun hw => absurd rfl hw⟩)
  | peers s src dst =>
    obtain ⟨st, hst⟩ := ne_none_iff_exists'.1 hready
    have hstep : pfStep t (.peers s src dst) =
        some (t.setState s (some { st with srcState := src, dstState := dst })) := by
      simp only [pfStep, hst]
    have honly : OnlyState s { st with srcState := src, dstState := dst } t
        (t.setState s (some { st with srcState := src, dstState := dst })) := OnlyState.setState s _
    refine ⟨⟨_, hstep, honly.others⟩, _, hstep, h.1.setState hst fun _ => Iff.rfl, ?_⟩
    exact h.2.onlyState honly (fun _ => ⟨st, hst, rfl, rfl⟩)
      (.inr (h.2.both s st (some_ne_none s) hst))

theorem emptyTable_ok (stateid hostid : Nat) : TableOk (emptyTable stateid hostid) :=
  ⟨⟨List.nodup_nil, nofun, nofun, nofun⟩, ⟨nofun, List.nodup_nil, nofun, nofun⟩⟩

theorem PfReach.tableOk {stateid hostid : Nat}
    (h : PfReach PfOp.keysDiffer (emptyTable stateid hostid) t) : TableOk t := by
  induction h with
  | start => exact emptyTable_ok stateid hostid
  | step op _ hready hgood hstep ih =>
    obtain ⟨-, t', heq, hok⟩ := pfStep_ok ih hready hgood
    have hsame : t' = _ := Option.some.inj (heq.symm.trans hstep)
    exact hsame ▸ hok

/-- In every run in which no state comes with two keys that compare equal while both of its
    TCP peers are done, every table is linked correctly, and the next step of the kind goes
    through: a state is inserted under its keys and its id, or rejected without a trace. -/
theorem state_table_run {stateid hostid : Nat} {t : PfStateTable}
    (h : PfReach PfOp.keysDiffer (emptyTable stateid hostid) t) :
    TableOk t ∧ ∀ op : PfOp, op.ready t → op.keysDiffer →
      StepOk t op ∧ ∃ t', pfStep t op = some t' ∧ TableOk t' :=
  ⟨h.tableOk, fun _ hready hdiffer => pfStep_ok h.tableOk hready hdiffer⟩

/-- The key of a connection between two addresses. -/
def flowKey (host proto : Nat) : PfStateKeyCmp :=
  { addr0 := ⟨host, 0, 0, 0⟩, addr1 := ⟨host + 1, 0, 0, 0⟩, port0 := 1024, port1 := 80,
    rdomain := 0, af := afInet, proto := proto }

/-- A state for datagrams, with one key. -/
def udpInsert : PfOp :=
  .insert (flowKey 1 ipprotoUdp) (flowKey 1 ipprotoUdp) ⟨0, 0, 1, 0, 1, 0, none, none⟩
    ⟨0, 10, 10, 1, true, true⟩

theorem state_table_run_udp :
    ∃ t, pfStep (emptyTable 1 7) udpInsert = some t ∧ t.treeId = [1] ∧ t.statetbl = [10] ∧
      TableOk t :=
  ⟨_, rfl, rfl, rfl, (state_table_run (.step udpInsert .start ⟨rfl, rfl, rfl⟩ (.inl rfl) rfl)).1⟩

/-- A TCP state from a peer, in `TIME_WAIT` on both sides, with two keys of equal content. -/
def importInsert : PfOp :=
  .insert (flowKey 5 ipprotoTcp) (flowKey 5 ipprotoTcp) ⟨9, 8, 1, 0, 10, 10, none, none⟩
    ⟨0, 20, 21, 2, true, true⟩

/-- The imported state displaces itself: the tree of the ids is lost with the state before
    it, and the item that is left belongs to a state without keys. -/
theorem state_displaces_itself :
    ∃ t, PfReach (fun _ => True) (emptyTable 1 7) t ∧
      (∃ st, t.states 1 = some st ∧ st.wire = some 10 ∧ 1 ∉ t.treeId) ∧
      (∃ key st, 20 ∈ t.statetbl ∧ t.keys 20 = some key ∧ 2 ∈ key.states ∧ t.states 2 = some st ∧
        st.wire = none ∧ st.stack = none) ∧ ¬TableOk t := by
  refine ⟨_, .step importInsert (.step udpInsert .start ⟨rfl, rfl, rfl⟩ trivial rfl)
    ⟨rfl, rfl, rfl⟩ trivial rfl, ⟨_, rfl, rfl, by decide⟩, ⟨_, _, by decide, rfl, by decide, rfl, rfl,
    rfl⟩, fun h => ?_⟩
  have hmem := (h.2.both 1 _ (some_ne_none 1) rfl).2 (by decide)
  exact absurd hmem (by decide)

end OpenBsd.Net
