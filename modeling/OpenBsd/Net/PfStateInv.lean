/-
  OpenBsd.Net.PfStateInv

  The invariant of the state table, and that detaching a state from its keys keeps it.
-/

import OpenBsd.Net.PfState
import Mathlib.Data.List.Nodup

namespace OpenBsd.Net

variable {a b : PfStateKeyCmp} {k' : Nat} {st v : PfState} {key : PfStateKey}

/-! ## Keys that compare equal -/

theorem sameAddr_symm {a b : PfAddr} {af : Nat} (h : sameAddr a b af = true) :
    sameAddr b a af = true := by
  simp only [sameAddr] at h ⊢
  split_ifs at h ⊢ <;> simp_all

theorem sameAddr_trans {a b c : PfAddr} {af : Nat} (h : sameAddr a b af = true)
    (h' : sameAddr b c af = true) : sameAddr a c af = true := by
  simp only [sameAddr] at h h' ⊢
  split_ifs at h h' ⊢ <;> simp_all

theorem sameKey_iff :
    sameKey a b = true ↔ a.proto = b.proto ∧ a.af = b.af ∧ sameAddr a.addr0 b.addr0 a.af = true ∧
      sameAddr a.addr1 b.addr1 a.af = true ∧ a.port0 = b.port0 ∧ a.port1 = b.port1 ∧
      a.rdomain = b.rdomain := by
  simp only [sameKey, Bool.and_eq_true, beq_iff_eq, and_assoc]

theorem sameKey_refl (a : PfStateKeyCmp) : sameKey a a = true := by
  have haddr : ∀ x : PfAddr, sameAddr x x a.af = true := by
    intro x
    simp only [sameAddr]
    split_ifs <;> simp
  exact sameKey_iff.2 ⟨rfl, rfl, haddr _, haddr _, rfl, rfl, rfl⟩

theorem sameKey_symm (h : sameKey a b = true) : sameKey b a = true := by
  obtain ⟨hproto, haf, h0, h1, hp0, hp1, hrd⟩ := sameKey_iff.1 h
  rw [haf] at h0 h1
  exact sameKey_iff.2
    ⟨hproto.symm, haf.symm, sameAddr_symm h0, sameAddr_symm h1, hp0.symm, hp1.symm, hrd.symm⟩

theorem sameKey_trans {c : PfStateKeyCmp} (h : sameKey a b = true) (h' : sameKey b c = true) :
    sameKey a c = true := by
  obtain ⟨hproto, haf, h0, h1, hp0, hp1, hrd⟩ := sameKey_iff.1 h
  obtain ⟨hproto', haf', h0', h1', hp0', hp1', hrd'⟩ := sameKey_iff.1 h'
  rw [← haf] at h0' h1'
  exact sameKey_iff.2 ⟨hproto.trans hproto', haf.trans haf', sameAddr_trans h0 h0',
    sameAddr_trans h1 h1', hp0.trans hp0', hp1.trans hp1', hrd.trans hrd'⟩

/-! ## Memory -/

namespace PfStateTable

variable {t : PfStateTable} {s k : Nat}

@[simp] theorem setState_self_states (v : Option PfState) : (t.setState s v).states s = v := if_pos rfl

theorem setState_states_of_ne {s' : Nat} (h : s' ≠ s) (v : Option PfState) :
    (t.setState s v).states s' = t.states s' := if_neg h

@[simp] theorem setState_keys (v : Option PfState) : (t.setState s v).keys = t.keys := rfl

@[simp] theorem setState_statetbl (v : Option PfState) :
    (t.setState s v).statetbl = t.statetbl := rfl

@[simp] theorem setKeyMem_self_keys (v : Option PfStateKey) : (t.setKeyMem k v).keys k = v :=
  if_pos rfl

theorem setKeyMem_keys_of_ne (h : k' ≠ k) (v : Option PfStateKey) :
    (t.setKeyMem k v).keys k' = t.keys k' := if_neg h

@[simp] theorem setKeyMem_states (v : Option PfStateKey) :
    (t.setKeyMem k v).states = t.states := rfl

@[simp] theorem setKeyMem_statetbl (v : Option PfStateKey) :
    (t.setKeyMem k v).statetbl = t.statetbl := rfl

@[simp] theorem setKeyMem_treeId (v : Option PfStateKey) :
    (t.setKeyMem k v).treeId = t.treeId := rfl

theorem setState_eq_self (h : t.states s = some st) : t.setState s (some st) = t := by
  have hstates : (fun s' => if s' = s then some st else t.states s') = t.states := by
    funext s'
    split
    case isTrue heq => rw [heq, h]
    case isFalse => rfl
  rw [setState, hstates]

theorem setState_setState (v w : Option PfState) :
    (t.setState s v).setState s w = t.setState s w := by
  have hstates : (fun s' => if s' = s then w else if s' = s then v else t.states s') =
      fun s' => if s' = s then w else t.states s' := by
    funext s'
    split <;> rfl
  rw [setState, setState, setState, hstates]

theorem setKeyMem_eq_self (h : t.keys k = some key) : t.setKeyMem k (some key) = t := by
  have hkeys : (fun k' => if k' = k then some key else t.keys k') = t.keys := by
    funext k'
    split
    case isTrue heq => rw [heq, h]
    case isFalse => rfl
  rw [setKeyMem, hkeys]

end PfStateTable

/-! ## The invariant -/

/-- A state has the key, on the wire or on the stack. -/
def PfState.refs (st : PfState) (k : Nat) : Prop := st.wire = some k ∨ st.stack = some k

/-- The keys of the table and their items: no two compare equal, every key has an item, and
    the items of a key are the states that have it, once each. -/
structure KeysOk (t : PfStateTable) : Prop where
  nodup : t.statetbl.Nodup
  distinct : ∀ k ∈ t.statetbl, ∀ k' ∈ t.statetbl, ∀ a b, t.keys k = some a → t.keys k' = some b →
    sameKey a.cmp b.cmp = true → k = k'
  items : ∀ k ∈ t.statetbl, ∃ key, t.keys k = some key ∧ key.states ≠ [] ∧ key.states.Nodup ∧
    ∀ s, s ∈ key.states ↔ ∃ st, t.states s = some st ∧ st.refs k
  refs : ∀ s st k, t.states s = some st → st.refs k → k ∈ t.statetbl

/-- The states, but for one that is being inserted: both keys or none, and the ids. -/
structure StatesOk (x : Option Nat) (t : PfStateTable) : Prop where
  both : ∀ s st, some s ≠ x → t.states s = some st →
    (st.wire = none ↔ st.stack = none) ∧ (st.wire ≠ none → s ∈ t.treeId)
  ids_nodup : t.treeId.Nodup
  ids_states : ∀ s ∈ t.treeId, t.states s ≠ none
  ids_distinct : ∀ s ∈ t.treeId, ∀ s' ∈ t.treeId, ∀ st st', t.states s = some st →
    t.states s' = some st' → st.id = st'.id → st.creatorid = st'.creatorid → s = s'

/-- The invariant between the operations. -/
def TableOk (t : PfStateTable) : Prop := KeysOk t ∧ StatesOk none t

/-- Only the state `s` changes, to `v`; keys that another state has keep what they are
    compared by. -/
structure OnlyState (s : Nat) (v : PfState) (t t' : PfStateTable) : Prop where
  self : t'.states s = some v
  others : ∀ s', s' ≠ s → t'.states s' = t.states s'
  treeId : t'.treeId = t.treeId
  cmps : ∀ s' st k, s' ≠ s → t.states s' = some st → st.refs k →
    (t'.keys k).map PfStateKey.cmp = (t.keys k).map PfStateKey.cmp
  free : ∀ k, k ∉ t.statetbl → t'.keys k = t.keys k
  statetbl : ∀ k ∈ t'.statetbl, k ∈ t.statetbl

theorem OnlyState.refl {t : PfStateTable} {s : Nat} (h : t.states s = some st) :
    OnlyState s st t t :=
  ⟨h, fun _ _ => rfl, rfl, fun _ _ _ _ _ _ => rfl, fun _ _ => rfl, fun _ h => h⟩

theorem OnlyState.trans {s : Nat} {w : PfState} {t t' t'' : PfStateTable} (h : OnlyState s v t t')
    (h' : OnlyState s w t' t'') : OnlyState s w t t'' where
  self := h'.self
  others := fun s' hne => (h'.others s' hne).trans (h.others s' hne)
  treeId := h'.treeId.trans h.treeId
  cmps := fun s' st k hne hst href =>
    (h'.cmps s' st k hne ((h.others s' hne).trans hst) href).trans (h.cmps s' st k hne hst href)
  free := fun k hk => (h'.free k fun hk' => hk (h.statetbl k hk')).trans (h.free k hk)
  statetbl := fun k hk => h.statetbl k (h'.statetbl k hk)

theorem OnlyState.setState {t : PfStateTable} (s : Nat) (v : PfState) :
    OnlyState s v t (t.setState s (some v)) :=
  ⟨t.setState_self_states _, fun _ hne => t.setState_states_of_ne hne _, rfl,
    fun _ _ _ _ _ _ => rfl, fun _ _ => rfl, fun _ h => h⟩

theorem KeysOk.congr {t t' : PfStateTable} (h : KeysOk t) (htbl : t'.statetbl = t.statetbl)
    (hkeys : ∀ k ∈ t.statetbl, t'.keys k = t.keys k)
    (hstates : ∀ s k, (∃ st, t'.states s = some st ∧ st.refs k) ↔
      ∃ st, t.states s = some st ∧ st.refs k) : KeysOk t' where
  nodup := htbl ▸ h.nodup
  distinct := by
    intro k hk k' hk' a b ha hb
    rw [htbl] at hk hk'
    rw [hkeys k hk] at ha
    rw [hkeys k' hk'] at hb
    exact h.distinct k hk k' hk' a b ha hb
  items := by
    intro k hk
    rw [htbl] at hk
    obtain ⟨key, hkey, hne, hnodup, hmem⟩ := h.items k hk
    exact ⟨key, (hkeys k hk).trans hkey, hne, hnodup, fun s => (hmem s).trans (hstates s k).symm⟩
  refs := by
    intro s st k hst href
    obtain ⟨st', hst', href'⟩ := (hstates s k).1 ⟨st, hst, href⟩
    rw [htbl]
    exact h.refs s st' k hst' href'

theorem KeysOk.setState {t : PfStateTable} (h : KeysOk t) {s : Nat} (hst : t.states s = some st)
    (hrefs : ∀ k, v.refs k ↔ st.refs k) : KeysOk (t.setState s (some v)) := by
  refine h.congr rfl (fun _ _ => rfl) fun s' k => ?_
  by_cases hs : s' = s
  · subst hs
    simp [hst, hrefs]
  · rw [t.setState_states_of_ne hs]

theorem KeysOk.setKeyMem {t : PfStateTable} (h : KeysOk t) {k : Nat} (hk : k ∉ t.statetbl)
    (v : Option PfStateKey) : KeysOk (t.setKeyMem k v) := by
  refine h.congr rfl (fun k' hk' => t.setKeyMem_keys_of_ne ?_ v) fun _ _ => Iff.rfl
  rintro rfl
  exact hk hk'

theorem KeysOk.key_of_refs {t : PfStateTable} (h : KeysOk t) {s k : Nat}
    (hst : t.states s = some st) (href : st.refs k) :
    ∃ key, t.keys k = some key ∧ s ∈ key.states := by
  obtain ⟨key, hkey, -, -, hmem⟩ := h.items k (h.refs s st k hst href)
  exact ⟨key, hkey, (hmem s).2 ⟨st, hst, href⟩⟩

/-! ## Detaching -/

/-- The other one of the two keys. -/
def PfSk.other : PfSk → PfSk
  | .wire => .stack
  | .stack => .wire

theorem PfState.refs_iff (st : PfState) (idx : PfSk) (k : Nat) :
    st.refs k ↔ st.key idx = some k ∨ st.key idx.other = some k := by
  cases idx
  · exact Iff.rfl
  · exact or_comm

theorem PfState.refs_setKey_none (st : PfState) (idx : PfSk) (k : Nat) :
    (st.setKey idx none).refs k ↔ st.key idx.other = some k := by
  cases idx <;> simp [PfState.refs, PfState.setKey, PfState.key, PfSk.other]

theorem PfState.setKey_eq_self {idx : PfSk} {v : Option Nat} (h : st.key idx = v) :
    st.setKey idx v = st := by
  cases idx <;> subst h <;> rfl

/-- What becomes of the key of a state that is detached from it. -/
def dropItem (t : PfStateTable) (k : Nat) (key : PfStateKey) (s : Nat) : PfStateTable :=
  if key.states.erase s = [] then { t.setKeyMem k none with statetbl := rbRemove t.statetbl k }
  else t.setKeyMem k (some { key with states := key.states.erase s })

theorem dropItem_states (t : PfStateTable) (k : Nat) (key : PfStateKey) (s : Nat) :
    (dropItem t k key s).states = t.states := by
  rw [dropItem]
  split <;> rfl

theorem dropItem_treeId (t : PfStateTable) (k : Nat) (key : PfStateKey) (s : Nat) :
    (dropItem t k key s).treeId = t.treeId := by
  rw [dropItem]
  split <;> rfl

theorem dropItem_keys_of_ne {t : PfStateTable} {k : Nat} (hne : k' ≠ k) (key : PfStateKey)
    (s : Nat) : (dropItem t k key s).keys k' = t.keys k' := by
  rw [dropItem]
  split <;> exact if_neg hne

theorem mem_dropItem_statetbl {t : PfStateTable} (h : KeysOk t) {k : Nat} (hk : k ∈ t.statetbl)
    {s : Nat} :
    k' ∈ (dropItem t k key s).statetbl ↔
      k' ∈ t.statetbl ∧ (k' = k → key.states.erase s ≠ []) := by
  rw [dropItem]
  split
  case isTrue hnil =>
    rw [rbRemove, if_pos hk, h.nodup.mem_erase_iff]
    constructor
    · exact fun hmem => ⟨hmem.2, fun heq => absurd heq hmem.1⟩
    · exact fun hmem => ⟨fun heq => hmem.2 heq hnil, hmem.1⟩
  case isFalse hnil => exact ⟨fun hmem => ⟨hmem, fun _ => hnil⟩, fun hmem => hmem.1⟩

/-- The item of a state goes, and the key with the last item. -/
theorem KeysOk.dropItem {t : PfStateTable} (h : KeysOk t) {s k : Nat} (hst : t.states s = some st)
    (hkey : t.keys k = some key) (href : st.refs k) (hv : ∀ k', v.refs k' ↔ st.refs k' ∧ k' ≠ k) :
    KeysOk ((Net.dropItem t k key s).setState s (some v)) ∧
      OnlyState s v t ((Net.dropItem t k key s).setState s (some v)) := by
  have hk := h.refs s st k hst href
  obtain ⟨key', hkey', -, hnodup, hmem⟩ := h.items k hk
  have heq : key = key' := Option.some.inj (hkey.symm.trans hkey')
  subst heq
  have hin : ∀ k', k' ∈ (Net.dropItem t k key s).statetbl → k' ∈ t.statetbl := fun k' hk' =>
    ((mem_dropItem_statetbl h hk).1 hk').1
  have hold : ∀ s', s' ≠ s →
      ((Net.dropItem t k key s).setState s (some v)).states s' = t.states s' := by
    intro s' hne
    rw [PfStateTable.setState_states_of_ne hne, dropItem_states]
  -- the key itself while it stays
  have hself : key.states.erase s ≠ [] →
      (Net.dropItem t k key s).keys k = some { key with states := key.states.erase s } := by
    intro hne
    rw [Net.dropItem, if_neg hne, PfStateTable.setKeyMem_self_keys]
  have hkeys : ∀ k' ∈ (Net.dropItem t k key s).statetbl, ∀ a,
      (Net.dropItem t k key s).keys k' = some a → ∃ b, t.keys k' = some b ∧ b.cmp = a.cmp := by
    intro k' hk' a ha
    by_cases hkk : k' = k
    · subst hkk
      rw [hself (((mem_dropItem_statetbl h hk).1 hk').2 rfl)] at ha
      cases ha
      exact ⟨key, hkey, rfl⟩
    · rw [dropItem_keys_of_ne hkk] at ha
      exact ⟨a, ha, rfl⟩
  refine ⟨⟨?_, ?_, ?_, ?_⟩, ⟨?_, hold, ?_, ?_, ?_, hin⟩⟩
  · rw [PfStateTable.setState_statetbl, Net.dropItem]
    split
    · rw [rbRemove, if_pos hk]
      exact h.nodup.erase k
    · exact h.nodup
  · intro k₁ hk₁ k₂ hk₂ a b ha hb hsame
    obtain ⟨a', ha', hacmp⟩ := hkeys k₁ hk₁ a ha
    obtain ⟨b', hb', hbcmp⟩ := hkeys k₂ hk₂ b hb
    rw [← hacmp, ← hbcmp] at hsame
    exact h.distinct k₁ (hin k₁ hk₁) k₂ (hin k₂ hk₂) a' b' ha' hb' hsame
  · intro k' hk'
    by_cases hkk : k' = k
    · subst hkk
      have hne := ((mem_dropItem_statetbl h hk).1 hk').2 rfl
      refine ⟨_, hself hne, hne, hnodup.erase s, fun s' => ?_⟩
      rw [hnodup.mem_erase_iff, hmem s']
      by_cases hss : s' = s
      · subst hss
        simp [hv]
      · rw [hold s' hss]
        simp [hss]
    · obtain ⟨key₂, hkey₂, hne₂, hnodup₂, hmem₂⟩ := h.items k' (hin k' hk')
      refine ⟨key₂, (dropItem_keys_of_ne hkk key s).trans hkey₂, hne₂, hnodup₂, fun s' => ?_⟩
      rw [hmem₂ s']
      by_cases hss : s' = s
      · subst hss
        simp [hst, hv, hkk]
      · rw [hold s' hss]
  · intro s' st' k' hst' href'
    rw [PfStateTable.setState_statetbl, mem_dropItem_statetbl h hk]
    by_cases hss : s' = s
    · subst hss
      rw [PfStateTable.setState_self_states] at hst'
      cases hst'
      have hrefs := (hv k').1 href'
      exact ⟨h.refs s' st k' hst hrefs.1, fun heq => absurd heq hrefs.2⟩
    · rw [hold s' hss] at hst'
      refine ⟨h.refs s' st' k' hst' href', fun heq => ?_⟩
      subst heq
      exact List.ne_nil_of_mem (hnodup.mem_erase_iff.2 ⟨hss, (hmem s').2 ⟨st', hst', href'⟩⟩)
  · exact PfStateTable.setState_self_states _
  · exact dropItem_treeId t k key s
  · intro s' st' k' hss hst' href'
    rw [PfStateTable.setState_keys]
    by_cases hkk : k' = k
    · subst hkk
      have hne : key.states.erase s ≠ [] :=
        List.ne_nil_of_mem (hnodup.mem_erase_iff.2 ⟨hss, (hmem s').2 ⟨st', hst', href'⟩⟩)
      rw [hself hne, hkey]
      rfl
    · rw [dropItem_keys_of_ne hkk]
  · intro k' hk'
    rw [PfStateTable.setState_keys, dropItem_keys_of_ne]
    rintro rfl
    exact hk' hk

theorem pfStateKeyDetach_spec {t : PfStateTable} (idx : PfSk) (h : KeysOk t) {s : Nat}
    (hst : t.states s = some st) (hother : ∀ k, st.key idx = some k → st.key idx.other ≠ some k) :
    ∃ t', pfStateKeyDetach t s idx = some t' ∧ KeysOk t' ∧
      OnlyState s (st.setKey idx none) t t' := by
  cases hidx : st.key idx with
  | none =>
    rw [PfState.setKey_eq_self hidx]
    refine ⟨t, ?_, h, OnlyState.refl hst⟩
    simp only [pfStateKeyDetach, hst, hidx]
  | some k =>
    have href : st.refs k := (st.refs_iff idx k).2 (.inl hidx)
    obtain ⟨key, hkey, -⟩ := h.key_of_refs hst href
    have hv : ∀ k', (st.setKey idx none).refs k' ↔ st.refs k' ∧ k' ≠ k := by
      intro k'
      rw [st.refs_setKey_none, st.refs_iff idx, hidx]
      constructor
      · intro hk'
        refine ⟨.inr hk', ?_⟩
        rintro rfl
        exact hother k' hidx hk'
      · rintro ⟨hk' | hk', hne⟩
        · exact absurd (Option.some.inj hk').symm hne
        · exact hk'
    have hgo := h.dropItem hst hkey href hv
    refine ⟨_, ?_, hgo⟩
    simp only [pfStateKeyDetach, hst, hidx, hkey]
    rfl

/-- The state without its keys. -/
def PfState.detached (st : PfState) : PfState := { st with wire := none, stack := none }

theorem pfDetachState_spec {t : PfStateTable} (h : KeysOk t) {s : Nat}
    (hst : t.states s = some st) :
    ∃ t', pfDetachState t s = some t' ∧ KeysOk t' ∧ OnlyState s st.detached t t' := by
  -- detaching both keys when they differ
  have hboth : ∀ t₀ st₀, KeysOk t₀ → t₀.states s = some st₀ →
      (∀ k, st₀.stack = some k → st₀.wire ≠ some k) →
      ∃ t', ((pfStateKeyDetach t₀ s .stack).bind fun t => pfStateKeyDetach t s .wire) = some t' ∧
        KeysOk t' ∧ OnlyState s st₀.detached t₀ t' := by
    intro t₀ st₀ h₀ hst₀ hne
    have hne' : ∀ k, st₀.key .stack = some k → st₀.key PfSk.stack.other ≠ some k := hne
    obtain ⟨t₁, hdet₁, h₁, honly₁⟩ := pfStateKeyDetach_spec .stack h₀ hst₀ hne'
    have hnone : ∀ k, (st₀.setKey .stack none).key .wire = some k →
        (st₀.setKey .stack none).key PfSk.wire.other ≠ some k := by
      intro k _ hk
      cases hk
    obtain ⟨t₂, hdet₂, h₂, honly₂⟩ := pfStateKeyDetach_spec .wire h₁ honly₁.self hnone
    refine ⟨t₂, ?_, h₂, honly₁.trans honly₂⟩
    rw [hdet₁, Option.bind_some, hdet₂]
  by_cases heq : st.wire = st.stack
  · have hrefs : ∀ k, ({ st with wire := none } : PfState).refs k ↔ st.refs k := by
      intro k
      simp [PfState.refs, heq]
    obtain ⟨t', hdet, hok, honly⟩ := hboth _ _ (h.setState hst hrefs)
      (PfStateTable.setState_self_states _) (by simp)
    refine ⟨t', ?_, hok, (OnlyState.setState s _).trans honly⟩
    simp only [pfDetachState, hst, if_pos heq]
    exact hdet
  · obtain ⟨t', hdet, hok, honly⟩ := hboth t st h hst (fun k hk hw => heq (hw.trans hk.symm))
    refine ⟨t', ?_, hok, honly⟩
    simp only [pfDetachState, hst, if_neg heq]
    exact hdet

end OpenBsd.Net
