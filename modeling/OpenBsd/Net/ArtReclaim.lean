/-
  OpenBsd.Net.ArtReclaim

  Which tables of `sys/net/art.c` are allocated.  `art_table_get` counts a new table in the
  table itself, so that a count never gets to 0: a table stays when no route needs it any
  more.
-/

import OpenBsd.Net.ArtRun

namespace OpenBsd.Net

open OpenBsd.Lib List

section

variable {ν τ : Type}

/-- The table at a string, from the root along the heaps. -/
inductive ArtReach (s : ArtState ν τ) : List Bool → τ → Prop where
  | root : ArtReach s [] s.ar.root
  | child {g u : List Bool} {t c : τ} {tbl : ArtTable ν τ} :
      ArtReach s g t → s.mem t = some tbl → u.length = tbl.bits →
        tbl.heap (heapIdx u) = .child c → ArtReach s (u ++ g) c

/-- A string is on the way to a prefix. -/
def OnPath (g p : List Bool) : Prop := g <:+ p ∧ g.length < p.length

/-- The allocated tables are the root and those on the way to a prefix. -/
def TablesExact (s : ArtState ν τ) : Prop :=
  ∀ t, (s.mem t).isSome ↔ t = s.ar.root ∨ ∃ e ∈ s.routes, ∃ g, ArtReach s g t ∧ OnPath g e.1

/-- The table of a prefix is the root or on the way to another prefix. -/
def TableShared (s : ArtState ν τ) (p : List Bool) : Prop :=
  strideHead s.ar.bits p = [] ∨
    ∃ e ∈ s.routes, e.1 ≠ p ∧ OnPath (strideHead s.ar.bits p) e.1

/-- What is inserted is not there yet, and `malloc` does not fail. -/
def InsertsAbsent (s : ArtState ν τ) : ArtCall ν τ → Prop
  | .insert _ addr plen news =>
    (∀ an, (addrPrefix addr plen, an) ∉ s.routes) ∧
      (∀ x ∈ news, x.isSome) ∧ s.ar.bits.length ≤ news.length
  | .delete _ _ _ => True

/-- What is deleted leaves its table in use. -/
def KeepsTables (s : ArtState ν τ) (e : ArtCall ν τ) : Prop :=
  InsertsAbsent s e ∧
    match e with
    | .insert _ _ _ _ => True
    | .delete _ addr plen => TableShared s (addrPrefix addr plen)

variable {s : ArtState ν τ} {T : List Bool → Option τ} {g p : List Bool} {t : τ}

/-! ## Tables and strings -/

/-- Where a table stands. -/
theorem ArtInv.reach_iff (h : ArtInv s T) : ArtReach s g t ↔ T g = some t := by
  constructor
  · intro hreach
    induction hreach with
    | root => exact h.rep.root
    | @child g u t c tbl _ hmem hu hitem ih =>
      obtain ⟨tbl', hmem', ht⟩ := h.rep.table _ _ ih
      obtain rfl : tbl = tbl' := Option.some.inj (hmem.symm.trans hmem')
      have hfringe := ht.fringe u hu
      rw [hitem, artItem] at hfringe
      cases hc : T (u ++ g) with
      | none =>
        rw [hc] at hfringe
        cases hfringe
      | some c' =>
        rw [hc] at hfringe
        rw [ArtItem.child.inj hfringe]
  · intro hT
    generalize hn : g.length = n
    induction n using Nat.strongRecOn generalizing g t with
    | _ n ih =>
      by_cases hnil : g = []
      · subst hnil
        rw [Option.some.inj (hT.symm.trans h.rep.root)]
        exact .root
      · -- the table above has the slot
        obtain ⟨tbl, -, ht⟩ := h.rep.table _ _ hT
        obtain ⟨t', hT'⟩ := Option.isSome_iff_exists.1
          (h.rep.up g hnil (Option.isSome_of_eq_some hT))
        obtain ⟨tbl', hmem', ht'⟩ := h.rep.table _ _ hT'
        have hlt := strideStart_lt s.ar.bits (length_pos_iff.2 hnil)
        have hlen : (strideHead s.ar.bits g).length = strideStart s.ar.bits g.length := by
          rw [strideHead, length_drop]
          omega
        have hle := ht'.le_of_strideStart h.rep.strides hlen.symm
        have hlevel : tbl'.level < tbl.level := by
          by_contra hge
          have hmono := strideSum_mono s.ar.bits (Nat.le_of_not_lt hge)
          rw [← ht.start, ← ht'.start] at hmono
          omega
        have hmono := strideSum_mono s.ar.bits (Nat.succ_le_of_lt hlevel)
        rw [Nat.succ_eq_add_one, strideSum_succ ht'.stride, ← ht.start, ← ht'.start] at hmono
        have hsplit : g.take (g.length - strideStart s.ar.bits g.length)
            ++ strideHead s.ar.bits g = g := take_append_drop ..
        have hu : (g.take (g.length - strideStart s.ar.bits g.length)).length = tbl'.bits := by
          rw [length_take]
          omega
        have hitem := ht'.fringe _ hu
        rw [hsplit, artItem, hT] at hitem
        have hreach := ArtReach.child (ih _ (by omega) hT' hlen) hmem' hu hitem
        rwa [hsplit] at hreach

theorem ArtInv.alloc_iff (h : ArtInv s T) : (s.mem t).isSome ↔ ∃ g, T g = some t := by
  refine ⟨h.rep.alloc t, ?_⟩
  rintro ⟨g, hg⟩
  obtain ⟨tbl, hmem, -⟩ := h.rep.table _ _ hg
  rw [hmem]
  rfl

theorem ArtInv.suffix_strideHead (h : ArtInv s T) (hT : (T g).isSome) (hpath : OnPath g p) :
    g <:+ strideHead s.ar.bits p := by
  obtain ⟨t, ht⟩ := Option.isSome_iff_exists.1 hT
  obtain ⟨tbl, -, hrep⟩ := h.rep.table _ _ ht
  have hstart := strideSum_le_strideStart (hrep.start ▸ hpath.2)
  have hlt := strideStart_lt s.ar.bits (Nat.zero_lt_of_lt hpath.2)
  have hhead : strideHead s.ar.bits p <:+ p := drop_suffix ..
  refine suffix_of_suffix_length_le hpath.1 hhead ?_
  rw [strideHead, length_drop, hrep.start]
  omega

/-! ## Tables in use -/

/-- Every table but the root is on the way to a prefix. -/
def TablesUsed (s : ArtState ν τ) (T : List Bool → Option τ) : Prop :=
  ∀ g, (T g).isSome → g = [] ∨ ∃ e ∈ s.routes, OnPath g e.1

theorem ArtInv.tablesExact_iff (h : ArtInv s T) : TablesExact s ↔ TablesUsed s T := by
  constructor
  · intro hexact g hg
    obtain ⟨t, ht⟩ := Option.isSome_iff_exists.1 hg
    rcases (hexact t).1 (h.alloc_iff.2 ⟨g, ht⟩) with rfl | ⟨e, he, g', hreach, hpath⟩
    · exact .inl (h.rep.inj ht h.rep.root)
    · rw [h.reach_iff] at hreach
      rw [h.rep.inj ht hreach]
      exact .inr ⟨e, he, hpath⟩
  · intro hused t
    rw [h.alloc_iff]
    constructor
    · rintro ⟨g, hg⟩
      rcases hused g (Option.isSome_of_eq_some hg) with rfl | ⟨e, he, hpath⟩
      · exact .inl (Option.some.inj (hg.symm.trans h.rep.root))
      · exact .inr ⟨e, he, g, h.reach_iff.2 hg, hpath⟩
    · rintro (rfl | ⟨e, -, g, hreach, -⟩)
      · exact ⟨[], h.rep.root⟩
      · exact ⟨g, h.reach_iff.1 hreach⟩

theorem ArtInv.tablesUsed_filter (h : ArtInv s T) (hused : TablesUsed s T)
    (hp : ∃ an, (p, an) ∈ s.routes) {s' : ArtState ν τ}
    (hroutes : s'.routes = s.routes.filter fun e => e.1 ≠ p) :
    TablesUsed s' T ↔ TableShared s p := by
  obtain ⟨an, han⟩ := hp
  have hkeep : ∀ e, e ∈ s'.routes ↔ e ∈ s.routes ∧ e.1 ≠ p := by
    intro e
    rw [hroutes, mem_filter, decide_eq_true_iff]
  constructor
  · intro hused'
    by_cases hnil : p = []
    · subst hnil
      exact .inl drop_nil
    · rcases hused' _ (h.home _ han hnil) with hroot | ⟨e, he, hpath⟩
      · exact .inl hroot
      · obtain ⟨he, hne⟩ := (hkeep e).1 he
        exact .inr ⟨e, he, hne, hpath⟩
  · intro hshared g hg
    rcases hused g hg with hnil | ⟨e, he, hpath⟩
    · exact .inl hnil
    · by_cases hne : e.1 = p
      · -- what is on the way to the prefix is on the way to the other one
        have hsuffix := h.suffix_strideHead hg (hne ▸ hpath)
        rcases hshared with hroot | ⟨e', he', hne', hpath'⟩
        · rw [hroot] at hsuffix
          exact .inl (suffix_nil.1 hsuffix)
        · exact .inr ⟨e', (hkeep e').2 ⟨he', hne'⟩, hsuffix.trans hpath'.1,
            Nat.lt_of_le_of_lt hsuffix.length_le hpath'.2⟩
      · exact .inr ⟨e, (hkeep e).2 ⟨he, hne⟩, hpath⟩

/-! ## Calls -/

variable [DecidableEq ν] [DecidableEq τ] {s' : ArtState ν τ} {e : ArtCall ν τ}

theorem ArtInv.step_allocated (h : ArtInv s T) (hstep : artStep s e = some s')
    (ht : (s.mem t).isSome) : (s'.mem t).isSome := by
  obtain ⟨g, hg⟩ := h.alloc_iff.1 ht
  cases e with
  | insert an addr plen news =>
    obtain ⟨hplen, hfresh, hnews⟩ := artStep_insert_allowed hstep
    obtain ⟨s'', T', hstep', hins⟩ := h.insert an addr plen hplen hfresh hnews
    obtain rfl := Option.some.inj (hstep.symm.trans hstep')
    exact hins.inv.alloc_iff.2 ⟨g, hins.mono g t hg⟩
  | delete an addr plen =>
    obtain ⟨hplen, hmem⟩ := artStep_delete_allowed hstep
    obtain ⟨s'', hstep', hinv, -⟩ := h.delete hplen hmem
    obtain rfl := Option.some.inj (hstep.symm.trans hstep')
    exact hinv.alloc_iff.2 ⟨g, hg⟩

theorem ArtInv.tablesExact_step (h : ArtInv s T) (hused : TablesUsed s T)
    (hok : InsertsAbsent s e) (hstep : artStep s e = some s') :
    ∃ T', ArtInv s' T' ∧ (TablesUsed s' T' ↔ KeepsTables s e) := by
  cases e with
  | insert an addr plen news =>
    obtain ⟨hplen, hfresh, hnews⟩ := artStep_insert_allowed hstep
    obtain ⟨s'', T', hstep', hins⟩ := h.insert an addr plen hplen hfresh hnews
    obtain rfl := Option.some.inj (hstep.symm.trans hstep')
    refine ⟨T', hins.inv, fun _ => ⟨hok, trivial⟩, fun _ g hg => ?_⟩
    obtain ⟨habsent, hall, henough⟩ := hok
    have hroutes := hins.enough hall henough (routeOf_eq_none_iff.2 habsent)
    rw [hroutes]
    rcases hins.path g hg with hold | ⟨m, hm, rfl⟩
    · rcases hused g hold with hnil | ⟨e, he, hpath⟩
      · exact .inl hnil
      · exact .inr ⟨e, mem_cons_of_mem _ he, hpath⟩
    · -- a new table is on the way to the new prefix
      refine .inr ⟨_, mem_cons_self, addrPrefix_suffix (Nat.le_of_lt hm), ?_⟩
      rwa [length_addrPrefix, length_addrPrefix]
  | delete an addr plen =>
    obtain ⟨hplen, hmem⟩ := artStep_delete_allowed hstep
    obtain ⟨s'', hstep', hinv, -, hroutes⟩ := h.delete hplen hmem
    obtain rfl := Option.some.inj (hstep.symm.trans hstep')
    refine ⟨T, hinv, ?_⟩
    rw [h.tablesUsed_filter hused ⟨an, hmem⟩ hroutes]
    exact ⟨fun hshared => ⟨trivial, hshared⟩, fun hkeep => hkeep.2⟩

/-! ## Runs -/

variable {s₀ : ArtState ν τ} {es : List (ArtCall ν τ)}

theorem tablesExact_of_run (h : ArtInv s₀ T) (hused : TablesUsed s₀ T)
    (hrun : Run artStep KeepsTables s₀ es s) : TablesExact s := by
  have hstep : ∀ (s : ArtState ν τ) (e : ArtCall ν τ) (s' : ArtState ν τ),
      (∃ T, ArtInv s T ∧ TablesUsed s T) → KeepsTables s e → artStep s e = some s' →
        ∃ T, ArtInv s' T ∧ TablesUsed s' T := by
    rintro s e s' ⟨T, h, hused⟩ hok hstep
    obtain ⟨T', h', hiff⟩ := h.tablesExact_step hused hok.1 hstep
    exact ⟨T', h', hiff.2 hok⟩
  obtain ⟨T', h', hused'⟩ := hrun.invariant hstep ⟨T, h, hused⟩
  exact h'.tablesExact_iff.2 hused'

theorem keepsTables_of_exact (h : ArtInv s₀ T) (hused : TablesUsed s₀ T)
    (hrun : Run artStep InsertsAbsent s₀ es s)
    (hexact : ∀ es₁ s₁, es₁ <+: es → Run artStep InsertsAbsent s₀ es₁ s₁ → TablesExact s₁) :
    Run artStep KeepsTables s₀ es s := by
  induction hrun generalizing T with
  | nil s => exact .nil s
  | @cons s s' s'' e es hok hstep hrest ih =>
    obtain ⟨T', h', hiff⟩ := h.tablesExact_step hused hok hstep
    have hfirst : Run artStep InsertsAbsent s [e] s' := .cons hok hstep (.nil s')
    have hused' := h'.tablesExact_iff.1 (hexact [e] s' ⟨es, rfl⟩ hfirst)
    refine .cons (hiff.1 hused') hstep (ih h' hused' fun es₁ s₁ hes hrun₁ => ?_)
    exact hexact (e :: es₁) s₁ (cons_prefix_cons.2 ⟨rfl, hes⟩) (.cons hok hstep hrun₁)

omit [DecidableEq ν] [DecidableEq τ] in
theorem tablesUsed_init {ar : ArtRoot τ} {mem : ArtMem ν τ} {plenOf : ν → Nat} :
    TablesUsed (artInit plenOf ar mem) (onlyRoot ar.root) := by
  intro g hg
  by_contra hne
  rw [onlyRoot, if_neg fun hnil => hne (.inl hnil)] at hg
  cases hg

variable {off : Nat} {new : Option τ} {ar : ArtRoot τ} {mem : ArtMem ν τ} {plenOf : ν → Nat}

/-- In a run that inserts absent prefixes while `malloc` does not fail, the allocated tables are
    always those on the way to a prefix just if each deletion leaves the table of its prefix in
    use; no call frees a table. -/
theorem tablesExact_iff_keepsTables (hinit : artAttach off new = some (ar, mem))
    (hrun : Run artStep InsertsAbsent (artInit plenOf ar mem) es s) :
    ((∀ es₁ s₁, es₁ <+: es → Run artStep InsertsAbsent (artInit plenOf ar mem) es₁ s₁ →
        TablesExact s₁) ↔ Run artStep KeepsTables (artInit plenOf ar mem) es s) ∧
      ∀ e s', artStep s e = some s' → ∀ t, (s.mem t).isSome → (s'.mem t).isSome := by
  have h := artInv_init hinit plenOf
  refine ⟨⟨keepsTables_of_exact h tablesUsed_init hrun, fun hkeeps es₁ s₁ hes hrun₁ => ?_⟩, ?_⟩
  · exact tablesExact_of_run h tablesUsed_init (hkeeps.initial hes hrun₁)
  · intro e s' hstep t ht
    obtain ⟨T, hinv⟩ := exists_artInv hinit hrun
    exact hinv.step_allocated hstep ht

theorem insertsAbsent_insertTen (mem : ArtMem Nat Nat) (plen : Nat) :
    InsertsAbsent (artInit (fun _ => 0) arTen mem) (insertTen plen) :=
  ⟨fun _ => not_mem_nil, by decide, Nat.le_refl 3⟩

theorem tablesExact_iff_keepsTables_ten : ∃ mem s, artAttach 32 (some 0) = some (arTen, mem) ∧
    Run artStep InsertsAbsent (artInit (fun _ => 0) arTen mem) [insertTen 24] s ∧
    TablesExact s := by
  obtain ⟨mem, s, T, hinit, hstep, -⟩ := exists_insertTen 24 (by decide)
  have hrun := Run.cons (insertsAbsent_insertTen mem 24) hstep (.nil s)
  have hkeeps : Run artStep KeepsTables (artInit (fun _ => 0) arTen mem) [insertTen 24] s :=
    .cons ⟨insertsAbsent_insertTen mem 24, trivial⟩ hstep (.nil s)
  exact ⟨mem, s, hinit, hrun,
    (tablesExact_iff_keepsTables hinit hrun).1.2 hkeeps _ s prefix_rfl hrun⟩

/-- When 10.0.0.0/24 is inserted and deleted, there are no routes but still subtables. -/
theorem tables_left_behind : ∃ mem s, artAttach 32 (some 0) = some (arTen, mem) ∧
    Run artStep InsertsAbsent (artInit (fun _ => 0) arTen mem)
      [insertTen 24, .delete 7 addrTen 24] s ∧
    s.routes = [] ∧ ¬ TablesExact s ∧ ∃ t, t ≠ s.ar.root ∧ (s.mem t).isSome := by
  obtain ⟨mem, s, T, hinit, hstep, h, har, hroutes⟩ := exists_insertTen 24 (by decide)
  have hmem : (addrPrefix addrTen 24, 7) ∈ s.routes := by
    rw [hroutes]
    exact mem_singleton_self _
  obtain ⟨s', hstep', h', har', hroutes'⟩ := h.delete (by rw [har]; decide) hmem
  have hnone : s'.routes = [] := by
    rw [hroutes', hroutes]
    rfl
  -- the table of the deleted prefix
  obtain ⟨t, ht⟩ := Option.isSome_iff_exists.1 (h.home _ hmem (by decide))
  have halloc := h'.alloc_iff.2 ⟨_, ht⟩
  have hroot : t ≠ s'.ar.root := by
    intro heq
    have hnil := h'.rep.inj ht (heq ▸ h'.rep.root)
    rw [har] at hnil
    exact absurd hnil (by decide)
  refine ⟨mem, s', hinit, .cons (insertsAbsent_insertTen mem 24) hstep
    (.cons trivial hstep' (.nil s')), hnone, fun hexact => ?_, t, hroot, halloc⟩
  rcases (hexact t).1 halloc with hisroot | ⟨e, he, -⟩
  · exact hroot hisroot
  · rw [hnone] at he
    exact absurd he not_mem_nil

end

end OpenBsd.Net
