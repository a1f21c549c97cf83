/-
  OpenBsd.Net.PfSkip

  The skip pointers that `pf_calc_skip_steps` sets lead over rules only that fail for the
  same reason, so that the evaluation with them is the evaluation of every rule in turn.
-/

import OpenBsd.Net.PfTestAttrib
import OpenBsd.Net.PfEval

namespace OpenBsd.Net

open OpenBsd.Lib List

variable {i : PfSkip} {rules : List PfRuleBody} {r : PfRuleBody} {s : SkipCalc} {n : Nat}

/-! ## Equal neighbours fail together -/

theorem eq_of_pfAneq {a b : PfAddr} (h : pfAneq a b = false) : a = b := by
  cases a
  cases b
  simp only [pfAneq, Bool.or_eq_false_iff, bne_eq_false_iff_eq] at h
  simp only [PfAddr.mk.injEq]
  omega

theorem eq_of_pfAddrWrapNeq {aw aw' : PfAddrWrap} (h : pfAddrWrapNeq aw aw' = false) :
    aw = aw' := by
  cases aw <;> cases aw' <;> simp only [pfAddrWrapNeq, Bool.or_eq_false_iff, bne_eq_false_iff_eq,
    reduceCtorEq] at h ⊢
  case addrmask.addrmask => rw [eq_of_pfAneq h.1, eq_of_pfAneq h.2]
  case range.range => rw [eq_of_pfAneq h.1, eq_of_pfAneq h.2]
  case dyniftl.dyniftl => rw [h]
  case table.table => rw [h]
  case rtlabel.rtlabel => rw [h]

section Skip

variable {ω : Type} (lk : PfLookup ω) (p : PfPacket)

theorem skipTest_eq {cur prev : PfRuleBody} (h : skipNeq cur prev i = false) (st : PfEvalState ω) :
    skipTest lk p st cur i = skipTest lk p st prev i := by
  cases i <;> simp only [skipNeq, portNeq, Bool.or_eq_false_iff, bne_eq_false_iff_eq] at h
  case ifp => simp only [skipTest, h.1, h.2]
  case dir => simp only [skipTest, h]
  case rdom => simp only [skipTest, h.1, h.2]
  case af => simp only [skipTest, h]
  case proto => simp only [skipTest, h]
  case srcAddr => simp only [skipTest, h.1, eq_of_pfAddrWrapNeq h.2]
  case dstAddr => simp only [skipTest, h.1, eq_of_pfAddrWrapNeq h.2]
  case srcPort => simp only [skipTest, portMismatch, h.1.1, h.1.2, h.2]
  case dstPort => simp only [skipTest, portMismatch, h.1.1, h.1.2, h.2]

/-- The rules from `a` to before `b` are equal in what is compared for `i`. -/
def SameRun (rules : List PfRuleBody) (i : PfSkip) (a b : Nat) : Prop :=
  ∀ k c prev, a ≤ k → k + 1 < b → rules[k + 1]? = some c → rules[k]? = some prev →
    skipNeq c prev i = false

theorem SameRun.skipTest_eq {a b : Nat} (h : SameRun rules i a b) (st : PfEvalState ω)
    (hr : rules[a]? = some r) :
    ∀ n q, a + n < b → rules[a + n]? = some q →
      skipTest lk p st q i = skipTest lk p st r i := by
  intro n
  induction n with
  | zero =>
    intro q _ hq
    have hqr : q = r := Option.some.inj (hq.symm.trans hr)
    rw [hqr]
  | succ n ih =>
    intro q hlt hq
    obtain ⟨hbound, -⟩ := List.getElem?_eq_some_iff.1 hq
    have hprev : rules[a + n]? = some rules[a + n] := getElem?_eq_getElem (by omega)
    rw [Net.skipTest_eq lk p (h (a + n) q _ (by omega) (by omega) hq hprev) st]
    exact ih _ (by omega) hprev

/-! ## Failing by the tests without an effect -/

/-- The tests with a skip pointer that are made for the packet. -/
def hasSkip : PfSkip → Bool
  | .srcPort => p.virtualProto == ipprotoTcp || p.virtualProto == ipprotoUdp
  | .dstPort => p.virtualProto == ipprotoTcp || p.virtualProto == ipprotoUdp
  | _ => true

variable {st : PfEvalState ω}

theorem pfGuards_not_hit {g : Bool × PfTest PfSkip} (h : g ∈ pfGuards lk p st r) : g.2 ≠ .hit := by
  rw [pfGuards, mem_append] at h
  rcases h with h | h
  · obtain ⟨i, -, rfl⟩ := mem_map.1 h
    simp [skipGuard]
  · split_ifs at h <;> simp only [mem_cons, not_mem_nil, or_false, skipGuard] at h
    all_goals (rcases h with rfl | rfl | rfl | rfl) <;> simp

theorem skipGuard_of_mem {b : Bool} (h : (b, PfTest.skip i) ∈ pfGuards lk p st r) :
    b = skipTest lk p st r i ∧ hasSkip p i = true := by
  rw [pfGuards, mem_append] at h
  rcases h with h | h
  · simp only [map_cons, map_nil, skipGuard, mem_cons, Prod.mk.injEq,
      PfTest.skip.injEq, not_mem_nil, or_false] at h
    rcases h with ⟨rfl, rfl⟩ | ⟨rfl, rfl⟩ | ⟨rfl, rfl⟩ | ⟨rfl, rfl⟩ | ⟨rfl, rfl⟩ | ⟨rfl, rfl⟩ |
      ⟨rfl, rfl⟩ <;> exact ⟨rfl, rfl⟩
  · split_ifs at h with hfrag htcp hudp hicmp <;>
      simp only [mem_cons, not_mem_nil, or_false, skipGuard, Prod.mk.injEq,
        PfTest.skip.injEq, reduceCtorEq, and_false, false_or] at h
    · rcases h with ⟨rfl, rfl⟩ | ⟨rfl, rfl⟩ <;> exact ⟨rfl, by simp [hasSkip, htcp]⟩
    · rcases h with ⟨rfl, rfl⟩ | ⟨rfl, rfl⟩ <;> exact ⟨rfl, by simp [hasSkip, hudp]⟩

theorem skipGuard_mem (h : hasSkip p i = true) (st : PfEvalState ω) (r : PfRuleBody) :
    skipGuard lk p st r i ∈ pfGuards lk p st r := by
  rw [pfGuards, mem_append]
  have hports : p.virtualProto = ipprotoTcp ∨ p.virtualProto = ipprotoUdp →
      p.virtualProto ≠ pfVprotoFragment := by
    rintro (h | h) <;> rw [h] <;> decide
  cases i
  case srcPort =>
    simp only [hasSkip, Bool.or_eq_true, beq_iff_eq] at h
    rw [if_neg (hports h)]
    rcases h with h | h
    · simp [h]
    · simp [h, ipprotoUdp, ipprotoTcp]
  case dstPort =>
    simp only [hasSkip, Bool.or_eq_true, beq_iff_eq] at h
    rw [if_neg (hports h)]
    rcases h with h | h
    · simp [h]
    · simp [h, ipprotoUdp, ipprotoTcp]
  all_goals exact .inl (mem_map_of_mem (by decide))

theorem pfTestTail_not_skip : (pfTestTail lk p st r).2 ≠ .skip i := by
  have hstep : ∀ (t : PfEvalState ω × Bool) (k : PfEvalState ω → PfEvalState ω × PfTest PfSkip),
      (∀ st, (k st).2 ≠ .skip i) → (testNext t k).2 ≠ .skip i := by
    intro t k hk
    rw [testNext]
    split
    · simp
    · exact hk t.1
  rw [pfTestTail]
  iterate 8 refine hstep _ _ fun st => ?_
  simp

theorem skipTest_of_skip (h : (pfTestAttribs lk p st r).2 = .skip i) :
    skipTest lk p st r i = true ∧ hasSkip p i = true := by
  rw [pfTestAttribs] at h
  split at h
  case h_1 b t hfind =>
    dsimp only at h
    subst h
    obtain ⟨hb, hskip⟩ := skipGuard_of_mem lk p (mem_of_find?_eq_some hfind)
    have htrue : b = true := find?_some hfind
    exact ⟨hb ▸ htrue, hskip⟩
  case h_2 => exact absurd h (pfTestTail_not_skip lk p)

theorem fails_of_skipTest (hskip : hasSkip p i = true)
    (h : skipTest lk p st r i = true) : Fails (pfEngine lk p) st r := by
  have hmem := skipGuard_mem lk p hskip st r
  have hsome : ((pfGuards lk p st r).find? Prod.fst).isSome := by
    rw [find?_isSome]
    exact ⟨_, hmem, h⟩
  obtain ⟨⟨b, t⟩, hfind⟩ := Option.isSome_iff_exists.1 hsome
  have htest : (pfEngine lk p).test st r = (st, t) := by
    rw [pfEngine]
    simp only [pfTestAttribs, hfind]
  rw [Fails, htest]
  exact ⟨rfl, pfGuards_not_hit lk p (mem_of_find?_eq_some hfind)⟩

end Skip

/-! ## The chains -/

/-- The two agree on the chain of `i`. -/
def SameChain (i : PfSkip) (s s' : SkipCalc) : Prop :=
  s.head i = s'.head i ∧ ∀ k, s.skip k i = s'.skip k i

theorem SameChain.trans {t u : SkipCalc} (h : SameChain i s t) (h' : SameChain i t u) :
    SameChain i s u :=
  ⟨h.1.trans h'.1, fun k => (h.2 k).trans (h'.2 k)⟩

theorem pfSetSkipSteps_other {j : PfSkip} (hne : j ≠ i) (cur : Nat) :
    ∀ fuel s, SameChain j (pfSetSkipSteps i cur fuel s) s := by
  intro fuel
  induction fuel with
  | zero => exact fun s => ⟨rfl, fun _ => rfl⟩
  | succ fuel ih =>
    intro s
    rw [pfSetSkipSteps]
    split
    · exact ⟨rfl, fun _ => rfl⟩
    · refine (ih _).trans ⟨if_neg hne, fun k => if_neg fun h => hne h.2⟩

theorem pfSetSkipSteps_self (i : PfSkip) (cur : Nat) :
    ∀ fuel s, s.head i ≤ cur → cur ≤ s.head i + fuel →
      (pfSetSkipSteps i cur fuel s).head i = cur ∧
      (∀ k < s.head i, (pfSetSkipSteps i cur fuel s).skip k i = s.skip k i) ∧
      ∀ k, s.head i ≤ k → k < cur → (pfSetSkipSteps i cur fuel s).skip k i = cur := by
  intro fuel
  induction fuel with
  | zero =>
    intro s hle hfuel
    exact ⟨by rw [pfSetSkipSteps]; omega, fun _ _ => rfl, fun k h h' => by omega⟩
  | succ fuel ih =>
    intro s hle hfuel
    rw [pfSetSkipSteps]
    split
    case isTrue heq => exact ⟨heq, fun _ _ => rfl, fun k h h' => by omega⟩
    case isFalse hne =>
      obtain ⟨hhead, hbelow, habove⟩ := ih
        { head := fun j => if j = i then s.head i + 1 else s.head j
          skip := fun k j => if k = s.head i ∧ j = i then cur else s.skip k j }
        (by simp only [if_true]; omega) (by simp only [if_true]; omega)
      simp only [if_true, and_true] at hbelow habove
      refine ⟨hhead, fun k hk => ?_, fun k hk hcur => ?_⟩
      · rw [hbelow k (by omega), if_neg (by omega)]
      · by_cases hkh : k = s.head i
        · rw [hbelow k (by omega), if_pos hkh]
        · exact habove k (by omega) hcur

/-- The pointers of the chain of `i` when the rules before `n` are done. -/
structure ChainInv (rules : List PfRuleBody) (n : Nat) (i : PfSkip) (s : SkipCalc) : Prop where
  head_le : s.head i ≤ n
  forward : ∀ k < s.head i, k < s.skip k i ∧ s.skip k i ≤ s.head i
  same : ∀ k < s.head i, SameRun rules i k (s.skip k i)
  open_run : SameRun rules i (s.head i) n

theorem ChainInv.congr {s' : SkipCalc} (h : ChainInv rules n i s) (hsame : SameChain i s' s) :
    ChainInv rules n i s' := by
  obtain ⟨hhead, hskip⟩ := hsame
  refine ⟨?_, fun k hk => ?_, fun k hk => ?_, ?_⟩
  · rw [hhead]
    exact h.head_le
  · rw [hhead] at hk ⊢
    rw [hskip]
    exact h.forward k hk
  · rw [hhead] at hk
    rw [hskip]
    exact h.same k hk
  · rw [hhead]
    exact h.open_run

theorem ChainInv.endChain (h : ChainInv rules n i s) :
    (Net.endChain n s i).head i = n ∧ ChainInv rules n i (Net.endChain n s i) := by
  obtain ⟨hhead, hbelow, habove⟩ := pfSetSkipSteps_self i n n s h.head_le (by omega)
  rw [← Net.endChain] at hhead hbelow habove
  refine ⟨hhead, ?_, ?_, ?_, ?_⟩
  · exact hhead.le
  · intro k hk
    rw [hhead] at hk ⊢
    by_cases hold : k < s.head i
    · rw [hbelow k hold]
      exact ⟨(h.forward k hold).1, (h.forward k hold).2.trans h.head_le⟩
    · rw [habove k (Nat.le_of_not_lt hold) hk]
      exact ⟨hk, le_refl n⟩
  · intro k hk
    rw [hhead] at hk
    by_cases hold : k < s.head i
    · rw [hbelow k hold]
      exact h.same k hold
    · rw [habove k (Nat.le_of_not_lt hold) hk]
      exact fun k' c prev hle => h.open_run k' c prev (by omega)
  · rw [hhead]
    exact fun k c prev hle hlt => by omega

theorem foldl_chain {f : SkipCalc → PfSkip → SkipCalc}
    (hf : ∀ s i j, j ≠ i → SameChain j (f s i) s) {j : PfSkip} :
    ∀ (l : List PfSkip) (s : SkipCalc), l.Nodup → j ∈ l →
      ∃ t, SameChain j t s ∧ SameChain j (l.foldl f s) (f t j) := by
  have hpass : ∀ (l : List PfSkip) (s : SkipCalc), j ∉ l → SameChain j (l.foldl f s) s := by
    intro l
    induction l with
    | nil => exact fun s _ => ⟨rfl, fun _ => rfl⟩
    | cons i l ih =>
      intro s hj
      rw [mem_cons, not_or] at hj
      exact (ih (f s i) hj.2).trans (hf s i j hj.1)
  intro l
  induction l with
  | nil => exact fun s _ h => absurd h not_mem_nil
  | cons i l ih =>
    intro s hnodup hj
    rw [nodup_cons] at hnodup
    rw [foldl_cons]
    by_cases hji : j = i
    · subst hji
      exact ⟨s, ⟨rfl, fun _ => rfl⟩, hpass l (f s j) hnodup.1⟩
    · obtain ⟨t, ht, hfold⟩ := ih (f s i) hnodup.2 ((mem_cons.1 hj).resolve_left hji)
      exact ⟨t, ht.trans (hf s i j hji), hfold⟩

theorem PfSkip.mem_all (i : PfSkip) : i ∈ PfSkip.all := by
  cases i <;> decide

theorem PfSkip.nodup_all : PfSkip.all.Nodup := by
  decide

theorem ChainInv.skipRound (hn : n < rules.length) (h : ∀ i, ChainInv rules n i s) :
    ∀ i, ChainInv rules (n + 1) i (Net.skipRound rules s n) := by
  intro i
  obtain ⟨cur, hcur⟩ : ∃ cur, rules[n]? = some cur := ⟨_, getElem?_eq_getElem hn⟩
  obtain ⟨prev, hprev⟩ : ∃ prev, rules[n - 1]? = some prev :=
    ⟨_, getElem?_eq_getElem (by omega)⟩
  rw [Net.skipRound, hcur, hprev]
  dsimp only
  obtain ⟨t, ht, hfold⟩ := foldl_chain
    (f := fun s i => if skipNeq cur prev i then Net.endChain n s i else s)
    (fun s i j hne => by
      split
      · exact pfSetSkipSteps_other hne n n s
      · exact ⟨rfl, fun _ => rfl⟩) PfSkip.all s PfSkip.nodup_all (PfSkip.mem_all i)
  refine ChainInv.congr ?_ hfold
  have hold := (h i).congr ht
  split
  case isTrue =>
    obtain ⟨hhead, hend⟩ := hold.endChain
    refine ⟨by omega, hend.forward, hend.same, ?_⟩
    rw [hhead]
    exact fun k c prev hle hlt => by omega
  case isFalse hneq =>
    refine ⟨by have := hold.head_le; omega, hold.forward, hold.same, ?_⟩
    intro k c q hle hlt hc hq
    by_cases hk : k + 1 = n
    · subst hk
      rw [Nat.add_sub_cancel] at hprev
      have hcn : c = cur := Option.some.inj (hc.symm.trans hcur)
      have hqn : q = prev := Option.some.inj (hq.symm.trans hprev)
      rw [hcn, hqn]
      exact Bool.eq_false_iff.2 hneq
    · exact hold.open_run k c q hle (by omega) hc hq

theorem pfCalcSkipSteps_spec (rules : List PfRuleBody) (skip : Nat → PfSkip → Nat) (i : PfSkip)
    {k : Nat} (hk : k < rules.length) :
    k < pfCalcSkipSteps rules skip k i ∧ pfCalcSkipSteps rules skip k i ≤ rules.length ∧
      SameRun rules i k (pfCalcSkipSteps rules skip k i) := by
  have hrounds : ∀ n ≤ rules.length, ∀ i, ChainInv rules n i
      ((List.range n).foldl (skipRound rules) { head := fun _ => 0, skip := skip }) := by
    intro n
    induction n with
    | zero =>
      intro _ i
      exact ⟨le_refl 0, fun k hk => absurd hk (Nat.not_lt_zero k),
        fun k hk => absurd hk (Nat.not_lt_zero k), fun k c prev _ hlt => absurd hlt (Nat.not_lt_zero _)⟩
    | succ n ih =>
      intro hle
      rw [range_succ, foldl_append]
      exact ChainInv.skipRound hle (ih (by omega))
  obtain ⟨t, ht, hfold⟩ := foldl_chain (f := endChain rules.length)
    (fun s i j hne => pfSetSkipSteps_other hne _ _ s) PfSkip.all
    ((List.range rules.length).foldl (skipRound rules) { head := fun _ => 0, skip := skip })
    PfSkip.nodup_all (PfSkip.mem_all i)
  obtain ⟨hhead, hend⟩ := ((hrounds _ (le_refl _) i).congr ht).endChain
  have hdone := hend.congr hfold
  have hlen := hfold.1.trans hhead
  rw [pfCalcSkipSteps]
  obtain ⟨hforward, hle⟩ := hdone.forward k (by omega)
  exact ⟨hforward, hle.trans hlen.le, hdone.same k (by omega)⟩

/-! ## The loop with the skip pointers -/

section Verdict

variable {ω : Type}

/-- The skip pointers of every ruleset, after `pf_calc_skip_steps` on pointers of any kind. -/
def skipPtr (skip : List (PfRule PfRuleBody) → Nat → PfSkip → Nat) (rs : List (PfRule PfRuleBody))
    (r : Nat) (i : PfSkip) : Nat :=
  pfCalcSkipSteps (rs.map PfRule.body) (skip rs) r i

/-- Every skip pointer is the next rule. -/
def nextPtr (_ : List (PfRule PfRuleBody)) (r : Nat) (_ : PfSkip) : Nat := r + 1

theorem skipPtr_jumps (lk : PfLookup ω) (p : PfPacket)
    (skip : List (PfRule PfRuleBody) → Nat → PfSkip → Nat) :
    JumpsOverFailing (pfEngine lk p) (skipPtr skip) := by
  intro rs r rule st i hrule hskip
  obtain ⟨hlt, -⟩ := List.getElem?_eq_some_iff.1 hrule
  obtain ⟨hforward, hle, hsame⟩ :=
    pfCalcSkipSteps_spec (rs.map PfRule.body) (skip rs) i (by rw [length_map]; exact hlt)
  rw [length_map] at hle
  refine ⟨hforward, hle, fun k q hrk hk hq => ?_⟩
  obtain ⟨htest, hhas⟩ := skipTest_of_skip lk p hskip
  have hbody : (rs.map PfRule.body)[r]? = some rule.body := by rw [getElem?_map, hrule]; rfl
  have hqbody : (rs.map PfRule.body)[r + (k - r)]? = some q.body := by
    rw [Nat.add_sub_cancel' hrk, getElem?_map, hq]
    rfl
  rw [skipPtr] at hk
  have heq := hsame.skipTest_eq lk p st hbody (k - r) q.body (by omega) hqbody
  exact fails_of_skipTest lk p hhas (heq.trans htest)

theorem nextPtr_jumps (lk : PfLookup ω) (p : PfPacket) :
    JumpsOverFailing (pfEngine lk p) nextPtr := by
  intro rs r rule st i hrule hskip
  obtain ⟨hlt, -⟩ := List.getElem?_eq_some_iff.1 hrule
  refine ⟨Nat.lt_succ_self r, hlt, fun k q hrk hk hq => ?_⟩
  have hkr : k = r := Nat.le_antisymm (Nat.le_of_lt_succ hk) hrk
  have hqr : q = rule := by
    rw [hkr, hrule] at hq
    exact (Option.some.inj hq).symm
  obtain ⟨htest, hhas⟩ := skipTest_of_skip lk p hskip
  rw [hqr]
  exact fails_of_skipTest lk p hhas htest

/-- The loop with the skip pointers and the loop over every rule end, with the same rule
    selected, the same match rules applied, and the same tag, actions and translation. -/
theorem skip_steps_verdict (lk : PfLookup ω) (p : PfPacket)
    (skip : List (PfRule PfRuleBody) → Nat → PfSkip → Nat) (rules : List (PfRule PfRuleBody))
    (st : PfEvalState ω) :
    ∃ res : PfResult PfRuleBody (PfEvalState ω),
      Returns (fun fuel => pfTestRule (pfEngine lk p) (skipPtr skip) fuel rules st) res ∧
      Returns (fun fuel => pfTestRule (pfEngine lk p) nextPtr fuel rules st) res :=
  ⟨_, pfTestRule_returns (skipPtr_jumps lk p skip) rules st,
    pfTestRule_returns (nextPtr_jumps lk p) rules st⟩

end Verdict

end OpenBsd.Net
