/-
  OpenBsd.Net.PfEval

  The evaluation loop of `pf_test_rule` carries out the recursive evaluation of the
  rulesets, wherever its skip pointers lead, as long as they jump over rules only that
  fail as well.
-/

import OpenBsd.Net.PfRuleset

namespace OpenBsd.Net

open OpenBsd.Lib List

section Eval

variable {β σ ι : Type} {e : PfEngine β σ ι} {jump : List (PfRule β) → Nat → ι → Nat}

/-- A rule that fails and leaves the packet as it is. -/
def Fails (e : PfEngine β σ ι) (st : σ) (b : β) : Prop :=
  (e.test st b).1 = st ∧ (e.test st b).2 ≠ .hit

/-- A skip pointer leads forward, over rules that fail. -/
def JumpsOverFailing (e : PfEngine β σ ι) (jump : List (PfRule β) → Nat → ι → Nat) : Prop :=
  ∀ (rs : List (PfRule β)) (r : Nat) (rule : PfRule β) (st : σ) (i : ι),
    rs[r]? = some rule → (e.test st rule.body).2 = .skip i →
    r < jump rs r i ∧ jump rs r i ≤ rs.length ∧
      ∀ k q, r ≤ k → k < jump rs r i → rs[k]? = some q → Fails e st q.body

/-! ## The loop from a point on -/

/-- The loop, or what is left of an iteration, ends with this result. -/
def Ends (e : PfEngine β σ ι) (jump : List (PfRule β) → Nat → ι → Nat)
    (x : PfWalk β σ ⊕ PfResult β σ) (res : PfResult β σ) : Prop :=
  match x with
  | .inl w => Returns (fun fuel => loop (pfTestRuleBody e jump) fuel w) res
  | .inr r => r = res

variable {res : PfResult β σ} {w : PfWalk β σ}

theorem ends_of_body {x : PfWalk β σ ⊕ PfResult β σ}
    (hbody : pfTestRuleBody e jump w = some x) (hx : Ends e jump x res) :
    Ends e jump (.inl w) res := by
  cases x with
  | inl w' => exact loop_next hbody hx
  | inr r =>
    have hr : r = res := hx
    subst hr
    exact loop_exit hbody

theorem nextrule_of_lt (h : w.r < w.rs.length) : nextrule e w = .inl w := by
  rw [nextrule, if_pos h]

variable {w' : PfWalk β σ}

theorem nextrule_null (h : ¬w.r < w.rs.length) (h' : ¬w'.r < w'.rs.length)
    (hstack : w.stack ≠ []) (heq : w'.stack = w.stack) (hm : w'.matched = w.matched)
    (hst : w'.st = w.st) (hrm : w'.rm = w.rm) : nextrule e w' = nextrule e w := by
  rw [nextrule, nextrule, if_neg h, if_neg h', heq]
  cases hs : w.stack with
  | nil => exact absurd hs hstack
  | cons f rest =>
    rw [pfStepOutOfAnchor, pfStepOutOfAnchor]
    cases nextChild f.child with
    | none =>
      simp only [PfWalk.pop, hm, hst, hrm]
    | some p => simp only [hm, hst, hrm]

theorem ends_null (h : ¬w.r < w.rs.length)
    (h' : ¬w'.r < w'.rs.length) (heq : w'.stack = w.stack) (hm : w'.matched = w.matched)
    (hst : w'.st = w.st) (hrm : w'.rm = w.rm) (hends : Ends e jump (nextrule e w) res) :
    Ends e jump (nextrule e w') res := by
  by_cases hstack : w.stack = []
  · -- outside of all anchors the loop is left
    have hexit : ∀ v : PfWalk β σ, ¬v.r < v.rs.length → v.stack = [] →
        ∀ {r}, Ends e jump (nextrule e v) r ↔ v.finish = r := by
      intro v hv hvs r
      have hnone : v.rs[v.r]? = none := getElem?_eq_none (Nat.le_of_not_lt hv)
      have hbody : pfTestRuleBody e jump { v with stack := [] } = some (.inr v.finish) := by
        simp only [pfTestRuleBody, hnone]
        rfl
      rw [nextrule, if_neg hv, hvs]
      simp only [pfStepOutOfAnchor, Ends]
      constructor
      · exact fun hret => (loop_exit hbody).unique hret
      · rintro rfl
        exact loop_exit hbody
    rw [hexit w h hstack] at hends
    rw [hexit w' h' (heq.trans hstack), ← hends, PfWalk.finish, PfWalk.finish, hst, hrm]
  · rw [nextrule_null h h' hstack heq hm hst hrm]
    exact hends

theorem pfStepOutOfAnchor_state (stack : List (PfAnchorStackframe β)) (w : PfWalk β σ) (q : Bool) :
    (pfStepOutOfAnchor e stack w q).1.st = w.st ∧ (pfStepOutOfAnchor e stack w q).1.rm = w.rm ∧
      (q = true → (pfStepOutOfAnchor e stack w q).2 = true) := by
  induction stack generalizing w q with
  | nil => exact ⟨rfl, rfl, id⟩
  | cons f rest ih =>
    rw [pfStepOutOfAnchor]
    cases nextChild f.child with
    | some p => exact ⟨rfl, rfl, id⟩
    | none =>
      dsimp only
      split
      · refine ⟨rfl, rfl, fun hq => ?_⟩
        simp [hq]
      · obtain ⟨hst, hrm, hq⟩ := ih (w.pop f rest)
          (q || (decide (w.matched > rest.length) && f.quick e))
        refine ⟨hst, hrm, fun h => hq ?_⟩
        simp [h]

/-! ## Ends of rulesets -/

/-- What the loop does once the rules of a ruleset have been evaluated with this outcome. -/
def AfterRules (e : PfEngine β σ ι) (jump : List (PfRule β) → Nat → ι → Nat) (w : PfWalk β σ)
    (o : PfOut β σ) (res : PfResult β σ) : Prop :=
  match o.stop with
  | some _ => o.result = res
  | none =>
    Ends e jump
      (nextrule e
        { w with
          r := w.rs.length
          st := o.st
          rm := o.rm
          matched := if o.hit then w.stack.length else w.matched }) res

/-- The loop evaluates these rules, wherever they come at the end of a ruleset. -/
def Simulates (e : PfEngine β σ ι) (jump : List (PfRule β) → Nat → ι → Nat)
    (l : List (PfRule β)) : Prop :=
  ∀ (w : PfWalk β σ) (res : PfResult β σ), w.rs.drop w.r = l → w.r ≤ w.rs.length →
    w.matched ≤ w.stack.length →
    AfterRules e jump w (evalRules e w.stack.length l w.st w.rm) res →
    Ends e jump (nextrule e w) res

theorem simulates_nil : Simulates e jump ([] : List (PfRule β)) := by
  intro w res hdrop hle _ hafter
  have hr : w.r = w.rs.length := Nat.le_antisymm hle (drop_eq_nil_iff.1 hdrop)
  simp only [AfterRules, evalRules, Bool.false_eq_true, if_false, ← hr] at hafter
  exact hafter

variable {d : Nat} {rm : Option β} {rule : PfRule β} {st : σ}

theorem evalRule_miss (h : (e.test st rule.body).2 ≠ .hit) :
    evalRule e d rule st rm = ⟨(e.test st rule.body).1, rm, false, none⟩ := by
  cases rule with
  | rule b =>
    rw [evalRule]
    split
    · next heq => exact absurd (by rw [PfRule.body, heq]) h
    · next heq => rw [PfRule.body, heq]
  | anchor b ruleset =>
    rw [evalRule]
    split
    · next heq => exact absurd (by rw [PfRule.body, heq]) h
    · next heq => rw [PfRule.body, heq]
  | wildcard b cs =>
    rw [evalRule]
    split
    · next heq => exact absurd (by rw [PfRule.body, heq]) h
    · next heq => rw [PfRule.body, heq]

@[simp] theorem andThen_miss (st : σ) (rm : Option β) (f : σ → Option β → PfOut β σ) :
    (⟨st, rm, false, none⟩ : PfOut β σ).andThen f = f st rm := by
  simp [PfOut.andThen]

variable {rs : List (PfRule β)}

theorem evalRules_drop {r j : Nat} (hrj : r ≤ j) (hj : j ≤ rs.length)
    (hfail : ∀ k q, r ≤ k → k < j → rs[k]? = some q → Fails e st q.body) :
    evalRules e d (rs.drop r) st rm = evalRules e d (rs.drop j) st rm := by
  induction hn : j - r generalizing r with
  | zero =>
    have : r = j := by omega
    rw [this]
  | succ n ih =>
    have hlt : r < rs.length := by omega
    have hq : rs[r]? = some rs[r] := getElem?_eq_getElem hlt
    obtain ⟨hst, hhit⟩ := hfail r _ le_rfl (by omega) hq
    have hrest := @ih (r + 1) (by omega) (fun k q hk => hfail k q (by omega)) (by omega)
    rw [drop_eq_getElem_cons hlt, evalRules, ← hrest, evalRule_miss hhit, hst, andThen_miss]

/-! ## Rules and anchors -/

variable {o : PfOut β σ} {f : σ → Option β → PfOut β σ}

theorem AfterRules.andThen (hstop : o.stop = none) (h : AfterRules e jump w (o.andThen f) res) :
    AfterRules e jump
      { w with
        r := w.r + 1
        st := o.st
        rm := o.rm
        matched := if o.hit then w.stack.length else w.matched } (f o.st o.rm) res := by
  simp only [AfterRules, PfOut.andThen, hstop] at h ⊢
  cases hs : (f o.st o.rm).stop with
  | some t =>
    rw [hs] at h
    rw [← h]
    simp [PfOut.result, hs]
  | none =>
    simp only [hs] at h
    cases hh : o.hit with
    | true => simpa [hh] using h
    | false => simpa [hh] using h

theorem AfterRules.stopped {t : PfStop} (hstop : o.stop = some t)
    (h : AfterRules e jump w (o.andThen f) res) : o.result = res := by
  simp only [AfterRules, PfOut.andThen, hstop] at h
  exact h

/-- The rulesets inside a rule are evaluated by the loop. -/
def InnerSimulates (e : PfEngine β σ ι) (jump : List (PfRule β) → Nat → ι → Nat) :
    PfRule β → Prop
  | .rule _ => True
  | .anchor _ ruleset => Simulates e jump ruleset
  | .wildcard _ children => ∀ c ∈ children, Simulates e jump c

/-- The children that are left of a wildcard anchor. -/
theorem children_ends {children : List (List (PfRule β))}
    (hsim : ∀ c ∈ children, Simulates e jump c) {w : PfWalk β σ} {res : PfResult β σ}
    {f : PfAnchorStackframe β} {rest : List (PfAnchorStackframe β)} (hr : ¬w.r < w.rs.length)
    (hstack : w.stack = ⟨f.rs, f.r, some children⟩ :: rest) (hm : w.matched ≤ w.stack.length)
    (hafter : AfterRules e jump { w with stack := ⟨f.rs, f.r, none⟩ :: rest }
      (evalChildren e (rest.length + 1) children w.st w.rm) res) :
    Ends e jump (nextrule e w) res := by
  induction children generalizing w with
  | nil =>
    simp only [evalChildren, AfterRules, Bool.false_eq_true, if_false] at hafter
    rw [nextrule, if_neg (by simp)] at hafter
    rw [nextrule, if_neg hr, hstack]
    simp only [pfStepOutOfAnchor, nextChild, dropWhile_nil, PfWalk.pop] at hafter ⊢
    exact hafter
  | cons c cs ih =>
    have hcs : ∀ c ∈ cs, Simulates e jump c := fun x hx => hsim x (mem_cons_of_mem c hx)
    rw [evalChildren] at hafter
    cases c with
    | nil =>
      -- an empty ruleset is passed over
      simp only [evalRules, andThen_miss] at hafter
      have hskip : nextrule e w = nextrule e { w with stack := ⟨f.rs, f.r, some cs⟩ :: rest } := by
        rw [nextrule, nextrule, if_neg hr, if_neg hr, hstack]
        simp only [pfStepOutOfAnchor, nextChild, dropWhile_cons, isEmpty_nil, if_true, PfWalk.pop]
        rfl
      rw [hskip]
      refine ih hcs hr rfl ?_ hafter
      simpa [hstack] using hm
    | cons rule rules =>
      have hinto : nextrule e w = .inl { w with
            rs := rule :: rules, r := 0, stack := ⟨f.rs, f.r, some cs⟩ :: rest } := by
        rw [nextrule, if_neg hr, hstack]
        simp only [pfStepOutOfAnchor, nextChild, dropWhile_cons, isEmpty_cons,
          Bool.false_eq_true, if_false]
      rw [hinto, ← nextrule_of_lt (e := e) (by simp)]
      refine hsim _ mem_cons_self _ res rfl (by simp) (by simpa [hstack] using hm) ?_
      simp only [length_cons]
      generalize ho : evalRules e (rest.length + 1) (rule :: rules) w.st w.rm = o at hafter ⊢
      cases hstop : o.stop with
      | some t =>
        simp only [AfterRules, hstop]
        exact hafter.stopped hstop
      | none =>
        have hnext := hafter.andThen hstop
        simp only [AfterRules, hstop, length_cons]
        refine ih (w := _) hcs (by simp) rfl ?_ ?_
        · simp only [length_cons]
          rw [hstack] at hm
          simp only [length_cons] at hm
          split <;> omega
        · simp only [AfterRules, length_cons] at hnext ⊢
          cases hs : (evalChildren e (rest.length + 1) cs o.st o.rm).stop with
          | some t =>
            simp only [hs] at hnext
            exact hnext
          | none =>
            simp only [hs] at hnext
            refine ends_null ?_ ?_ ?_ ?_ ?_ ?_ hnext
            · simp
            · simp
            all_goals rfl

/-- An anchor is left at its end: a match inside counts at the depth of its rule. -/
theorem anchor_left (hrule : w.rs[w.r]? = some rule) (hm : w.matched ≤ w.stack.length)
    (hquick : (o.hit && e.quick rule.body) = true → res = ⟨o.st, o.rm, false⟩)
    (hnext : (o.hit && e.quick rule.body) = false →
      Ends e jump
        (nextrule e
          { w with
            r := w.r + 1
            st := o.st
            rm := o.rm
            matched := if o.hit then w.stack.length else w.matched }) res) :
    Ends e jump
      (nextrule e
        { w with
          rs := rs
          r := rs.length
          stack := ⟨w.rs, w.r, none⟩ :: w.stack
          st := o.st
          rm := o.rm
          matched := if o.hit then w.stack.length + 1 else w.matched }) res := by
  have hinside : decide ((if o.hit then w.stack.length + 1 else w.matched) > w.stack.length) =
      o.hit := by
    cases o.hit with
    | true => simp
    | false => simpa using hm
  have hmatched : (if (if o.hit then w.stack.length + 1 else w.matched) > w.stack.length
      then w.stack.length else (if o.hit then w.stack.length + 1 else w.matched)) =
      if o.hit then w.stack.length else w.matched := by
    cases o.hit with
    | true => simp
    | false =>
      simp only [Bool.false_eq_true, if_false]
      split <;> omega
  have hq : PfAnchorStackframe.quick e ⟨w.rs, w.r, none⟩ = e.quick rule.body := by
    simp only [PfAnchorStackframe.quick, hrule]
  rw [nextrule, if_neg (by simp)]
  simp only [pfStepOutOfAnchor, nextChild, hinside, hq, Bool.false_or]
  cases hb : (o.hit && e.quick rule.body) with
  | true =>
    -- the frame sets `quick`, and the frames left after it keep it
    have hres := hquick hb
    by_cases hlt : w.r + 1 < w.rs.length
    · rw [if_pos hlt, hres]
      rfl
    · rw [if_neg hlt]
      obtain ⟨hst, hrm, hkeep⟩ := pfStepOutOfAnchor_state (e := e) w.stack (PfWalk.pop { w with
          rs := rs
          r := rs.length
          stack := ⟨w.rs, w.r, none⟩ :: w.stack
          st := o.st
          rm := o.rm
          matched := if o.hit then w.stack.length + 1 else w.matched } ⟨w.rs, w.r, none⟩ w.stack) true
      have hkeep := hkeep rfl
      generalize pfStepOutOfAnchor e w.stack _ true = x at hst hrm hkeep ⊢
      obtain ⟨v, q⟩ := x
      have hq' : q = true := hkeep
      subst hq'
      simp only [Ends, PfWalk.finish]
      rw [hres, hst, hrm]
      rfl
  | false =>
    have hends := hnext hb
    simp only [PfWalk.pop, hmatched]
    by_cases hlt : w.r + 1 < w.rs.length
    · rw [nextrule_of_lt hlt] at hends
      rw [if_pos hlt]
      exact hends
    · rw [nextrule, if_neg hlt] at hends
      rw [if_neg hlt]
      exact hends

theorem anchor_ends {l : List (PfRule β)} (hrule : w.rs[w.r]? = some rule) (hm : w.matched ≤ w.stack.length)
    (hle : w.r < w.rs.length) (hdrop : w.rs.drop (w.r + 1) = l) (hrest : Simulates e jump l)
    (hafter : AfterRules e jump w ((o.leave (e.quick rule.body)).andThen
      fun st rm => evalRules e w.stack.length l st rm) res) (rs : List (PfRule β)) :
    AfterRules e jump { w with rs := rs, stack := ⟨w.rs, w.r, none⟩ :: w.stack } o res := by
  cases hstop : o.stop with
  | some t =>
    have hleave : o.leave (e.quick rule.body) = o := by simp [PfOut.leave, hstop]
    rw [hleave] at hafter
    simp only [AfterRules, hstop]
    exact hafter.stopped hstop
  | none =>
    simp only [AfterRules, hstop, length_cons]
    refine anchor_left hrule hm ?_ ?_
    · intro hb
      rw [Bool.and_eq_true] at hb
      have hleave : o.leave (e.quick rule.body) = { o with stop := some .quick } := by
        simp [PfOut.leave, hstop, hb]
      rw [hleave] at hafter
      exact (hafter.stopped rfl).symm
    · intro hb
      have hleave : o.leave (e.quick rule.body) = o := by
        rw [PfOut.leave, if_neg]
        rintro ⟨-, hhit, hq⟩
        simp [hhit, hq] at hb
      rw [hleave] at hafter
      refine hrest _ res hdrop hle ?_ (hafter.andThen hstop)
      dsimp only
      split
      · exact le_rfl
      · exact hm

/-- The loop evaluates a rule and the rules behind it. -/
theorem simulates_cons (hjump : JumpsOverFailing e jump) {rule : PfRule β} {l : List (PfRule β)}
    (hinner : InnerSimulates e jump rule) (hrest : ∀ l', l' <:+ l → Simulates e jump l') :
    Simulates e jump (rule :: l) := by
  intro w res hdrop hle hm hafter
  have hlt : w.r < w.rs.length := by
    by_contra hge
    rw [drop_eq_nil_iff.2 (Nat.le_of_not_lt hge)] at hdrop
    exact cons_ne_nil _ _ hdrop.symm
  have hcons := drop_eq_getElem_cons hlt
  rw [hdrop] at hcons
  obtain ⟨hr, hl⟩ := List.cons.inj hcons
  have hrule : w.rs[w.r]? = some rule := by rw [getElem?_eq_getElem hlt, ← hr]
  rw [nextrule_of_lt hlt]
  cases htest : e.test w.st rule.body with
  | mk st t =>
  cases t with
  | skip i =>
    -- the rules up to the target of the skip pointer fail as well
    obtain ⟨hrj, hj, hfail⟩ := hjump w.rs w.r rule w.st i hrule (by rw [htest])
    have hst : st = w.st := by
      have := (hfail w.r rule le_rfl hrj hrule).1
      rw [htest] at this
      exact this
    subst hst
    refine ends_of_body (x := nextrule e { w with r := jump w.rs w.r i }) ?_ ?_
    · simp only [pfTestRuleBody, hrule, htest]
    · have hsuffix : w.rs.drop (jump w.rs w.r i) <:+ l := by
        rw [hl]
        have : jump w.rs w.r i = (w.r + 1) + (jump w.rs w.r i - (w.r + 1)) := by omega
        rw [this, ← List.drop_drop]
        exact drop_suffix _ _
      refine hrest _ hsuffix _ res rfl hj hm ?_
      rw [← hdrop, evalRules_drop hrj.le hj hfail] at hafter
      exact hafter
  | next =>
    refine ends_of_body (x := nextrule e { w with st := st, r := w.r + 1 }) ?_ ?_
    · simp only [pfTestRuleBody, hrule, htest]
    · rw [evalRules, evalRule_miss (by rw [htest]; simp), htest, andThen_miss] at hafter
      exact hrest l suffix_rfl _ res hl.symm hlt hm hafter
  | hit =>
    cases rule with
    | rule b =>
      refine ends_of_body (x := matchRule e { w with st := st } b) ?_ ?_
      · simp only [pfTestRuleBody, hrule, htest]
      · have heval : evalRule e w.stack.length (.rule b) w.st w.rm = evalHit e b st w.rm := by
          rw [PfRule.body] at htest
          simp only [evalRule, htest]
        rw [evalRules, heval] at hafter
        simp only [matchRule]
        by_cases hmatch : e.isMatch b = true
        · rw [if_pos hmatch]
          cases hact : e.act st b with
          | none =>
            have hout : evalHit e b st w.rm = ⟨st, w.rm, false, some .cleanup⟩ := by
              simp [evalHit, hmatch, hact]
            rw [hout] at hafter
            exact hafter.stopped rfl
          | some st₂ =>
            have hout : evalHit e b st w.rm =
                ⟨st₂, w.rm, false, if e.quick b then some .quick else none⟩ := by
              simp [evalHit, hmatch, hact]
            rw [hout] at hafter
            dsimp only
            by_cases hq : e.quick b = true
            · rw [if_pos hq] at hafter ⊢
              exact hafter.stopped rfl
            · rw [if_neg hq] at hafter ⊢
              exact hrest l suffix_rfl _ res hl.symm hlt hm (hafter.andThen rfl)
        · rw [if_neg hmatch]
          have hout : evalHit e b st w.rm =
              ⟨st, some b, true, if e.quick b then some .quick else none⟩ := by
            simp [evalHit, hmatch]
          rw [hout] at hafter
          by_cases hq : e.quick b = true
          · rw [if_pos hq] at hafter ⊢
            exact hafter.stopped rfl
          · rw [if_neg hq] at hafter ⊢
            exact hrest l suffix_rfl _ res hl.symm hlt le_rfl (hafter.andThen rfl)
    | anchor b ruleset =>
      rw [PfRule.body] at htest
      refine ends_of_body
        (x := nextrule e (pfStepIntoAnchor { w with st := st } (.anchor b ruleset))) ?_ ?_
      · simp only [pfTestRuleBody, hrule, PfRule.body, htest]
      · rw [evalRules, evalRule] at hafter
        simp only [htest] at hafter
        simp only [pfStepIntoAnchor]
        by_cases hfull : w.stack.length ≥ pfAnchorStackSize
        · rw [if_pos hfull, andThen_miss] at hafter
          rw [if_pos hfull]
          exact hrest l suffix_rfl _ res hl.symm hlt hm hafter
        · rw [if_neg hfull] at hafter ⊢
          refine hinner _ res rfl (Nat.zero_le _) (hm.trans (Nat.le_succ _)) ?_
          exact anchor_ends (w := { w with st := st }) hrule hm hlt hl.symm
            (hrest l suffix_rfl) hafter ruleset
    | wildcard b cs =>
      rw [PfRule.body] at htest
      refine ends_of_body
        (x := nextrule e (pfStepIntoAnchor { w with st := st } (.wildcard b cs))) ?_ ?_
      · simp only [pfTestRuleBody, hrule, PfRule.body, htest]
      · rw [evalRules, evalRule] at hafter
        simp only [htest] at hafter
        by_cases hfull : w.stack.length ≥ pfAnchorStackSize
        · rw [if_pos hfull, andThen_miss] at hafter
          have hinto : pfStepIntoAnchor { w with st := st } (.wildcard b cs) =
              { w with st := st, r := w.r + 1 } := by
            cases cs <;> simp only [pfStepIntoAnchor, if_pos hfull]
          rw [hinto]
          exact hrest l suffix_rfl _ res hl.symm hlt hm hafter
        · rw [if_neg hfull] at hafter
          have hdone := anchor_ends (w := { w with st := st }) hrule hm hlt hl.symm
            (hrest l suffix_rfl) hafter w.rs
          cases cs with
          | nil =>
            simp only [pfStepIntoAnchor, if_neg hfull]
            simp only [AfterRules, evalChildren, Bool.false_eq_true, if_false] at hdone
            exact hdone
          | cons c cs =>
            simp only [pfStepIntoAnchor, if_neg hfull]
            -- as if the first child were still to come
            have hfirst : nextrule e
                { w with st := st, rs := c, r := 0, stack := ⟨w.rs, w.r, some cs⟩ :: w.stack } =
                nextrule e
                  { w with
                    st := st
                    r := w.rs.length
                    stack := ⟨w.rs, w.r, some (c :: cs)⟩ :: w.stack } := by
              cases c with
              | nil =>
                rw [nextrule, nextrule, if_neg (by simp), if_neg (by simp)]
                simp only [pfStepOutOfAnchor, nextChild, dropWhile_cons, isEmpty_nil,
                  if_true, PfWalk.pop]
                rfl
              | cons q c =>
                rw [nextrule, nextrule, if_pos (by simp), if_neg (by simp)]
                simp only [pfStepOutOfAnchor, nextChild, dropWhile_cons, isEmpty_cons,
                  Bool.false_eq_true, if_false]
            rw [hfirst]
            exact children_ends (f := ⟨w.rs, w.r, none⟩) hinner (by simp) rfl
              (hm.trans (Nat.le_succ _)) hdone

mutual

theorem innerSimulates (hjump : JumpsOverFailing e jump) :
    ∀ rule : PfRule β, InnerSimulates e jump rule
  | .rule _ => trivial
  | .anchor _ ruleset => rulesSimulate hjump ruleset ruleset suffix_rfl
  | .wildcard _ children => childrenSimulate hjump children

theorem rulesSimulate (hjump : JumpsOverFailing e jump) :
    ∀ rules : List (PfRule β), ∀ l, l <:+ rules → Simulates e jump l
  | [] => fun _ h => suffix_nil.1 h ▸ simulates_nil
  | rule :: rules => fun l h => by
    have hrest := rulesSimulate hjump rules
    have hinner := innerSimulates hjump rule
    rcases suffix_cons_iff.1 h with rfl | h
    · exact simulates_cons hjump hinner hrest
    · exact hrest l h

theorem childrenSimulate (hjump : JumpsOverFailing e jump) :
    ∀ children : List (List (PfRule β)), ∀ c ∈ children, Simulates e jump c
  | [] => fun _ h => absurd h not_mem_nil
  | child :: children =>
    forall_mem_cons.2
      ⟨rulesSimulate hjump child child suffix_rfl, childrenSimulate hjump children⟩

end

theorem pfTestRule_returns (hjump : JumpsOverFailing e jump) (rules : List (PfRule β)) (st : σ) :
    Returns (fun fuel => pfTestRule e jump fuel rules st) (evalRules e 0 rules st none).result := by
  have hsim := rulesSimulate hjump rules rules suffix_rfl
    { rs := rules, r := 0, stack := [], matched := 0, st := st, rm := none }
    (evalRules e 0 rules st none).result rfl (Nat.zero_le _) le_rfl
  have hexit : ∀ v : PfWalk β σ, ¬v.r < v.rs.length → v.stack = [] →
      Ends e jump (nextrule e v) v.finish := by
    intro v hv hvs
    have hnone : v.rs[v.r]? = none := getElem?_eq_none (Nat.le_of_not_lt hv)
    rw [nextrule, if_neg hv, hvs]
    refine loop_exit (?_ : pfTestRuleBody e jump { v with stack := [] } = _)
    simp only [pfTestRuleBody, hnone]
    rfl
  have hafter : AfterRules e jump
      { rs := rules, r := 0, stack := [], matched := 0, st := st, rm := none }
      (evalRules e 0 rules st none) (evalRules e 0 rules st none).result := by
    cases hstop : (evalRules e 0 rules st none).stop with
    | some t => simp only [AfterRules, hstop]
    | none =>
      simp only [AfterRules, hstop]
      have hres : (evalRules e 0 rules st none).result =
          ⟨(evalRules e 0 rules st none).st, (evalRules e 0 rules st none).rm, false⟩ := by
        simp [PfOut.result, hstop]
      rw [hres]
      exact hexit _ (by simp) rfl
  have hends := hsim hafter
  by_cases hlt : 0 < rules.length
  · rw [nextrule_of_lt hlt] at hends
    exact hends
  · have hnil : rules = [] := eq_nil_of_length_eq_zero (by omega)
    subst hnil
    rw [nextrule, if_neg (by simp)] at hends
    exact hends

end Eval

end OpenBsd.Net
