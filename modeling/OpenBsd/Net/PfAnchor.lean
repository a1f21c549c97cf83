/-
  OpenBsd.Net.PfAnchor

  The rule that a tree of rulesets selects, by recursion on the tree, and that the loop
  of `pf_test_rule` with its stack of anchors selects it.
-/

import OpenBsd.Net.PfEval

namespace OpenBsd.Net

open OpenBsd.Lib

section Select

variable {β : Type}

/-! ## Selection by recursion -/

/-- What a part of the rules selects: the last pass or block rule that matched, whether
    one matched in this part, and whether the evaluation stops. -/
structure Selection (β : Type) where
  rm : Option β
  hit : Bool
  stop : Bool
  deriving DecidableEq

/-- The outcome of the own conditions of the rules, and their actions. -/
structure RuleTable (β : Type) where
  hits : β → Bool
  isMatch : β → Bool
  quick : β → Bool

/-- A part, and the part behind it unless the evaluation stops. -/
def Selection.andThen (s : Selection β) (f : Option β → Selection β) : Selection β :=
  if s.stop then s else { f s.rm with hit := s.hit || (f s.rm).hit }

/-- A quick anchor stops everything exactly if a pass or block rule matched inside. -/
def Selection.leave (s : Selection β) (quick : Bool) : Selection β :=
  { s with stop := s.stop || (s.hit && quick) }

mutual

def selectRule (t : RuleTable β) : PfRule β → Option β → Selection β
  | .rule b, rm =>
    if t.hits b then
      if t.isMatch b then ⟨rm, false, t.quick b⟩ else ⟨some b, true, t.quick b⟩
    else ⟨rm, false, false⟩
  | .anchor b ruleset, rm =>
    if t.hits b then (selectRules t ruleset rm).leave (t.quick b) else ⟨rm, false, false⟩
  | .wildcard b children, rm =>
    if t.hits b then (selectChildren t children rm).leave (t.quick b) else ⟨rm, false, false⟩

def selectRules (t : RuleTable β) : List (PfRule β) → Option β → Selection β
  | [], rm => ⟨rm, false, false⟩
  | rule :: rules, rm => (selectRule t rule rm).andThen (selectRules t rules)

/-- The child rulesets in order. -/
def selectChildren (t : RuleTable β) : List (List (PfRule β)) → Option β → Selection β
  | [], rm => ⟨rm, false, false⟩
  | child :: children, rm => (selectRules t child rm).andThen (selectChildren t children)

end

mutual

def ruleDepth : PfRule β → Nat
  | .rule _ => 0
  | .anchor _ ruleset => rulesDepth ruleset + 1
  | .wildcard _ children => childrenDepth children + 1

/-- How deep the anchors of a ruleset are nested. -/
def rulesDepth : List (PfRule β) → Nat
  | [] => 0
  | rule :: rules => max (ruleDepth rule) (rulesDepth rules)

def childrenDepth : List (List (PfRule β)) → Nat
  | [] => 0
  | child :: children => max (rulesDepth child) (childrenDepth children)

end

/-! ## The loop selects the same rule -/

/-- The rules of a packet with these outcomes; a rule that fails is followed by the next
    one. -/
def RuleTable.engine (t : RuleTable β) (ι : Type) : PfEngine β Unit ι where
  test := fun _ b => ((), if t.hits b then .hit else .next)
  act := fun _ _ => some ()
  isMatch := t.isMatch
  quick := t.quick

/-- An evaluation and a selection agree. -/
def Agrees (o : PfOut β Unit) (s : Selection β) : Prop :=
  o.rm = s.rm ∧ o.hit = s.hit ∧ o.stop.isSome = s.stop

variable {o : PfOut β Unit} {s : Selection β}

theorem Agrees.andThen {f : Unit → Option β → PfOut β Unit} {g : Option β → Selection β} (h : Agrees o s) (hf : ∀ rm, Agrees (f () rm) (g rm)) :
    Agrees (o.andThen f) (s.andThen g) := by
  obtain ⟨hrm, hhit, hstop⟩ := h
  obtain ⟨frm, fhit, fstop⟩ := hf s.rm
  rw [PfOut.andThen, Selection.andThen]
  cases hs : o.stop with
  | some t =>
    have hyes : s.stop = true := by rw [← hstop, hs]; rfl
    rw [if_pos hyes]
    exact ⟨hrm, hhit, by rw [hs, hyes]; rfl⟩
  | none =>
    have hno : s.stop = false := by rw [← hstop, hs]; rfl
    rw [hno, if_neg (by decide)]
    refine ⟨?_, ?_, ?_⟩
    · simp only [hrm, frm]
    · simp only [hrm, hhit, fhit]
    · simp only [hrm, fstop]

theorem Agrees.leave (h : Agrees o s) (quick : Bool) :
    Agrees (o.leave quick) (s.leave quick) := by
  obtain ⟨hrm, hhit, hstop⟩ := h
  rw [PfOut.leave, Selection.leave]
  cases hs : o.stop with
  | some t =>
    rw [if_neg (by simp)]
    refine ⟨hrm, hhit, ?_⟩
    rw [← hstop, hs]
    simp
  | none =>
    have hno : s.stop = false := by rw [← hstop, hs]; rfl
    cases hh : o.hit <;> cases quick <;> simp_all [Agrees]

mutual

theorem evalRule_agrees (t : RuleTable β) (ι : Type) :
    ∀ (rule : PfRule β) (d : Nat) (rm : Option β), ruleDepth rule + d ≤ pfAnchorStackSize →
      Agrees (evalRule (t.engine ι) d rule () rm) (selectRule t rule rm)
  | .rule b => fun d rm _ => by
    simp only [evalRule, RuleTable.engine, selectRule]
    cases t.hits b
    · simp [Agrees]
    · cases hm : t.isMatch b <;> cases hq : t.quick b <;> simp [evalHit, Agrees, hm, hq]
  | .anchor b ruleset => fun d rm hd => by
    rw [ruleDepth] at hd
    have hinner := evalRules_agrees t ι ruleset (d + 1) rm (by omega)
    have hroom : ¬d ≥ pfAnchorStackSize := by omega
    cases hh : t.hits b with
    | false => simp [evalRule, RuleTable.engine, selectRule, hh, Agrees]
    | true =>
      have heval : evalRule (t.engine ι) d (.anchor b ruleset) () rm =
          (evalRules (t.engine ι) (d + 1) ruleset () rm).leave (t.quick b) := by
        rw [evalRule]
        simp [RuleTable.engine, hh, hroom]
      rw [heval, selectRule, if_pos hh]
      exact hinner.leave _
  | .wildcard b children => fun d rm hd => by
    rw [ruleDepth] at hd
    have hinner := evalChildren_agrees t ι children (d + 1) rm (by omega)
    have hroom : ¬d ≥ pfAnchorStackSize := by omega
    cases hh : t.hits b with
    | false => simp [evalRule, RuleTable.engine, selectRule, hh, Agrees]
    | true =>
      have heval : evalRule (t.engine ι) d (.wildcard b children) () rm =
          (evalChildren (t.engine ι) (d + 1) children () rm).leave (t.quick b) := by
        rw [evalRule]
        simp [RuleTable.engine, hh, hroom]
      rw [heval, selectRule, if_pos hh]
      exact hinner.leave _

theorem evalRules_agrees (t : RuleTable β) (ι : Type) :
    ∀ (rules : List (PfRule β)) (d : Nat) (rm : Option β), rulesDepth rules + d ≤ pfAnchorStackSize →
      Agrees (evalRules (t.engine ι) d rules () rm) (selectRules t rules rm)
  | [] => fun _ _ _ => ⟨rfl, rfl, rfl⟩
  | rule :: rules => fun d rm hd => by
    have hrule := evalRule_agrees t ι rule d
    have hrules := evalRules_agrees t ι rules d
    rw [rulesDepth] at hd
    rw [evalRules, selectRules]
    exact (hrule rm (by omega)).andThen fun rm => hrules rm (by omega)

theorem evalChildren_agrees (t : RuleTable β) (ι : Type) :
    ∀ (children : List (List (PfRule β))) (d : Nat) (rm : Option β),
      childrenDepth children + d ≤ pfAnchorStackSize →
      Agrees (evalChildren (t.engine ι) d children () rm) (selectChildren t children rm)
  | [] => fun _ _ _ => ⟨rfl, rfl, rfl⟩
  | child :: children => fun d rm hd => by
    have hchild := evalRules_agrees t ι child d
    have hchildren := evalChildren_agrees t ι children d
    rw [childrenDepth] at hd
    rw [evalChildren, selectChildren]
    exact (hchild rm (by omega)).andThen fun rm => hchildren rm (by omega)

end

/-- On every tree of rulesets that fits on the stack the loop ends, and the rule it
    selects is the one selected by recursion. -/
theorem anchors_select {ι : Type} (t : RuleTable β) (jump : List (PfRule β) → Nat → ι → Nat)
    {rules : List (PfRule β)} (hdepth : rulesDepth rules ≤ pfAnchorStackSize) :
    Returns (fun fuel => (pfTestRule (t.engine ι) jump fuel rules ()).map PfResult.rm)
      (selectRules t rules none).rm := by
  have hjump : JumpsOverFailing (t.engine ι) jump := by
    intro rs r rule st i _ hskip
    simp only [RuleTable.engine] at hskip
    split at hskip <;> exact absurd hskip (by simp)
  obtain ⟨n, hn⟩ := pfTestRule_returns hjump rules ()
  obtain ⟨hrm, -, -⟩ := evalRules_agrees t ι rules 0 none hdepth
  refine ⟨n, fun fuel hfuel => ?_⟩
  have h := hn fuel hfuel
  dsimp only at h ⊢
  rw [h, Option.map_some, PfOut.result, hrm]

/-- A quick anchor in which a nested wildcard anchor has a match stops the evaluation; an
    empty one and one without a match do not. -/
theorem anchors_select_nested :
    Returns (fun fuel => (pfTestRule
        (RuleTable.engine ⟨fun b => b ≠ 4, fun _ => false, fun b => b = 2⟩ Unit)
        (fun _ r _ => r + 1) fuel
        [.wildcard 2 [], .anchor 2 [.rule 4], .anchor 2 [.wildcard 3 [[], [.rule 1]], .rule 4],
          .rule 7] ()).map PfResult.rm)
      (some (1 : Nat)) := by
  have hdepth : rulesDepth [.wildcard 2 [], .anchor 2 [.rule 4],
      .anchor 2 [.wildcard 3 [[], [.rule 1]], .rule 4], .rule 7] ≤ pfAnchorStackSize := by
    decide
  exact anchors_select ⟨fun b : Nat => b ≠ 4, fun _ => false, fun b => b = 2⟩
    (fun _ r (_ : Unit) => r + 1) hdepth

end Select

end OpenBsd.Net
