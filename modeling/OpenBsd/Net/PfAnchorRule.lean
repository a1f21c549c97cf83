/-
  OpenBsd.Net.PfAnchorRule

  The loop of `pf_test_rule` in `sys/net/pf.c` with the anchor rule `a` and what it leaves
  in `*am` and `*rsm`, and the places of rules in a tree of rulesets.

  `*am` and `*rsm` are those of the rule in `*rm`; without one they are `NULL`.
-/

import OpenBsd.Net.PfSkip

namespace OpenBsd.Net

open OpenBsd.Lib

variable {β σ ι : Type}

/-! ## The loop with `a` -/

/-- The variables of the loop, with `a`, `*am` and `*rsm`; `ruleset` is `w.rs`. -/
structure PfAnchorWalk (β σ : Type) where
  w : PfWalk β σ
  a : Option (PfRule β)
  am : Option (PfRule β)
  rsm : Option (List (PfRule β))

structure PfAnchorResult (β σ : Type) where
  res : PfResult β σ
  am : Option (PfRule β)
  rsm : Option (List (PfRule β))

/-- The loop is left. -/
def PfAnchorWalk.finish (v : PfAnchorWalk β σ) : PfAnchorResult β σ := ⟨v.w.finish, v.am, v.rsm⟩

def stepIntoAnchor (v : PfAnchorWalk β σ) (r : PfRule β) : PfAnchorWalk β σ :=
  { v with
    w := pfStepIntoAnchor v.w r
    a := if v.w.stack.length ≥ pfAnchorStackSize then v.a else some r }

/-- `*a` after `pf_step_out_of_anchor`. -/
def outOfAnchor : List (PfAnchorStackframe β) → Option (PfRule β) → Option (PfRule β)
  | [], a => a
  | f :: rest, a =>
    match nextChild f.child with
    | some _ => a
    | none =>
      let a := if rest.isEmpty then none else f.rs[f.r]?
      if f.r + 1 < f.rs.length then a else outOfAnchor rest a

def anchorNextrule (e : PfEngine β σ ι) (v : PfAnchorWalk β σ) :
    PfAnchorWalk β σ ⊕ PfAnchorResult β σ :=
  if v.w.r < v.w.rs.length then .inl v
  else
    let a := outOfAnchor v.w.stack v.a
    match pfStepOutOfAnchor e v.w.stack v.w false with
    | (w, true) => .inr { v with w, a }.finish
    | (w, false) => .inl { v with w, a }

def anchorMatchRule (e : PfEngine β σ ι) (v : PfAnchorWalk β σ) (b : β) :
    PfAnchorWalk β σ ⊕ PfAnchorResult β σ :=
  if e.isMatch b then
    match e.act v.w.st b with
    | none => .inr ⟨⟨v.w.st, v.w.rm, true⟩, v.am, v.rsm⟩
    | some st =>
      let v := { v with w := { v.w with st := st } }
      if e.quick b then .inr v.finish
      else anchorNextrule e { v with w := { v.w with r := v.w.r + 1 } }
  else
    let v :=
      { v with
        w := { v.w with matched := v.w.stack.length, rm := some b }
        am := v.a
        rsm := some v.w.rs }
    if e.quick b then .inr v.finish
    else anchorNextrule e { v with w := { v.w with r := v.w.r + 1 } }

def anchorBody (e : PfEngine β σ ι) (jump : List (PfRule β) → Nat → ι → Nat)
    (v : PfAnchorWalk β σ) : Option (PfAnchorWalk β σ ⊕ PfAnchorResult β σ) :=
  match v.w.rs[v.w.r]? with
  | none => some (.inr v.finish)
  | some rule =>
    match e.test v.w.st rule.body with
    | (st, .skip i) =>
      some (anchorNextrule e { v with w := { v.w with st := st, r := jump v.w.rs v.w.r i } })
    | (st, .next) => some (anchorNextrule e { v with w := { v.w with st := st, r := v.w.r + 1 } })
    | (st, .hit) =>
      let v := { v with w := { v.w with st := st } }
      match rule with
      | .rule b => some (anchorMatchRule e v b)
      | .anchor b ruleset => some (anchorNextrule e (stepIntoAnchor v (.anchor b ruleset)))
      | .wildcard b cs => some (anchorNextrule e (stepIntoAnchor v (.wildcard b cs)))

/-- The loop of `pf_test_rule` on the main ruleset, for at most `fuel` iterations. -/
def anchorTestRule (e : PfEngine β σ ι) (jump : List (PfRule β) → Nat → ι → Nat) (fuel : Nat)
    (rules : List (PfRule β)) (st : σ) : Option (PfAnchorResult β σ) :=
  loop (anchorBody e jump) fuel
    { w := { rs := rules, r := 0, stack := [], matched := 0, st := st, rm := none }
      a := none, am := none, rsm := none }

/-! ## Places -/

/-- A rule of a tree, the ruleset with the rule, and the anchor rule through which that
    ruleset is entered, with the number of anchors around it. -/
structure PfPlace (β : Type) where
  rule : PfRule β
  rs : List (PfRule β)
  anchor : Option (PfRule β)
  depth : Nat

mutual

/-- Every rule inside a rule becomes its place. -/
def placeRule (rs : List (PfRule β)) (anchor : Option (PfRule β)) (d : Nat) :
    PfRule β → PfRule (PfPlace β)
  | .rule b => .rule ⟨.rule b, rs, anchor, d⟩
  | .anchor b ruleset =>
    .anchor ⟨.anchor b ruleset, rs, anchor, d⟩
      (placeRules ruleset (some (.anchor b ruleset)) (d + 1) ruleset)
  | .wildcard b children =>
    .wildcard ⟨.wildcard b children, rs, anchor, d⟩
      (placeChildren (some (.wildcard b children)) (d + 1) children)

/-- Some of the rules of the ruleset `rs`. -/
def placeRules (rs : List (PfRule β)) (anchor : Option (PfRule β)) (d : Nat) :
    List (PfRule β) → List (PfRule (PfPlace β))
  | [] => []
  | rule :: rules => placeRule rs anchor d rule :: placeRules rs anchor d rules

def placeChildren (anchor : Option (PfRule β)) (d : Nat) :
    List (List (PfRule β)) → List (List (PfRule (PfPlace β)))
  | [] => []
  | child :: children => placeRules child anchor d child :: placeChildren anchor d children

end

/-- The last anchor rule that was entered, and the one when the last pass or block rule
    matched. -/
structure PfEntered (β : Type) where
  last : Option (PfRule β)
  atMatch : Option (PfRule β)

/-- What the match of a rule adds. -/
def PfEntered.hit (e : PfEngine β σ ι) (n : PfEntered β) (p : PfPlace β) : PfEntered β :=
  match p.rule with
  | .rule b => if e.isMatch b then n else { n with atMatch := n.last }
  | a => if p.depth ≥ pfAnchorStackSize then n else { n with last := some a }

/-- The rules at their places do what they do, and the anchor rules that are entered are
    noted. -/
def placeEngine (e : PfEngine β σ ι) : PfEngine (PfPlace β) (σ × PfEntered β) ι where
  test := fun st p =>
    match e.test st.1 p.rule.body with
    | (st', .hit) => ((st', st.2.hit e p), .hit)
    | (st', t) => ((st', st.2), t)
  act := fun st p => (e.act st.1 p.rule.body).map fun st' => (st', st.2)
  isMatch := fun p => e.isMatch p.rule.body
  quick := fun p => e.quick p.rule.body

/-- The recursive evaluation of a tree: the place of the last pass or block rule that
    matches, with the anchor rules that were entered. -/
def evalPlaces (e : PfEngine β σ ι) (rules : List (PfRule β)) (st : σ) :
    PfOut (PfPlace β) (σ × PfEntered β) :=
  evalRules (placeEngine e) 0 (placeRules rules none 0 rules) (st, ⟨none, none⟩) none

/-- `rs` is the ruleset of an anchor rule, or that of a child of a wildcard. -/
def Enters : PfRule β → List (PfRule β) → Prop
  | .rule _, _ => False
  | .anchor _ ruleset, rs => rs = ruleset
  | .wildcard _ children, rs => rs ∈ children

/-- A place of the tree of `rules`. -/
structure PfPlace.In (rules : List (PfRule β)) (p : PfPlace β) : Prop where
  rule_mem : p.rule ∈ p.rs
  main : p.anchor = none → p.rs = rules
  inner : ∀ a, p.anchor = some a → Enters a p.rs

end OpenBsd.Net
