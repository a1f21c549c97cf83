/-
  OpenBsd.Net.PfRuleset

  The evaluation loop of `pf_test_rule` in `sys/net/pf.c`, with `pf_step_into_anchor`
  and `pf_step_out_of_anchor`, and the recursive evaluation of rulesets that it carries
  out on an explicit stack.

  What a rule tests and what a match rule does to the packet are parameters
  (`PfEngine`).  A pointer into a rule list is the list with an index, and `NULL` is any
  index from its length on.  The pointers `*am` and `*rsm` that are kept for logging are
  left out.
-/

import OpenBsd.Lib.Loop

namespace OpenBsd.Net

open OpenBsd.Lib

/-! ## Rules -/

/-- A rule: without an anchor, with the ruleset of an anchor, or with a wildcard anchor and
    the rulesets of its children in the order of the tree. -/
inductive PfRule (β : Type) where
  | rule (body : β)
  | anchor (body : β) (ruleset : List (PfRule β))
  | wildcard (body : β) (children : List (List (PfRule β)))

/-- The fields of a rule other than the anchor. -/
def PfRule.body {β : Type} : PfRule β → β
  | .rule b => b
  | .anchor b _ => b
  | .wildcard b _ => b

/-- The end of the tests of a rule: `PF_TEST_ATTRIB` goes on with a skip pointer or with
    the next rule, or the rule matches. -/
inductive PfTest (ι : Type) where
  | skip (i : ι)
  | next
  | hit
  deriving DecidableEq

/-- What a rule does with a packet in a state of its evaluation.  `act` are the effects of
    a match rule; without a result they end the evaluation (`goto cleanup`). -/
structure PfEngine (β σ ι : Type) where
  test : σ → β → σ × PfTest ι
  act : σ → β → Option σ
  isMatch : β → Bool
  quick : β → Bool

def pfAnchorStackSize : Nat := 64

/-! ## The loop -/

/-- `struct pf_anchor_stackframe`: where to go on, and the siblings behind the child in
    evaluation.  There are none for a plain anchor and once `child` is `NULL`. -/
structure PfAnchorStackframe (β : Type) where
  rs : List (PfRule β)
  r : Nat
  child : Option (List (List (PfRule β)))

/-- The variables of the loop; the depth `asd` is the height of the stack. -/
structure PfWalk (β σ : Type) where
  rs : List (PfRule β)
  r : Nat
  stack : List (PfAnchorStackframe β)
  matched : Nat
  st : σ
  rm : Option β

/-- The end of the loop, or of the function when `cleanup` is set. -/
structure PfResult (β σ : Type) where
  st : σ
  rm : Option β
  cleanup : Bool

section Loop

variable {β σ ι : Type}

/-- The loop is left. -/
def PfWalk.finish (w : PfWalk β σ) : PfResult β σ := ⟨w.st, w.rm, false⟩

def pfStepIntoAnchor (w : PfWalk β σ) : PfRule β → PfWalk β σ
  | .rule _ => w
  | .anchor _ ruleset =>
    if w.stack.length ≥ pfAnchorStackSize then { w with r := w.r + 1 }
    else { w with rs := ruleset, r := 0, stack := ⟨w.rs, w.r, none⟩ :: w.stack }
  | .wildcard _ [] =>
    if w.stack.length ≥ pfAnchorStackSize then { w with r := w.r + 1 }
    else { w with r := w.rs.length, stack := ⟨w.rs, w.r, none⟩ :: w.stack }
  | .wildcard _ (child :: siblings) =>
    if w.stack.length ≥ pfAnchorStackSize then { w with r := w.r + 1 }
    else { w with rs := child, r := 0, stack := ⟨w.rs, w.r, some siblings⟩ :: w.stack }

/-- `RB_NEXT` until there is a child with a rule. -/
def nextChild (child : Option (List (List (PfRule β)))) :
    Option (List (PfRule β) × List (List (PfRule β))) :=
  match child with
  | none => none
  | some siblings =>
    match siblings.dropWhile List.isEmpty with
    | [] => none
    | c :: cs => some (c, cs)

/-- `f->r->quick`. -/
def PfAnchorStackframe.quick (e : PfEngine β σ ι) (f : PfAnchorStackframe β) : Bool :=
  match f.rs[f.r]? with
  | none => false
  | some rule => e.quick rule.body

/-- The frame is left: the depth goes down, and a match inside is a match at the depth
    of the anchor rule. -/
def PfWalk.pop (w : PfWalk β σ) (f : PfAnchorStackframe β) (rest : List (PfAnchorStackframe β)) :
    PfWalk β σ :=
  { w with
    rs := f.rs
    r := f.r + 1
    stack := rest
    matched := if w.matched > rest.length then rest.length else w.matched }

/-- `pf_step_out_of_anchor`, from a stack on, with its return value so far. -/
def pfStepOutOfAnchor (e : PfEngine β σ ι) :
    List (PfAnchorStackframe β) → PfWalk β σ → Bool → PfWalk β σ × Bool
  | [], w, quick => ({ w with stack := [] }, quick)
  | f :: rest, w, quick =>
    match nextChild f.child with
    | some (c, cs) => ({ w with rs := c, r := 0, stack := ⟨f.rs, f.r, some cs⟩ :: rest }, quick)
    | none =>
      let quick' := quick || (decide (w.matched > rest.length) && f.quick e)
      if f.r + 1 < f.rs.length then (w.pop f rest, quick')
      else pfStepOutOfAnchor e rest (w.pop f rest) quick'

def nextrule (e : PfEngine β σ ι) (w : PfWalk β σ) : PfWalk β σ ⊕ PfResult β σ :=
  if w.r < w.rs.length then .inl w
  else
    match pfStepOutOfAnchor e w.stack w false with
    | (w, true) => .inr w.finish
    | (w, false) => .inl w

def matchRule (e : PfEngine β σ ι) (w : PfWalk β σ) (b : β) : PfWalk β σ ⊕ PfResult β σ :=
  if e.isMatch b then
    match e.act w.st b with
    | none => .inr ⟨w.st, w.rm, true⟩
    | some st =>
      let w := { w with st := st }
      if e.quick b then .inr w.finish else nextrule e { w with r := w.r + 1 }
  else
    let w := { w with matched := w.stack.length, rm := some b }
    if e.quick b then .inr w.finish else nextrule e { w with r := w.r + 1 }

/-- The body of the loop; `jump` says where a skip pointer leads. -/
def pfTestRuleBody (e : PfEngine β σ ι) (jump : List (PfRule β) → Nat → ι → Nat)
    (w : PfWalk β σ) : Option (PfWalk β σ ⊕ PfResult β σ) :=
  match w.rs[w.r]? with
  | none => some (.inr w.finish)
  | some rule =>
    match e.test w.st rule.body with
    | (st, .skip i) => some (nextrule e { w with st := st, r := jump w.rs w.r i })
    | (st, .next) => some (nextrule e { w with st := st, r := w.r + 1 })
    | (st, .hit) =>
      match rule with
      | .rule b => some (matchRule e { w with st := st } b)
      | .anchor b ruleset => some (nextrule e (pfStepIntoAnchor { w with st := st } (.anchor b ruleset)))
      | .wildcard b cs => some (nextrule e (pfStepIntoAnchor { w with st := st } (.wildcard b cs)))

/-- The loop of `pf_test_rule` on the main ruleset, for at most `fuel` iterations. -/
def pfTestRule (e : PfEngine β σ ι) (jump : List (PfRule β) → Nat → ι → Nat) (fuel : Nat)
    (rules : List (PfRule β)) (st : σ) : Option (PfResult β σ) :=
  loop (pfTestRuleBody e jump) fuel
    { rs := rules, r := 0, stack := [], matched := 0, st := st, rm := none }

end Loop

/-! ## The recursive evaluation -/

/-- Why an evaluation ends before the last rule. -/
inductive PfStop where
  | quick
  | cleanup
  deriving DecidableEq

/-- The end of an evaluation; `hit` says whether a pass or block rule matched in it. -/
structure PfOut (β σ : Type) where
  st : σ
  rm : Option β
  hit : Bool
  stop : Option PfStop

section Eval

variable {β σ ι : Type}

/-- The evaluation goes on, unless it has stopped. -/
def PfOut.andThen (o : PfOut β σ) (f : σ → Option β → PfOut β σ) : PfOut β σ :=
  match o.stop with
  | some _ => o
  | none => { f o.st o.rm with hit := o.hit || (f o.st o.rm).hit }

/-- A quick anchor stops the evaluation if a pass or block rule matched inside. -/
def PfOut.leave (o : PfOut β σ) (quick : Bool) : PfOut β σ :=
  if o.stop = none ∧ o.hit = true ∧ quick = true then { o with stop := some .quick } else o

/-- A rule without an anchor matches. -/
def evalHit (e : PfEngine β σ ι) (b : β) (st : σ) (rm : Option β) : PfOut β σ :=
  if e.isMatch b then
    match e.act st b with
    | none => ⟨st, rm, false, some .cleanup⟩
    | some st => ⟨st, rm, false, if e.quick b then some .quick else none⟩
  else ⟨st, some b, true, if e.quick b then some .quick else none⟩

mutual

/-- A rule at the depth `d`. -/
def evalRule (e : PfEngine β σ ι) (d : Nat) : PfRule β → σ → Option β → PfOut β σ
  | .rule b, st, rm =>
    match e.test st b with
    | (st, .hit) => evalHit e b st rm
    | (st, _) => ⟨st, rm, false, none⟩
  | .anchor b ruleset, st, rm =>
    match e.test st b with
    | (st, .hit) =>
      if d ≥ pfAnchorStackSize then ⟨st, rm, false, none⟩
      else (evalRules e (d + 1) ruleset st rm).leave (e.quick b)
    | (st, _) => ⟨st, rm, false, none⟩
  | .wildcard b children, st, rm =>
    match e.test st b with
    | (st, .hit) =>
      if d ≥ pfAnchorStackSize then ⟨st, rm, false, none⟩
      else (evalChildren e (d + 1) children st rm).leave (e.quick b)
    | (st, _) => ⟨st, rm, false, none⟩

def evalRules (e : PfEngine β σ ι) (d : Nat) : List (PfRule β) → σ → Option β → PfOut β σ
  | [], st, rm => ⟨st, rm, false, none⟩
  | rule :: rules, st, rm =>
    (evalRule e d rule st rm).andThen fun st rm => evalRules e d rules st rm

/-- The rulesets of the children of a wildcard anchor in turn. -/
def evalChildren (e : PfEngine β σ ι) (d : Nat) :
    List (List (PfRule β)) → σ → Option β → PfOut β σ
  | [], st, rm => ⟨st, rm, false, none⟩
  | child :: children, st, rm =>
    (evalRules e d child st rm).andThen fun st rm => evalChildren e d children st rm

end

/-- The result that an evaluation stands for. -/
def PfOut.result (o : PfOut β σ) : PfResult β σ := ⟨o.st, o.rm, o.stop = some .cleanup⟩

end Eval

end OpenBsd.Net
