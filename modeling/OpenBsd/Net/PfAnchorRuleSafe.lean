/-
  OpenBsd.Net.PfAnchorRuleSafe

  When `pf_test_rule` reports the anchor rule through which the ruleset of the selected
  rule was entered.

  The loop runs in step with the loop on the places of the rules, which selects the place of
  the rule in `*rm`.
-/

import OpenBsd.Net.PfAnchorRule

namespace OpenBsd.Net

open OpenBsd.Lib List

variable {β σ ι : Type} {e : PfEngine β σ ι} {jump : List (PfRule β) → Nat → ι → Nat}
  {rules : List (PfRule β)}

/-! ## Places -/

theorem placeRules_eq_map (rs : List (PfRule β)) (anchor : Option (PfRule β)) (d : Nat)
    (l : List (PfRule β)) : placeRules rs anchor d l = l.map (placeRule rs anchor d) := by
  induction l with
  | nil => rw [placeRules, map_nil]
  | cons rule l ih => rw [placeRules, ih, map_cons]

theorem placeChildren_eq_map (anchor : Option (PfRule β)) (d : Nat)
    (l : List (List (PfRule β))) :
    placeChildren anchor d l = l.map fun c => placeRules c anchor d c := by
  induction l with
  | nil => rw [placeChildren, map_nil]
  | cons c l ih => rw [placeChildren, ih, map_cons]

section

variable (rs : List (PfRule β)) (anchor : Option (PfRule β)) (d : Nat)
include rs anchor d

@[simp] theorem placeRules_length (l : List (PfRule β)) :
    (placeRules rs anchor d l).length = l.length := by
  rw [placeRules_eq_map, length_map]

theorem placeRule_body (rule : PfRule β) :
    (placeRule rs anchor d rule).body = ⟨rule, rs, anchor, d⟩ := by
  cases rule <;> rw [placeRule] <;> rfl

theorem placeRules_getElem? (l : List (PfRule β)) (r : Nat) :
    (placeRules rs anchor d l)[r]? = l[r]?.map (placeRule rs anchor d) := by
  rw [placeRules_eq_map, getElem?_map]

end

/-- The rules of a list of places. -/
def placedRules (rs : List (PfRule (PfPlace β))) : List (PfRule β) := rs.map fun q => q.body.rule

theorem placedRules_placeRules (rs : List (PfRule β)) (anchor : Option (PfRule β)) (d : Nat)
    (l : List (PfRule β)) : placedRules (placeRules rs anchor d l) = l := by
  rw [placedRules, placeRules_eq_map, map_map]
  conv_rhs => rw [← map_id l]
  apply map_congr_left
  intro rule _
  simp only [Function.comp_apply, placeRule_body, id_eq]

/-- The skip pointers between places. -/
def placeJump (jump : List (PfRule β) → Nat → ι → Nat) (rs : List (PfRule (PfPlace β)))
    (r : Nat) (i : ι) : Nat := jump (placedRules rs) r i

variable {p : PfPlace β} {st' : σ} {st : σ × PfEntered β}

theorem placeEngine_hit (h : e.test st.1 p.rule.body = (st', .hit)) :
    (placeEngine e).test st p = ((st', st.2.hit e p), .hit) := by
  simp only [placeEngine, h]

theorem placeEngine_miss {t : PfTest ι} (h : e.test st.1 p.rule.body = (st', t)) (ht : t ≠ .hit) :
    (placeEngine e).test st p = ((st', st.2), t) := by
  cases t with
  | hit => exact absurd rfl ht
  | skip i => simp only [placeEngine, h]
  | next => simp only [placeEngine, h]

theorem placeEngine_test_snd (st : σ × PfEntered β) (p : PfPlace β) :
    ((placeEngine e).test st p).2 = (e.test st.1 p.rule.body).2 := by
  match h : e.test st.1 p.rule.body with
  | (st', .hit) => rw [placeEngine_hit h]
  | (st', .skip i) => rw [placeEngine_miss h (by simp)]
  | (st', .next) => rw [placeEngine_miss h (by simp)]

theorem placeJump_jumps (hjump : JumpsOverFailing e jump) :
    JumpsOverFailing (placeEngine e) (placeJump jump) := by
  intro rs r rule st i hrule hskip
  have hget : (placedRules rs)[r]? = some rule.body.rule := by
    rw [placedRules, getElem?_map, hrule]
    rfl
  rw [placeEngine_test_snd] at hskip
  obtain ⟨hlt, hle, hfail⟩ := hjump (placedRules rs) r rule.body.rule st.1 i hget hskip
  refine ⟨hlt, ?_, ?_⟩
  · rw [placedRules, length_map] at hle
    exact hle
  · intro k q hk hk' hq
    have hgetq : (placedRules rs)[k]? = some q.body.rule := by
      rw [placedRules, getElem?_map, hq]
      rfl
    obtain ⟨hst, hnot⟩ := hfail k q.body.rule hk hk' hgetq
    have htest : (placeEngine e).test st q.body = _ := placeEngine_miss rfl hnot
    rw [Fails, htest]
    exact ⟨Prod.ext hst rfl, hnot⟩

/-! ## The walk and its places -/

/-- The anchor rule of the frame on top. -/
def anchorOf (stack : List (PfAnchorStackframe β)) : Option (PfRule β) :=
  stack.head?.bind fun f => f.rs[f.r]?

def placeFrames : List (PfAnchorStackframe β) → List (PfAnchorStackframe (PfPlace β))
  | [] => []
  | f :: rest =>
    ⟨placeRules f.rs (anchorOf rest) rest.length f.rs, f.r,
      f.child.map (placeChildren f.rs[f.r]? (rest.length + 1))⟩ :: placeFrames rest

@[simp] theorem placeFrames_length (stack : List (PfAnchorStackframe β)) :
    (placeFrames stack).length = stack.length := by
  induction stack with
  | nil => rfl
  | cons f rest ih => rw [placeFrames, length_cons, length_cons, ih]

/-- The ruleset in evaluation is the main one, or that of the anchor on top. -/
def RulesetOf (rules rs : List (PfRule β)) (stack : List (PfAnchorStackframe β)) : Prop :=
  (anchorOf stack = none → rs = rules) ∧ ∀ A, anchorOf stack = some A → Enters A rs

/-- Each frame has an anchor rule, through which the children left in it are entered. -/
def FramesOk (rules : List (PfRule β)) : List (PfAnchorStackframe β) → Prop
  | [] => True
  | f :: rest =>
    (∃ A, f.rs[f.r]? = some A ∧ ∀ cs, f.child = some cs → ∀ c ∈ cs, Enters A c) ∧
      RulesetOf rules f.rs rest ∧ FramesOk rules rest

theorem sizeOf_lt_of_enters {A r : PfRule β} {rs : List (PfRule β)} (h : Enters A rs)
    (hr : r ∈ rs) : sizeOf r < sizeOf A := by
  cases A with
  | rule b => exact h.elim
  | anchor b ruleset =>
    have hmem : r ∈ ruleset := by
      rw [Enters] at h
      exact h ▸ hr
    have := sizeOf_lt_of_mem hmem
    rw [PfRule.anchor.sizeOf_spec]
    omega
  | wildcard b children =>
    have h₁ := sizeOf_lt_of_mem hr
    have h₂ := sizeOf_lt_of_mem (show rs ∈ children from h)
    rw [PfRule.wildcard.sizeOf_spec]
    omega

/-- `a` and the last anchor rule entered: both are the anchor around, or both lie inside of
    it. -/
def AnchorKnown (stack : List (PfAnchorStackframe β)) (a last : Option (PfRule β)) : Prop :=
  (stack = [] → a = none) ∧
    ∀ A, anchorOf stack = some A →
      a = some A ∧ last = some A ∨
        (∃ x, a = some x ∧ sizeOf x < sizeOf A) ∧ ∃ y, last = some y ∧ sizeOf y < sizeOf A

/-- What is in `*rm`, `*rsm` and `*am`. -/
def Reported (rules : List (PfRule β)) (rm : Option β) (am : Option (PfRule β))
    (rsm : Option (List (PfRule β))) (atMatch : Option (PfRule β)) : Option (PfPlace β) → Prop
  | none => rm = none ∧ am = none ∧ rsm = none
  | some p =>
    p.In rules ∧ (∃ b, p.rule = .rule b ∧ rm = some b) ∧ rsm = some p.rs ∧
      (am = p.anchor ↔ p.anchor = none ∨ atMatch = p.anchor)

/-- The walk on the places is in step, before or after `nextrule`. -/
structure Tracks (rules : List (PfRule β)) (v : PfAnchorWalk β σ)
    (w : PfWalk (PfPlace β) (σ × PfEntered β)) : Prop where
  stack : w.stack = placeFrames v.w.stack
  matched : w.matched = v.w.matched
  st : w.st.1 = v.w.st
  null_iff : w.r < w.rs.length ↔ v.w.r < v.w.rs.length
  here : v.w.r < v.w.rs.length →
    w.rs = placeRules v.w.rs (anchorOf v.w.stack) v.w.stack.length v.w.rs ∧ w.r = v.w.r ∧
      RulesetOf rules v.w.rs v.w.stack
  frames : FramesOk rules v.w.stack
  known : AnchorKnown v.w.stack v.a w.st.2.last
  reported : Reported rules v.w.rm v.am v.rsm w.st.2.atMatch w.rm

/-- The two loops are left with the same rule. -/
def SameResult (rules : List (PfRule β)) (r : PfAnchorResult β σ)
    (q : PfResult (PfPlace β) (σ × PfEntered β)) : Prop :=
  q.st.1 = r.res.st ∧ q.cleanup = r.res.cleanup ∧
    Reported rules r.res.rm r.am r.rsm q.st.2.atMatch q.rm

variable {v : PfAnchorWalk β σ} {w : PfWalk (PfPlace β) (σ × PfEntered β)}

theorem Tracks.finish (h : Tracks rules v w) : SameResult rules v.finish w.finish :=
  ⟨h.st, rfl, h.reported⟩

/-! ## pf_step_out_of_anchor -/

theorem nextChild_map (g : List (PfRule β) → List (PfRule (PfPlace β)))
    (hg : ∀ c, (g c).isEmpty = c.isEmpty) (child : Option (List (List (PfRule β)))) :
    nextChild (child.map (List.map g)) =
      (nextChild child).map fun p => (g p.1, p.2.map g) := by
  cases child with
  | none => rfl
  | some cs =>
    have hdrop : (cs.map g).dropWhile List.isEmpty = (cs.dropWhile List.isEmpty).map g := by
      rw [dropWhile_map]
      congr 1
      exact congrArg (fun p => cs.dropWhile p) (funext hg)
    simp only [nextChild, Option.map_some, hdrop]
    cases cs.dropWhile List.isEmpty with
    | nil => rfl
    | cons c cs => rfl

theorem nextChild_mem {child : Option (List (List (PfRule β)))} {c : List (PfRule β)}
    {cs : List (List (PfRule β))} (h : nextChild child = some (c, cs)) :
    ∃ l, child = some l ∧ c ∈ l ∧ (∀ x ∈ cs, x ∈ l) ∧ 0 < c.length := by
  cases child with
  | none => cases h
  | some l =>
    simp only [nextChild] at h
    split at h
    · cases h
    · rename_i c' cs' hdrop
      cases h
      have hsuffix : c :: cs <:+ l := hdrop ▸ dropWhile_suffix List.isEmpty
      have hhead := @List.head_dropWhile_not _ List.isEmpty l (by rw [hdrop]; simp)
      simp only [hdrop, head_cons] at hhead
      refine ⟨l, rfl, hsuffix.subset mem_cons_self, ?_, ?_⟩
      · intro x hx
        exact hsuffix.subset (mem_cons_of_mem c hx)
      · cases c with
        | nil => cases hhead
        | cons q c => exact Nat.succ_pos _

theorem placeChildren_isEmpty (anchor : Option (PfRule β)) (d : Nat) (c : List (PfRule β)) :
    (placeRules c anchor d c).isEmpty = c.isEmpty := by
  rw [placeRules_eq_map, isEmpty_map]

theorem nextChild_place (anchor : Option (PfRule β)) (d : Nat)
    (child : Option (List (List (PfRule β)))) :
    nextChild (child.map (placeChildren anchor d)) =
      (nextChild child).map fun p =>
        (placeRules p.1 anchor d p.1, placeChildren anchor d p.2) := by
  have hmap : placeChildren anchor d = List.map fun c : List (PfRule β) =>
      placeRules c anchor d c := funext (placeChildren_eq_map anchor d)
  rw [hmap]
  exact nextChild_map _ (placeChildren_isEmpty anchor d) child

/-- The two walks at the end of a ruleset, with these frames still to be left. -/
structure Leaving (rules : List (PfRule β)) (stack : List (PfAnchorStackframe β))
    (v : PfAnchorWalk β σ) (w : PfWalk (PfPlace β) (σ × PfEntered β)) : Prop where
  matched : w.matched = v.w.matched
  st : w.st.1 = v.w.st
  null : ¬v.w.r < v.w.rs.length
  null' : ¬w.r < w.rs.length
  frames : FramesOk rules stack
  known : AnchorKnown stack v.a w.st.2.last
  reported : Reported rules v.w.rm v.am v.rsm w.st.2.atMatch w.rm

theorem Tracks.leaving (h : Tracks rules v w) (hnull : ¬v.w.r < v.w.rs.length) :
    Leaving rules v.w.stack v w where
  matched := h.matched
  st := h.st
  null := hnull
  null' := fun hlt => hnull (h.null_iff.mp hlt)
  frames := h.frames
  known := h.known
  reported := h.reported

variable {rest : List (PfAnchorStackframe β)} {a last : Option (PfRule β)}
  {f : PfAnchorStackframe β}

theorem AnchorKnown.leave (hframes : FramesOk rules (f :: rest))
    (h : AnchorKnown (f :: rest) a last) :
    AnchorKnown rest (if rest.isEmpty then none else f.rs[f.r]?) last := by
  obtain ⟨⟨A, hA, -⟩, hruleset, -⟩ := hframes
  refine ⟨?_, ?_⟩
  · rintro rfl
    rfl
  · intro A₂ hA₂
    have hsize : sizeOf A < sizeOf A₂ :=
      sizeOf_lt_of_enters (hruleset.2 A₂ hA₂) (mem_of_getElem? hA)
    have hne : rest.isEmpty = false := by
      cases rest with
      | nil => cases hA₂
      | cons f₂ rest => rfl
    refine .inr ⟨⟨A, ?_, hsize⟩, ?_⟩
    · rw [hne, hA]
      rfl
    · obtain ⟨-, hlast⟩ | ⟨-, y, hy, hlt⟩ := h.2 A hA
      · exact ⟨A, hlast, hsize⟩
      · exact ⟨y, hy, hlt.trans hsize⟩

theorem placeFrame_quick (f : PfAnchorStackframe β) (anchor : Option (PfRule β)) (d : Nat)
    (child : Option (List (List (PfRule (PfPlace β))))) :
    PfAnchorStackframe.quick (placeEngine e) ⟨placeRules f.rs anchor d f.rs, f.r, child⟩ =
      f.quick e := by
  simp only [PfAnchorStackframe.quick, placeRules_getElem?]
  cases f.rs[f.r]? with
  | none => rfl
  | some rule => simp only [Option.map_some, placeRule_body, placeEngine]

theorem Leaving.pop {f' : PfAnchorStackframe (PfPlace β)} (h : Leaving rules (f :: rest) v w)
    (hlen : f'.rs.length = f.rs.length) (hr : f'.r = f.r) (hend : ¬f.r + 1 < f.rs.length) :
    Leaving rules rest
      { v with w := v.w.pop f rest, a := if rest.isEmpty then none else f.rs[f.r]? }
      (w.pop f' (placeFrames rest)) where
  matched := by simp only [PfWalk.pop, placeFrames_length, h.matched]
  st := h.st
  null := hend
  null' := by
    simp only [PfWalk.pop, hlen, hr]
    exact hend
  frames := h.frames.2.2
  known := h.known.leave h.frames
  reported := h.reported

/-- Leaving anchors keeps the walks in step. -/
theorem pfStepOutOfAnchor_tracks : ∀ (stack : List (PfAnchorStackframe β))
    (v : PfAnchorWalk β σ) (w : PfWalk (PfPlace β) (σ × PfEntered β)) (q : Bool),
    Leaving rules stack v w →
    (pfStepOutOfAnchor (placeEngine e) (placeFrames stack) w q).2 =
        (pfStepOutOfAnchor e stack v.w q).2 ∧
      Tracks rules
        { v with w := (pfStepOutOfAnchor e stack v.w q).1, a := outOfAnchor stack v.a }
        (pfStepOutOfAnchor (placeEngine e) (placeFrames stack) w q).1 := by
  intro stack
  induction stack with
  | nil =>
    intro v w q h
    refine ⟨rfl, ⟨rfl, h.matched, h.st, ?_, ?_, h.frames, h.known, h.reported⟩⟩
    · exact ⟨fun hlt => absurd hlt h.null', fun hlt => absurd hlt h.null⟩
    · exact fun hlt => absurd hlt h.null
  | cons f rest ih =>
    intro v w q h
    obtain ⟨⟨A, hA, hchildren⟩, hruleset, hrest⟩ := h.frames
    have hnext := nextChild_place f.rs[f.r]? (rest.length + 1) f.child
    rw [pfStepOutOfAnchor, placeFrames, pfStepOutOfAnchor, outOfAnchor, hnext]
    cases hchild : nextChild f.child with
    | some p =>
      -- the next child, in the same frame
      obtain ⟨c, cs⟩ := p
      obtain ⟨l, hl, hc, hcs, hpos⟩ := nextChild_mem hchild
      simp only [Option.map_some]
      refine ⟨trivial, ⟨?_, h.matched, h.st, ?_, ?_, ?_, ?_, h.reported⟩⟩
      · simp only [placeFrames, Option.map_some]
      · rw [placeRules_length]
      · intro _
        refine ⟨rfl, rfl, ?_⟩
        rw [RulesetOf, show anchorOf (⟨f.rs, f.r, some cs⟩ :: rest) = some A from hA]
        refine ⟨(fun hnone => by cases hnone), ?_⟩
        rintro B ⟨⟩
        exact hchildren l hl c hc
      · refine ⟨⟨A, hA, ?_⟩, hruleset, hrest⟩
        rintro cs' ⟨⟩ c' hc'
        exact hchildren l hl c' (hcs c' hc')
      · exact ⟨fun hnil => absurd hnil (cons_ne_nil _ _), h.known.2⟩
    | none =>
      simp only [Option.map_none, placeFrames_length, placeRules_length, placeFrame_quick,
        h.matched]
      by_cases hmore : f.r + 1 < f.rs.length
      · rw [if_pos hmore, if_pos hmore, if_pos hmore]
        refine ⟨rfl, ⟨rfl, ?_, h.st, ?_, ?_, hrest, h.known.leave h.frames, h.reported⟩⟩
        · simp only [PfWalk.pop, placeFrames_length, h.matched]
        · simp only [PfWalk.pop, placeRules_length]
        · exact fun _ => ⟨rfl, rfl, hruleset⟩
      · rw [if_neg hmore, if_neg hmore, if_neg hmore]
        exact ih _ _ _ (h.pop (placeRules_length _ _ _ _) rfl hmore)

theorem anchorNextrule_tracks (h : Tracks rules v w) :
    OutcomesAgree (Tracks rules) (SameResult rules) (some (anchorNextrule e v))
      (some (nextrule (placeEngine e) w)) := by
  rw [anchorNextrule, nextrule]
  by_cases hlt : v.w.r < v.w.rs.length
  · rw [if_pos hlt, if_pos (h.null_iff.mpr hlt)]
    exact h
  · rw [if_neg hlt, if_neg (fun hlt' => hlt (h.null_iff.mp hlt')), h.stack]
    obtain ⟨hq, htracks⟩ :=
      pfStepOutOfAnchor_tracks (e := e) v.w.stack v w false (h.leaving hlt)
    obtain ⟨⟨v₁, q⟩, hv⟩ : ∃ out, pfStepOutOfAnchor e v.w.stack v.w false = out := ⟨_, rfl⟩
    obtain ⟨⟨w₁, q'⟩, hw⟩ :
        ∃ out, pfStepOutOfAnchor (placeEngine e) (placeFrames v.w.stack) w false = out := ⟨_, rfl⟩
    rw [hv, hw] at hq htracks
    rw [hv, hw]
    obtain rfl : q' = q := hq
    cases q' with
    | true => exact htracks.finish
    | false => exact htracks

/-! ## The body of the loop -/

theorem Tracks.length_eq (h : Tracks rules v w) (hlt : v.w.r < v.w.rs.length) :
    w.rs.length = v.w.rs.length := by
  rw [(h.here hlt).1, placeRules_length]

theorem Tracks.move (h : Tracks rules v w) (hlt : v.w.r < v.w.rs.length) (st : σ) (k : Nat) :
    Tracks rules { v with w := { v.w with st := st, r := k } }
      { w with st := (st, w.st.2), r := k } where
  stack := h.stack
  matched := h.matched
  st := rfl
  null_iff := by rw [h.length_eq hlt]
  here := fun _ => ⟨(h.here hlt).1, rfl, (h.here hlt).2.2⟩
  frames := h.frames
  known := h.known
  reported := h.reported

theorem AnchorKnown.eq_iff {stack : List (PfAnchorStackframe β)}
    (hframes : FramesOk rules stack) (h : AnchorKnown stack a last) :
    a = anchorOf stack ↔ anchorOf stack = none ∨ last = anchorOf stack := by
  cases stack with
  | nil =>
    rw [h.1 rfl]
    exact ⟨fun _ => .inl rfl, fun _ => rfl⟩
  | cons f rest =>
    obtain ⟨⟨A, hA, -⟩, -⟩ := hframes
    have htop : anchorOf (f :: rest) = some A := hA
    rw [htop]
    obtain ⟨rfl, rfl⟩ | ⟨⟨x, rfl, hx⟩, y, rfl, hy⟩ := h.2 A htop
    · exact ⟨fun _ => .inr rfl, fun _ => rfl⟩
    · refine ⟨?_, ?_⟩
      · intro heq
        rw [Option.some.inj heq] at hx
        exact absurd hx (Nat.lt_irrefl _)
      · rintro (hnone | heq)
        · cases hnone
        · rw [Option.some.inj heq] at hy
          exact absurd hy (Nat.lt_irrefl _)

theorem Tracks.report (h : Tracks rules v w) {b : β} (hrule : v.w.rs[v.w.r]? = some (.rule b))
    (st : σ) :
    Tracks rules
      { v with
        w := { v.w with st := st, matched := v.w.stack.length, rm := some b }
        am := v.a
        rsm := some v.w.rs }
      { w with
        st := (st, { w.st.2 with atMatch := w.st.2.last })
        matched := w.stack.length
        rm := some ⟨.rule b, v.w.rs, anchorOf v.w.stack, v.w.stack.length⟩ } := by
  obtain ⟨hlt, -⟩ := List.getElem?_eq_some_iff.mp hrule
  refine ⟨h.stack, ?_, rfl, h.null_iff, h.here, h.frames, h.known, ?_⟩
  · simp only [h.stack, placeFrames_length]
  · have hruleset := (h.here hlt).2.2
    exact ⟨⟨mem_of_getElem? hrule, hruleset.1, hruleset.2⟩, ⟨b, rfl, rfl⟩, rfl,
      h.known.eq_iff h.frames⟩

theorem anchorMatchRule_tracks (h : Tracks rules v w) {b : β}
    (hrule : v.w.rs[v.w.r]? = some (.rule b)) (st : σ) :
    OutcomesAgree (Tracks rules) (SameResult rules)
      (some (anchorMatchRule e { v with w := { v.w with st := st } } b))
      (some (matchRule (placeEngine e)
        { w with st := (st, w.st.2.hit e ⟨.rule b, v.w.rs, anchorOf v.w.stack, v.w.stack.length⟩) }
        ⟨.rule b, v.w.rs, anchorOf v.w.stack, v.w.stack.length⟩)) := by
  obtain ⟨hlt, -⟩ := List.getElem?_eq_some_iff.mp hrule
  have hr := (h.here hlt).2.1
  simp only [anchorMatchRule, matchRule, placeEngine, PfRule.body, PfEntered.hit]
  by_cases hmatch : e.isMatch b = true
  · simp only [hmatch, if_true]
    cases hact : e.act st b with
    | none => exact ⟨rfl, rfl, h.reported⟩
    | some st₂ =>
      simp only [Option.map_some]
      by_cases hquick : e.quick b = true
      · simp only [hquick, if_true]
        exact (h.move hlt st₂ v.w.r).finish
      · simp only [hquick, Bool.false_eq_true, if_false, hr]
        exact anchorNextrule_tracks (h.move hlt st₂ (v.w.r + 1))
  · have hreport := h.report hrule st
    simp only [hmatch, Bool.false_eq_true, if_false]
    by_cases hquick : e.quick b = true
    · simp only [hquick, if_true]
      exact hreport.finish
    · simp only [hquick, Bool.false_eq_true, if_false, hr]
      exact anchorNextrule_tracks (hreport.move hlt st (v.w.r + 1))

theorem Tracks.enter (h : Tracks rules v w) {rule : PfRule β}
    (hrule : v.w.rs[v.w.r]? = some rule) (st : σ) {child : Option (List (List (PfRule β)))}
    (hchild : ∀ cs, child = some cs → ∀ c ∈ cs, Enters rule c) {rs : List (PfRule β)} {r : Nat}
    {rs' : List (PfRule (PfPlace β))} {r' : Nat} (hnull : r' < rs'.length ↔ r < rs.length)
    (hhere : r < rs.length →
      rs' = placeRules rs (some rule) (v.w.stack.length + 1) rs ∧ r' = r ∧ Enters rule rs) :
    Tracks rules
      { v with
        w := { v.w with st := st, rs := rs, r := r, stack := ⟨v.w.rs, v.w.r, child⟩ :: v.w.stack }
        a := some rule }
      { w with
        st := (st, { w.st.2 with last := some rule })
        rs := rs'
        r := r'
        stack := ⟨w.rs, w.r,
          child.map (placeChildren (some rule) (v.w.stack.length + 1))⟩ :: w.stack } := by
  obtain ⟨hlt, -⟩ := List.getElem?_eq_some_iff.mp hrule
  obtain ⟨hrs, hr, hruleset⟩ := h.here hlt
  have htop : anchorOf (⟨v.w.rs, v.w.r, child⟩ :: v.w.stack) = some rule := hrule
  refine ⟨?_, h.matched, rfl, hnull, ?_, ⟨⟨rule, hrule, hchild⟩, hruleset, h.frames⟩, ?_,
    h.reported⟩
  · simp only [placeFrames, h.stack, hrs, hr, hrule]
  · intro hlt'
    obtain ⟨hrs', hr', henters⟩ := hhere hlt'
    refine ⟨?_, hr', ?_⟩
    · simp only [htop, length_cons, hrs']
    · rw [RulesetOf, htop]
      refine ⟨(fun hnone => by cases hnone), ?_⟩
      rintro A ⟨⟩
      exact henters
  · refine ⟨fun hnil => absurd hnil (cons_ne_nil _ _), ?_⟩
    intro A hA
    rw [htop] at hA
    exact .inl ⟨hA, hA⟩

/-- Entering an anchor keeps the walks in step. -/
theorem stepIntoAnchor_tracks (h : Tracks rules v w) {rule : PfRule β}
    (hrule : v.w.rs[v.w.r]? = some rule) (hanchor : ∀ b, rule ≠ .rule b) (st : σ) :
    Tracks rules (stepIntoAnchor { v with w := { v.w with st := st } } rule)
      (pfStepIntoAnchor
        { w with st := (st, w.st.2.hit e ⟨rule, v.w.rs, anchorOf v.w.stack, v.w.stack.length⟩) }
        (placeRule v.w.rs (anchorOf v.w.stack) v.w.stack.length rule)) := by
  obtain ⟨hlt, -⟩ := List.getElem?_eq_some_iff.mp hrule
  obtain ⟨hrs, hr, hruleset⟩ := h.here hlt
  have hlen : w.stack.length = v.w.stack.length := by rw [h.stack, placeFrames_length]
  have hhit : w.st.2.hit e ⟨rule, v.w.rs, anchorOf v.w.stack, v.w.stack.length⟩ =
      if v.w.stack.length ≥ pfAnchorStackSize then w.st.2
      else { w.st.2 with last := some rule } := by
    cases rule with
    | rule b => exact absurd rfl (hanchor b)
    | anchor b ruleset => rfl
    | wildcard b cs => rfl
  by_cases hfull : v.w.stack.length ≥ pfAnchorStackSize
  · have hv : stepIntoAnchor { v with w := { v.w with st := st } } rule =
        { v with w := { v.w with st := st, r := v.w.r + 1 } } := by
      cases rule with
      | rule b => exact absurd rfl (hanchor b)
      | anchor b ruleset => simp only [stepIntoAnchor, pfStepIntoAnchor, if_pos hfull]
      | wildcard b cs => cases cs <;> simp only [stepIntoAnchor, pfStepIntoAnchor, if_pos hfull]
    have hw : ∀ st' : σ × PfEntered β, pfStepIntoAnchor { w with st := st' }
        (placeRule v.w.rs (anchorOf v.w.stack) v.w.stack.length rule) =
        { w with st := st', r := v.w.r + 1 } := by
      intro st'
      rw [← hlen] at hfull
      cases rule with
      | rule b => exact absurd rfl (hanchor b)
      | anchor b ruleset => simp only [placeRule, pfStepIntoAnchor, if_pos hfull, hr]
      | wildcard b cs =>
        cases cs <;> simp only [placeRule, placeChildren, pfStepIntoAnchor, if_pos hfull, hr]
    rw [hv, hw, hhit, if_pos hfull]
    exact h.move hlt st (v.w.r + 1)
  · have hfull' : ¬w.stack.length ≥ pfAnchorStackSize := by rwa [hlen]
    rw [hhit, if_neg hfull]
    cases rule with
    | rule b => exact absurd rfl (hanchor b)
    | anchor b ruleset =>
      simp only [stepIntoAnchor, placeRule, pfStepIntoAnchor, if_neg hfull, if_neg hfull']
      refine h.enter hrule st (fun cs hcs => by cases hcs) ?_ (fun _ => ⟨rfl, rfl, rfl⟩)
      rw [placeRules_length]
    | wildcard b cs =>
      cases cs with
      | nil =>
        simp only [stepIntoAnchor, placeRule, placeChildren, pfStepIntoAnchor, if_neg hfull,
          if_neg hfull']
        refine h.enter hrule st (fun cs hcs => by cases hcs) ?_
          (fun hlt' => absurd hlt' (Nat.lt_irrefl _))
        exact ⟨fun hlt' => absurd hlt' (Nat.lt_irrefl _), fun hlt' => absurd hlt' (Nat.lt_irrefl _)⟩
      | cons c cs =>
        simp only [stepIntoAnchor, placeRule, placeChildren, pfStepIntoAnchor, if_neg hfull,
          if_neg hfull']
        refine h.enter hrule st ?_ ?_ (fun _ => ⟨rfl, rfl, mem_cons_self⟩)
        · rintro cs' ⟨⟩ c' hc'
          exact mem_cons_of_mem c hc'
        · rw [placeRules_length]

theorem anchorBody_tracks (h : Tracks rules v w) :
    OutcomesAgree (Tracks rules) (SameResult rules) (anchorBody e jump v)
      (pfTestRuleBody (placeEngine e) (placeJump jump) w) := by
  by_cases hlt : v.w.r < v.w.rs.length
  swap
  · have hlt' : ¬w.r < w.rs.length := fun hlt' => hlt (h.null_iff.mp hlt')
    have hnone : v.w.rs[v.w.r]? = none := getElem?_eq_none (Nat.le_of_not_lt hlt)
    have hnone' : w.rs[w.r]? = none := getElem?_eq_none (Nat.le_of_not_lt hlt')
    simp only [anchorBody, pfTestRuleBody, hnone, hnone']
    exact h.finish
  obtain ⟨hrs, hr, -⟩ := h.here hlt
  obtain ⟨rule, hrule⟩ : ∃ rule, v.w.rs[v.w.r]? = some rule := ⟨_, getElem?_eq_getElem hlt⟩
  have hrule' : w.rs[w.r]? =
      some (placeRule v.w.rs (anchorOf v.w.stack) v.w.stack.length rule) := by
    rw [hrs, hr, placeRules_getElem?, hrule, Option.map_some]
  have hbody := placeRule_body v.w.rs (anchorOf v.w.stack) v.w.stack.length rule
  have hjump : ∀ i, placeJump jump w.rs w.r i = jump v.w.rs v.w.r i := by
    intro i
    rw [placeJump, hrs, placedRules_placeRules, hr]
  obtain ⟨⟨st, out⟩, htest⟩ : ∃ p, e.test v.w.st rule.body = p := ⟨_, rfl⟩
  -- where the rule does not match, its place does not match either
  have hmiss : out ≠ .hit → (placeEngine e).test w.st
      (placeRule v.w.rs (anchorOf v.w.stack) v.w.stack.length rule).body =
      ((st, w.st.2), out) := by
    rw [hbody]
    exact placeEngine_miss (by rw [h.st]; exact htest)
  cases out with
  | skip i =>
    have htest' := hmiss (fun hhit => by cases hhit)
    simp only [anchorBody, pfTestRuleBody, hrule, hrule', htest, htest', hjump]
    exact anchorNextrule_tracks (h.move hlt st _)
  | next =>
    have htest' := hmiss (fun hhit => by cases hhit)
    simp only [anchorBody, pfTestRuleBody, hrule, hrule', htest, htest']
    rw [hr]
    exact anchorNextrule_tracks (h.move hlt st (v.w.r + 1))
  | hit =>
    have htest' : (placeEngine e).test w.st
        (placeRule v.w.rs (anchorOf v.w.stack) v.w.stack.length rule).body =
        ((st, w.st.2.hit e ⟨rule, v.w.rs, anchorOf v.w.stack, v.w.stack.length⟩), .hit) := by
      rw [hbody]
      exact placeEngine_hit (by rw [h.st]; exact htest)
    cases rule with
    | rule b =>
      simp only [anchorBody, pfTestRuleBody, hrule, hrule', htest, htest']
      simp only [placeRule]
      exact anchorMatchRule_tracks h hrule st
    | anchor b ruleset =>
      have hinto := stepIntoAnchor_tracks (e := e) h hrule (fun b' h => by cases h) st
      simp only [anchorBody, pfTestRuleBody, hrule, hrule', htest, htest']
      simp only [placeRule] at hinto ⊢
      exact anchorNextrule_tracks hinto
    | wildcard b cs =>
      have hinto := stepIntoAnchor_tracks (e := e) h hrule (fun b' h => by cases h) st
      simp only [anchorBody, pfTestRuleBody, hrule, hrule', htest, htest']
      simp only [placeRule] at hinto ⊢
      exact anchorNextrule_tracks hinto

/-! ## pf_test_rule -/

/-- The loop ends; its rule is the one of the recursive evaluation, with the ruleset that
    contains it, and its anchor rule is the one through which that ruleset was entered
    exactly if no other anchor was entered since. -/
theorem anchorTestRule_returns (hjump : JumpsOverFailing e jump) (rules : List (PfRule β))
    (st : σ) :
    ∃ res, Returns (fun fuel => anchorTestRule e jump fuel rules st) res ∧
      SameResult rules res (evalPlaces e rules st).result := by
  have hstart : Tracks rules
      { w := { rs := rules, r := 0, stack := [], matched := 0, st := st, rm := none }
        a := none, am := none, rsm := none }
      { rs := placeRules rules none 0 rules, r := 0, stack := [], matched := 0,
        st := (st, ⟨none, none⟩), rm := none } := by
    refine ⟨rfl, rfl, rfl, ?_, ?_, trivial, ⟨fun _ => rfl, ?_⟩, rfl, rfl, rfl⟩
    · rw [placeRules_length]
    · exact fun _ => ⟨rfl, rfl, fun _ => rfl, fun A hA => by cases hA⟩
    · intro A hA
      cases hA
  obtain ⟨n, hn⟩ := pfTestRule_returns (placeJump_jumps hjump) (placeRules rules none 0 rules)
    (st, ⟨none, none⟩)
  have hstep : ∀ v w, Tracks rules v w →
      OutcomesAgree (Tracks rules) (SameResult rules) (anchorBody e jump v)
        (pfTestRuleBody (placeEngine e) (placeJump jump) w) := fun v w => anchorBody_tracks
  obtain ⟨res, hres, hsame⟩ := loop_simulates hstep n _ _ hstart (hn n (Nat.le_refl n))
  exact ⟨res, loop_returns hres, hsame⟩

section Packet

variable {ω : Type}

/-- For every packet, with the skip pointers of every ruleset: `*rm` is the rule of the
    recursive evaluation; `*rsm` and `*am` are the ruleset that contains it and the anchor
    rule through which that ruleset was entered exactly if it is in the main ruleset or no
    other anchor has been entered between the entry of this one and the rule. -/
theorem pfTestRule_reports_anchor_iff (lk : PfLookup ω) (p : PfPacket)
    (skip : List (PfRule PfRuleBody) → Nat → PfSkip → Nat) (rules : List (PfRule PfRuleBody))
    (st : PfEvalState ω) :
    ∃ res : PfAnchorResult PfRuleBody (PfEvalState ω),
      Returns (fun fuel => anchorTestRule (pfEngine lk p) (skipPtr skip) fuel rules st) res ∧
      res.res.rm = (evalPlaces (pfEngine lk p) rules st).rm.map (fun q => q.rule.body) ∧
      ∀ q, (evalPlaces (pfEngine lk p) rules st).rm = some q → q.In rules ∧
        (res.rsm = some q.rs ∧ res.am = q.anchor ↔
          q.anchor = none ∨ (evalPlaces (pfEngine lk p) rules st).st.2.atMatch = q.anchor) := by
  obtain ⟨res, hreturns, -, -, hreported⟩ :=
    anchorTestRule_returns (skipPtr_jumps lk p skip) rules st
  refine ⟨res, hreturns, ?_, ?_⟩
  · cases hrm : (evalPlaces (pfEngine lk p) rules st).rm with
    | none =>
      rw [PfOut.result, hrm] at hreported
      exact hreported.1
    | some q =>
      rw [PfOut.result, hrm] at hreported
      obtain ⟨-, ⟨b, hrule, hb⟩, -⟩ := hreported
      rw [hb, Option.map_some, hrule]
      rfl
  · intro q hq
    rw [PfOut.result, hq] at hreported
    obtain ⟨hin, -, hrsm, ham⟩ := hreported
    exact ⟨hin, ⟨fun h => ham.mp h.2, fun h => ⟨hrsm, ham.mpr h⟩⟩⟩

/-- A pass rule for every packet. -/
def passAll (nr : Nat) : PfRuleBody where
  nr := nr
  src := ⟨.addrmask ⟨0, 0, 0, 0⟩ ⟨0, 0, 0, 0⟩, 0, 0, 0, 0⟩
  dst := ⟨.addrmask ⟨0, 0, 0, 0⟩ ⟨0, 0, 0, 0⟩, 0, 0, 0, 0⟩
  kif := none
  rcvKif := none
  osFingerprint := 0
  rtableid := -1
  onrdomain := -1
  qid := 0
  pqid := 0
  prob := 0
  maxMss := 0
  tag := 0
  matchTag := 0
  scrubFlags := 0
  uid := ⟨0, 0, 0⟩
  gid := ⟨0, 0, 0⟩
  ruleFlag := 0
  action := 0
  direction := 0
  log := 0
  quick := 0
  ifnot := 0
  matchTagNot := 0
  keepState := 0
  af := 0
  proto := 0
  type := 0
  code := 0
  flags := 0
  flagset := 0
  minTtl := 0
  tos := 0
  setTos := 0
  prio := 0
  setPrio0 := 0
  setPrio1 := 0
  naf := 0
  rcvifnot := 0

/-- Lookups that find every address, interface and socket. -/
def lookupAll : PfLookup Unit where
  pfiKifMatch := fun _ _ => true
  pfRoutable := fun _ _ _ _ => true
  pfRtlabelMatch := fun _ _ _ _ => true
  pfrMatchAddr := fun _ _ _ => true
  pfiMatchAddr := fun _ _ _ => true
  pfOsfpMatch := fun _ => true
  pfMatchRcvif := fun _ => true
  pfSocketLookup := fun pd _ => (pd, 1, ())
  arc4randomUniform := fun _ _ => (0, ())
  poolGet := fun _ => (true, ())
  pfGetTransaddr := fun _ pd nr _ => some (pd, nr, ())

def udpPacket : PfPacket := ⟨none, pfIn, 0, afInet, ipprotoUdp, ipprotoUdp, 0, 0, 0, 0, 0, 0, 0, 0⟩

def udpState : PfEvalState Unit :=
  ⟨-1, ⟨0, 0, 0, 0, 0, 0, 0, 0, 0, 0⟩, ⟨afInet, ⟨0, 0, 0, 0⟩, ⟨0, 0, 0, 0⟩, 7, 9, 0, 0, 0⟩, [],
    none, ()⟩

/-- Rule 3 follows the anchor 1 inside the anchor 0, and is reported as a rule of 1. -/
theorem anchorTestRule_inner_anchor :
    ∃ (inner outer : PfRule PfRuleBody) (rs : List (PfRule PfRuleBody))
      (res : PfAnchorResult PfRuleBody (PfEvalState Unit)),
      inner = .anchor (passAll 1) [.rule (passAll 2)] ∧ rs = [inner, .rule (passAll 3)] ∧
      outer = .anchor (passAll 0) rs ∧
      Returns (fun fuel => anchorTestRule (pfEngine lookupAll udpPacket)
        (skipPtr fun _ _ _ => 0) fuel [outer] udpState) res ∧
      res.res.rm = some (passAll 3) ∧ res.rsm = some rs ∧ res.am = some inner ∧ inner ≠ outer := by
  refine ⟨_, _, _, _, rfl, rfl, rfl, loop_returns (n := 8) rfl, rfl, rfl, rfl, ?_⟩
  intro heq
  have hnr := congrArg (fun r => r.body.nr) heq
  cases hnr

end Packet

end OpenBsd.Net
