/-
  OpenBsd.Sys.TreeRemove

  `RB_REMOVE` on a red-black tree, and the trees that `RB_INSERT` and `RB_REMOVE`
  build.

  The loop of `RB_REMOVE_COLOR` keeps a subtree that is one black node too short for
  its place (`Short`).
-/

import OpenBsd.Sys.TreeInsert

namespace OpenBsd.Sys

open OpenBsd.Lib OpenBsd.Lib.RbTree

variable {α : Type} [DecidableEq α] {h : RbHeap α} {k : List (Frame α)}

/-! ## Colors after a removal -/

/-- A subtree in a place for a black height of `n + 1`: it is one short, or it gets
    there when its red root becomes black. -/
def Short (t : RbTree α) (n : Nat) : Prop :=
  t.Balanced .black n ∨
    ∃ a x b, t = branch .left .red a x b ∧ (branch .left .black a x b).Balanced .black (n + 1)

section Steps

variable {d : Side} {c : Color} {t near far : RbTree α} {p s : α} {n : Nat}

/-- The sibling is black after the first step. -/
theorem siblingBlack_stores {sib : RbTree α} (hs : Stores h (plug (⟨d, c, p, sib⟩ :: k) t))
    (hk : Fits (⟨d, c, p, sib⟩ :: k) .black (n + 1)) :
    ∃ tmp h' c' s near far k', h.child d.other p = some tmp ∧
      siblingBlack d h p tmp = some (h', s) ∧
      Stores h' (plug (⟨d, c', p, branch d .black near s far⟩ :: k') t) ∧
      (plug (⟨d, c', p, branch d .black near s far⟩ :: k') t).toList =
        (plug (⟨d, c, p, sib⟩ :: k) t).toList ∧
      Fits (⟨d, c', p, branch d .black near s far⟩ :: k') .black (n + 1) ∧
      (c' = .red ∨ k' = k) := by
  have hs : Stores h (plug k (branch d c t p sib)) := hs
  obtain ⟨-, -, -, hsib⟩ := hs.fields
  obtain ⟨hbal, hcol, hfits⟩ := hk.cons_black
  cases hsc : sib.color with
  | black =>
    rw [hsc] at hbal
    obtain ⟨near, s, far, rfl, -, -⟩ := hbal.exists_black d
    rw [branch_top] at hsib
    have hblack : h.color s = .black := (hs.flip.fields).1
    refine ⟨s, h, c, s, near, far, k, hsib, ?_, hs, rfl, hk, .inr rfl⟩
    simp [siblingBlack, hblack]
  | red =>
    rw [hsc] at hbal
    obtain rfl : c = .black := by
      cases c with
      | black => rfl
      | red => exact absurd (hcol rfl) (by simp [hsc])
    obtain ⟨a, s, b, rfl, ha, hb⟩ := hbal.exists_red d
    obtain ⟨near, m, far, rfl, -, -⟩ := ha.exists_black d
    rw [branch_top] at hsib
    have hred : h.color s = .red := (hs.flip.fields).1
    have h1 := hs.flip.setColor .black
    rw [plug, branch_other] at h1
    have h2 := Stores.setColor (k := k) h1 .red
    obtain ⟨h', hrot, h3⟩ := h2.rotate
    have htmp : h'.child d.other p = some m := by
      have hfields := Stores.fields (k := ⟨d, .black, s, b⟩ :: k) h3
      rw [hfields.2.2.2, branch_top]
    refine ⟨s, h', .red, m, near, far, ⟨d, .black, s, b⟩ :: k, hsib, ?_, h3, ?_,
      .red ha (.black .red hb hfits), .inl rfl⟩
    · have hrot : rbRotate d (h.setBlackred s p) p = some h' := hrot
      simp [siblingBlack, hred, hrot, htmp]
    · exact toList_plug_congr k (toList_rotate d _ _ _ _ _ _ _ _ _)

/-- Both children of the sibling are black: the sibling becomes red, and what is
    short is the parent. -/
theorem recolorSibling_stores
    (hs : Stores h (plug (⟨d, c, p, branch d .black near s far⟩ :: k) t)) :
    Stores (h.setColor s .red) (plug k (branch d c t p (branch d .red near s far))) ∧
      (plug k (branch d c t p (branch d .red near s far))).toList =
        (plug (⟨d, c, p, branch d .black near s far⟩ :: k) t).toList := by
  have hs : Stores h (plug k (branch d c t p (branch d .black near s far))) := hs
  have h1 := hs.flip.setColor .red
  rw [plug, branch_other] at h1
  exact ⟨h1, toList_plug_congr k (toList_branch_congr d c p rfl (toList_recolor d _ _ _ _ _))⟩

omit [DecidableEq α] in
theorem short_parent (ht : t.Balanced .black n) (hnear : near.Balanced .black n)
    (hfar : far.Balanced .black n)
    (hk : Fits (⟨d, c, p, branch d .black near s far⟩ :: k) .black (n + 1)) :
    ∃ m, Short (branch d c t p (branch d .red near s far)) m ∧ Fits k .black (m + 1) := by
  have hsib : (branch d .red near s far).Balanced .red n := balanced_branch_red.2 ⟨hnear, hfar⟩
  have hblack : (branch d .black t p (branch d .red near s far)).Balanced .black (n + 1) :=
    balanced_branch_black.2 ⟨ht.self, hsib.self⟩
  obtain ⟨-, -, hfits⟩ := hk.cons_black
  cases c with
  | black => exact ⟨n + 1, .inl hblack, hfits⟩
  | red =>
    obtain ⟨a, b, hturn, hab⟩ := branch_turn .left d .red t p (branch d .red near s far)
    refine ⟨n, .inr ⟨a, p, b, hturn, ?_⟩, hfits.to_black⟩
    rcases hab with ⟨rfl, rfl⟩ | ⟨rfl, rfl⟩
    · exact balanced_branch_black.2 (balanced_branch_black.1 hblack)
    · exact balanced_branch_black.2 (balanced_branch_black.1 hblack).symm

/-- The outer child of the sibling is red after this step. -/
theorem outerRed_stores (hs : Stores h (plug (⟨d, c, p, branch d .black near s far⟩ :: k) t))
    (hnear : near.Balanced near.color n) (hfar : far.Balanced far.color n)
    (hred : ¬ (near.color = .black ∧ far.color = .black)) :
    ∃ h' s' near' a z b, outerRed d h p s = some (h', s') ∧
      Stores h' (plug (⟨d, c, p, branch d .black near' s' (branch d .red a z b)⟩ :: k) t) ∧
      (plug (⟨d, c, p, branch d .black near' s' (branch d .red a z b)⟩ :: k) t).toList =
        (plug (⟨d, c, p, branch d .black near s far⟩ :: k) t).toList ∧
      near'.Balanced near'.color n ∧ (branch d .red a z b).Balanced .red n := by
  have hs : Stores h (plug k (branch d c t p (branch d .black near s far))) := hs
  obtain ⟨-, -, hchild, hother⟩ := hs.flip.fields
  have hisblack : h.isBlack far.top = true ↔ far.color = .black := hs.flip.flip.isBlack
  cases hfc : far.color with
  | red =>
    rw [hfc] at hfar
    obtain ⟨a, z, b, rfl, -, -⟩ := hfar.exists_red d
    refine ⟨h, s, near, a, z, b, ?_, hs, rfl, hnear, hfar⟩
    have hne : ¬ h.isBlack (branch d .red a z b).top = true := by
      rw [hisblack, branch_color]
      decide
    simp only [outerRed, hother, if_neg hne]
  | black =>
    rw [hfc] at hfar
    have hnc : near.color = .red := by
      cases hnc : near.color with
      | red => rfl
      | black => exact absurd ⟨hnc, hfc⟩ hred
    rw [hnc] at hnear
    obtain ⟨x, m, y, rfl, hx, hy⟩ := hnear.exists_red d
    have h1 := Stores.setColor (k := ⟨d, .black, s, far⟩ :: ⟨d.other, c, p, t⟩ :: k) hs.flip .black
    have h2 := Stores.setColor (k := ⟨d.other, c, p, t⟩ :: k) h1 .red
    rw [← branch_other d .red, ← branch_other d .black] at h2
    obtain ⟨h', hrot, h3⟩ := h2.rotate
    rw [branch_other d .black, branch_other d .red, plug, branch_other] at h3
    have htmp : h'.child d.other p = some m := by
      rw [h3.fields.2.2.2, branch_top]
    have hyes : h.isBlack far.top = true := hisblack.2 hfc
    refine ⟨h', m, x, y, s, far, ?_, h3, ?_, hx.self, balanced_branch_red.2 ⟨hy, hfar⟩⟩
    · rw [branch_top] at hchild
      simp only [outerRed, hother, if_pos hyes, hchild, RbHeap.setColorOf]
      simp [hrot, htmp]
    · refine toList_plug_congr k (toList_branch_congr d c p rfl ?_)
      exact (toList_rotate d .red .black .black .red x y far m s).symm

theorem lastRotation_stores {a b : RbTree α} {z : α}
    (hs : Stores h (plug (⟨d, c, p, branch d .black near s (branch d .red a z b)⟩ :: k) t)) :
    ∃ h', rbRotate d ((((h.setColor s (h.color p)).setColor p .black)).setColorOf
        (h.child d.other s) .black) p = some h' ∧
      Stores h' (plug k (branch d c (branch d .black t p near) s (branch d .black a z b))) ∧
      (plug k (branch d c (branch d .black t p near) s (branch d .black a z b))).toList =
        (plug (⟨d, c, p, branch d .black near s (branch d .red a z b)⟩ :: k) t).toList := by
  have hs : Stores h (plug k (branch d c t p (branch d .black near s (branch d .red a z b)))) := hs
  have hcolor : h.color p = c := hs.fields.1
  have hchild : h.child d.other s = some z := by rw [hs.flip.fields.2.2.2, branch_top]
  have h1 := hs.flip.setColor c
  rw [plug, branch_other] at h1
  have h2 := Stores.setColor (k := k) h1 .black
  have h3 := h2.flip.flip.setColor .black
  rw [plug, branch_other, plug, branch_other] at h3
  obtain ⟨h', hrot, h4⟩ := h3.rotate
  refine ⟨h', ?_, h4, toList_plug_congr k ?_⟩
  · rw [hcolor, hchild]
    exact hrot
  · rw [toList_rotate d .black c c .black]
    exact toList_branch_congr d c p rfl
      ((toList_recolor d _ .black _ _ _).trans
        (toList_branch_congr d .black s rfl (toList_recolor d _ _ _ _ _)))

/-- An iteration of the loop: what is short moves up, or the tree is balanced. -/
theorem removeColorSide_step {sib : RbTree α} (hs : Stores h (plug (⟨d, c, p, sib⟩ :: k) t))
    (ht : t.Balanced .black n) (hk : Fits (⟨d, c, p, sib⟩ :: k) .black (n + 1)) :
    (∃ h' k' t' m, removeColorSide d h p = some (.inl (h', up k', t'.top)) ∧
      Stores h' (plug k' t') ∧
      (plug k' t').toList = (plug (⟨d, c, p, sib⟩ :: k) t).toList ∧ Short t' m ∧
      Fits k' .black (m + 1) ∧ (t'.color = .red ∨ k' = k)) ∨
    ∃ h' t' m, removeColorSide d h p = some (.inr (h', h'.root)) ∧ Stores h' t' ∧
      t'.toList = (plug (⟨d, c, p, sib⟩ :: k) t).toList ∧ t'.Balanced .black m := by
  obtain ⟨tmp, h1, c', s, near, far, k', htmp, hblack, hs1, hlist1, hk1, hsame⟩ :=
    siblingBlack_stores hs hk
  obtain ⟨hbal, -, hfits⟩ := hk1.cons_black
  rw [branch_color] at hbal
  obtain ⟨hnear, hfar⟩ := balanced_branch_black.1 hbal
  -- what the code asks about the children of the sibling
  have hnb : h1.isBlack near.top = true ↔ near.color = .black :=
    Stores.isBlack (k := ⟨d, .black, s, far⟩ :: ⟨d.other, c', p, t⟩ :: k') (Stores.flip (k := k') hs1)
  have hfb : h1.isBlack far.top = true ↔ far.color = .black :=
    (Stores.flip (k := k') hs1).flip.isBlack
  obtain ⟨-, -, hcn, hcf⟩ := (Stores.flip (k := k') hs1).fields
  have hboth : (h1.isBlack (h1.left s) = true ∧ h1.isBlack (h1.right s) = true) ↔
      near.color = .black ∧ far.color = .black := by
    rw [← hnb, ← hfb]
    cases d with
    | left =>
      rw [← hcn, ← hcf]
      rfl
    | right =>
      rw [← hcn, ← hcf, and_comm]
      rfl
  by_cases hbb : near.color = .black ∧ far.color = .black
  · left
    obtain ⟨hs2, hlist2⟩ := recolorSibling_stores hs1
    rw [hbb.1] at hnear
    rw [hbb.2] at hfar
    obtain ⟨m, hshort, hfits'⟩ := short_parent (p := p) ht hnear hfar hk1
    have hparent : (h1.setColor s .red).parent p = up k' := hs2.fields.2.1
    refine ⟨_, k', _, m, ?_, hs2, hlist2.trans hlist1, hshort, hfits', ?_⟩
    · have hcond := hboth.2 hbb
      simp only [removeColorSide, htmp, hblack, Option.bind_eq_bind, Option.bind_some, if_pos hcond,
        hparent, branch_top]
      rfl
    · rw [branch_color]
      exact hsame
  · right
    obtain ⟨h2, s2, near2, a, z, b, houter, hs2, hlist2, hnear2, hfar2⟩ :=
      outerRed_stores hs1 hnear hfar hbb
    obtain ⟨h3, hrot, hs3, hlist3⟩ := lastRotation_stores hs2
    have hl : (branch d .black t p near2).Balanced .black (n + 1) :=
      balanced_branch_black.2 ⟨ht.self, hnear2⟩
    have hr : (branch d .black a z b).Balanced .black (n + 1) := by
      obtain ⟨ha, hb⟩ := balanced_branch_red.1 hfar2
      exact balanced_branch_black.2 ⟨ha.self, hb.self⟩
    obtain ⟨m, hbal⟩ := hfits.plug (balanced_branch hl hr c' s2)
    refine ⟨h3, _, m, ?_, hs3, hlist3.trans (hlist2.trans hlist1), hbal⟩
    have hcond := fun hc => hbb (hboth.1 hc)
    simp only [removeColorSide, htmp, hblack, Option.bind_eq_bind, Option.bind_some, if_neg hcond,
      houter]
    have hrot : rbRotate d (((h2.setColor s2 (h2.color p)).setColor p .black).setColorOf
        (((h2.setColor s2 (h2.color p)).setColor p .black).child d.other s2) .black) p = some h3 :=
      hrot
    simp only [hrot, Option.bind_some]
    rfl

end Steps

/-! ## The loop of `RB_REMOVE_COLOR` -/

/-- The loop ends, and after the last write the tree is balanced. -/
def Refilled (h : RbHeap α) (parent elm : Option α) (l : List α) : Prop :=
  ∃ h' elm' t n, Returns (fun fuel => loop removeColorBody fuel (h, parent, elm)) (h', elm') ∧
    Stores (h'.setColorOf elm' .black) t ∧ t.toList = l ∧ t.Balanced .black n

variable {t : RbTree α} {n : Nat}

variable {x : α}

theorem refilled_red {a b : RbTree α} {parent : Option α}
    (hs : Stores h (plug k (branch .left .red a x b)))
    (hbal : (branch .left .black a x b).Balanced .black (n + 1)) (hk : Fits k .black (n + 1)) :
    Refilled h parent (some x) (plug k (branch .left .red a x b)).toList := by
  obtain ⟨m, hm⟩ := hk.plug hbal
  have hred : h.color x = .red := hs.fields.1
  refine ⟨h, some x, _, m, loop_exit ?_, hs.setColor .black,
    toList_plug_congr k (toList_recolor .left _ _ _ _ _), hm⟩
  simp [removeColorBody, RbHeap.isBlack, hred]

theorem Stores.root_black (hs : Stores h t) (ht : t.color = .black) :
    Stores (h.setColorOf t.top .black) t := by
  cases t with
  | nil => exact hs
  | node c l x r =>
    obtain rfl : c = .black := ht
    exact Stores.setColor (k := []) (d := .left) hs .black

omit [DecidableEq α] in
theorem Stores.top_ne_root {f : Frame α} (hs : Stores h (plug (f :: k) t)) : t.top ≠ h.root := by
  intro e
  rw [hs.holds.2] at e
  obtain ⟨y, hy⟩ : ∃ y, (plug (f :: k) t).top = some y :=
    exists_top (branch_top f.side f.color t f.elem f.sib) k
  have hmem : y ∈ elems (f :: k) := (top_plug hy).resolve_left (List.cons_ne_nil f k)
  have hyt : t.top = some y := e.trans hy
  exact (nodup_plug.1 hs.nodup).2.2 y (top_mem hyt) hmem

theorem removeColorBody_black {d : Side} {c : Color} {p : α} {sib : RbTree α}
    (hs : Stores h (plug (⟨d, c, p, sib⟩ :: k) t)) (ht : t.Balanced .black n)
    (hsib : sib.Balanced sib.color (n + 1)) :
    removeColorBody (h, some p, t.top) = removeColorSide d h p := by
  have hblack : h.isBlack t.top = true := hs.isBlack.2 ht.color_eq
  have hroot : t.top ≠ h.root := hs.top_ne_root
  obtain ⟨-, -, hnear, hfar⟩ := Stores.fields (k := k) hs
  cases d with
  | left =>
    have hleft : h.left p = t.top := hnear
    simp [removeColorBody, hblack, hroot, hleft]
  | right =>
    have hleft : h.left p ≠ t.top := by
      intro e
      obtain ⟨x, hx⟩ := hsib.exists_top
      have hxt : t.top = some x := e.symm.trans (hfar.trans hx)
      have hn := nodup_branch.1 ((nodup_plug (k := k)).1 hs.nodup).1
      exact hn.2.2.2.2 x (top_mem hxt) (top_mem hx)
    simp [removeColorBody, hblack, hroot, hleft]

theorem removeColor_refilled (hs : Stores h (plug k t)) (ht : Short t n)
    (hk : Fits k .black (n + 1)) : Refilled h (up k) t.top (plug k t).toList := by
  induction hlen : k.length using Nat.strong_induction_on generalizing h k t n with
  | _ len ih =>
    rcases ht with ht | ⟨a, x, b, rfl, hbal⟩
    · cases k with
      | nil =>
        have hroot : h.root = t.top := hs.holds.2
        refine ⟨h, t.top, t, n, loop_exit ?_, hs.root_black ht.color_eq, rfl, ht⟩
        simp [removeColorBody, hroot]
      | cons f k =>
        obtain ⟨d, c, p, sib⟩ := f
        have hbody := removeColorBody_black hs ht hk.cons_black.1
        rcases removeColorSide_step hs ht hk with
          ⟨h', k', t', m, hside, hs', hlist, hshort, hfits, hless⟩ |
          ⟨h', t', m, hside, hs', hlist, hbal⟩
        · have hnext : Refilled h' (up k') t'.top (plug k' t').toList := by
            rcases hshort with hshort | ⟨a, x, b, rfl, hbal⟩
            · -- a black subtree is short one level up
              have hk' : k' = k := by
                rcases hless with hred | e
                · rw [hshort.color_eq] at hred
                  cases hred
                · exact e
              subst hk'
              exact ih k'.length (by simp [← hlen]) hs' (.inl hshort) hfits rfl
            · rw [branch_top]
              exact refilled_red hs' hbal hfits
          obtain ⟨h'', elm', t'', m', hret, hs'', hlist', hbal⟩ := hnext
          exact ⟨h'', elm', t'', m', loop_next (hbody.trans hside) hret, hs'',
            hlist'.trans hlist, hbal⟩
        · have hroot : h'.root = t'.top := hs'.holds.2
          refine ⟨h', h'.root, t', m, loop_exit (hbody.trans hside), ?_, hlist, hbal⟩
          rw [hroot]
          exact hs'.root_black hbal.color_eq
    · rw [branch_top]
      exact refilled_red hs hbal hk

theorem rbRemoveColor_returns (hs : Stores h (plug k t)) (ht : Short t n)
    (hk : Fits k .black (n + 1)) :
    ∃ h' t' m, Returns (rbRemoveColor h (up k) t.top) h' ∧ Stores h' t' ∧
      t'.toList = (plug k t).toList ∧ t'.Balanced .black m := by
  obtain ⟨h', elm', t', m, hret, hs', hlist, hbal⟩ := removeColor_refilled hs ht hk
  exact ⟨_, t', m, hret.bind (Returns.const _), hs', hlist, hbal⟩

/-! ## Taking an element out -/

variable {child : RbTree α}

theorem splice_stores {d : Side} {c : Color} (hs : Stores h (plug k (branch d c .nil x child))) :
    Stores ((h.setParentOf child.top (up k)).relink (up k) x child.top) (plug k child) := by
  obtain ⟨ht, hk⟩ := holds_plug.1 hs.holds
  rw [branch_top] at hk
  obtain ⟨-, -, -, -, -, htc⟩ := rep_branch.1 ht
  obtain ⟨hnt, hnk, htk⟩ := nodup_plug.1 hs.nodup
  obtain ⟨-, hxc, -, hnc, -⟩ := nodup_branch.1 hnt
  simp only [mem_branch] at htk
  have hxk : x ∉ elems k := htk x (.inl rfl)
  have hck : ∀ y ∈ child.toList, y ∉ elems k := fun y hy => htk y (.inr (.inr hy))
  refine ⟨holds_plug.2 ⟨?_, ?_⟩, nodup_plug.2 ⟨hnc, hnk, hck⟩⟩
  · refine (htc.reparent hnc (up k)).frame fun z hz => sameAt_relink ?_
    intro e
    exact hck z hz (up_mem e)
  · refine RepPath.relink ?_ hnk hxk child.top
    refine hk.frame (fun z hz => sameAt_setParentOf ?_) setParentOf_root
    intro e
    exact hck z (top_mem e) hz

omit [DecidableEq α] in
theorem min_returns {r : RbTree α} (hs : Stores h (plug k r)) (hx : r.top = some x) :
    ∃ k' c s child, r = plug k' (branch .left c .nil s child) ∧ before k' = [] ∧
      Returns (fun fuel => loop (minBody h) fuel x) s := by
  induction r generalizing k x with
  | nil => cases hx
  | node c l y r ihl _ =>
    obtain rfl : y = x := Option.some.inj hx
    have hleft : h.left y = l.top := (Stores.fields (d := .left) hs).2.2.1
    cases hl : l.top with
    | none =>
      rw [hl] at hleft
      obtain rfl := top_eq_none.1 hl
      exact ⟨[], c, y, r, rfl, rfl, loop_exit (by simp [minBody, hleft])⟩
    | some z =>
      rw [hl] at hleft
      obtain ⟨k', c', s, child, hplug, hbefore, hret⟩ := ihl (k := ⟨.left, c, y, r⟩ :: k) hs hl
      refine ⟨k' ++ [⟨.left, c, y, r⟩], c', s, child, ?_, ?_,
        loop_next (by simp [minBody, hleft]) hret⟩
      · rw [plug_append, ← hplug]
        rfl
      · rw [before_append, hbefore]
        rfl

omit [DecidableEq α] in
theorem augment_returns {p : α} (hs : Stores h (plug k t)) (hp : up k = some p) :
    Returns (fun fuel => loop (augmentBody h) fuel p) () := by
  induction k generalizing t p with
  | nil => cases hp
  | cons f k ih =>
    obtain rfl : f.elem = p := Option.some.inj hp
    have hs : Stores h (plug k (branch f.side f.color t f.elem f.sib)) := hs
    have hparent : h.parent f.elem = up k := hs.fields.2.1
    cases hup : up k with
    | none => exact loop_exit (by simp [augmentBody, hparent, hup])
    | some q => exact loop_next (by simp [augmentBody, hparent, hup]) (ih hs hup)

theorem sameAt_copyField {elm old y : α} (hy : y ≠ elm) : SameAt h (h.copyField elm old) y :=
  ⟨fun d => by simp [RbHeap.copyField, hy], by simp [RbHeap.copyField, hy],
    by simp [RbHeap.copyField, hy]⟩

/-- The element `s` takes the place of `old`. -/
theorem replace_stores {c : Color} {l r : RbTree α} {old s lx : α}
    (hs : Stores h (plug k (branch .left c l old r)))
    (hnew : s ∉ (plug k (branch .left c l old r)).toList) (hl : l.top = some lx)
    {h1 h2 h3 h4 : RbHeap α} (hh1 : h.copyField s old = h1)
    (hh2 : h1.relink (h1.parent old) old (some s) = h2) (hh3 : h2.setParent lx (some s) = h3)
    (hh4 : h3.setParentOf (h3.right old) (some s) = h4) :
    h2.left old = some lx ∧ Stores h4 (plug k (branch .left c l s r)) := by
  obtain ⟨ht, hk⟩ := holds_plug.1 hs.holds
  rw [branch_top] at hk
  obtain ⟨hcol, hpar, hlo, hro, htl, htr⟩ := rep_branch.1 ht
  obtain ⟨hnt, hnk, htk⟩ := nodup_plug.1 hs.nodup
  obtain ⟨hol, hor, hnl, hnr, hlr⟩ := nodup_branch.1 hnt
  simp only [mem_plug, mem_branch, not_or] at hnew htk
  obtain ⟨⟨hso, hsl, hsr⟩, hsk⟩ := hnew
  have hok : old ∉ elems k := htk old (.inl rfl)
  have hos : old ≠ s := fun e => hso e.symm
  have hup : ∀ z, z ∉ elems k → up k ≠ some z := fun z hz e => hz (up_mem e)
  have hup1 : h1.parent old = up k := by rw [← hh1, (sameAt_copyField hos).parent, hpar]
  rw [hup1] at hh2
  -- the subtrees and the path up to the relinking
  have hsame : ∀ z, z ≠ s → z ∉ elems k → SameAt h h2 z := by
    intro z hzs hzk
    rw [← hh2, ← hh1]
    exact (sameAt_copyField hzs).trans (sameAt_relink (hup z hzk))
  have hlk : ∀ z ∈ l.toList, z ∉ elems k := fun z hz => htk z (.inr (.inl hz))
  have hrk : ∀ z ∈ r.toList, z ∉ elems k := fun z hz => htk z (.inr (.inr hz))
  have htl2 : Rep h2 (some old) l := by
    refine htl.frame fun z hz => hsame z ?_ (hlk z hz)
    rintro rfl
    exact hsl hz
  have htr2 : Rep h2 (some old) r := by
    refine htr.frame fun z hz => hsame z ?_ (hrk z hz)
    rintro rfl
    exact hsr hz
  have hk2 : RepPath h2 (some s) k := by
    have hk1 : RepPath h1 (some old) k := by
      rw [← hh1]
      refine hk.frame (fun z hz => sameAt_copyField ?_) rfl
      rintro rfl
      exact hsk hz
    rw [← hh2]
    exact hk1.relink hnk hok (some s)
  have hleft : h2.left old = some lx := by
    have hchild := (hsame old hos hok).child .left
    exact hchild.trans (hlo.trans hl)
  have hright : h3.right old = r.top := by
    rw [← hh3]
    exact ((hsame old hos hok).child .right).trans hro
  rw [hright] at hh4
  have hlx : l.top ≠ some s := fun e => hsl (top_mem e)
  have hrx : r.top ≠ some s := fun e => hsr (top_mem e)
  -- the new parent of the two subtrees
  have hh3 : h2.setParentOf l.top (some s) = h3 := by rw [hl, ← hh3]; rfl
  have htl3 : Rep h3 (some s) l := by
    rw [← hh3]
    exact htl2.reparent hnl (some s)
  have htr3 : Rep h3 (some old) r := by
    rw [← hh3]
    refine htr2.frame fun z hz => sameAt_setParentOf ?_
    intro e
    exact hlr z (top_mem e) hz
  have hs2 : SameAt h1 h2 s := by
    rw [← hh2]
    exact sameAt_relink (hup s hsk)
  have hs4 : SameAt h2 h4 s := by
    rw [← hh4, ← hh3]
    exact (sameAt_setParentOf hlx).trans (sameAt_setParentOf hrx)
  have hs14 := hs2.trans hs4
  have hcopy : ∀ e, h1.child e s = h.child e old := by
    intro e
    simp [← hh1, RbHeap.copyField]
  refine ⟨hleft, holds_plug.2 ⟨rep_branch.2 ⟨?_, ?_, ?_, ?_, ?_, ?_⟩, ?_⟩, ?_⟩
  · rw [hs14.color, ← hcol, ← hh1]
    simp [RbHeap.copyField]
  · rw [hs14.parent, ← hpar, ← hh1]
    simp [RbHeap.copyField]
  · rw [hs14.child, hcopy, hlo]
  · rw [hs14.child, hcopy, hro]
  · rw [← hh4]
    refine htl3.frame fun z hz => sameAt_setParentOf ?_
    intro e
    exact hlr z hz (top_mem e)
  · rw [← hh4]
    exact htr3.reparent hnr (some s)
  · rw [branch_top, ← hh4, ← hh3]
    refine hk2.frame (fun z hz => (sameAt_setParentOf ?_).trans (sameAt_setParentOf ?_)) ?_
    · intro e
      exact hlk z (top_mem e) hz
    · intro e
      exact hrk z (top_mem e) hz
    · rw [setParentOf_root, setParentOf_root]
  · refine nodup_plug.2 ⟨nodup_branch.2 ⟨hsl, hsr, hnl, hnr, hlr⟩, hnk, ?_⟩
    intro z hz
    rcases mem_branch.1 hz with rfl | hz | hz
    · exact hsk
    · exact hlk z hz
    · exact hrk z hz

/-! ## `RB_REMOVE` -/

/-- The state at the label `color`: an element of color `c` is gone from above the
    child. -/
structure Removed (elm : α) (t : RbTree α) (h' : RbHeap α) (c : Color) (k : List (Frame α))
    (child : RbTree α) : Prop where
  stores : Stores h' (plug k child)
  contents : ∃ l r, t.toList = l ++ elm :: r ∧ (plug k child).toList = l ++ r
  fits : ∀ m, t.Balanced .black m → ∃ n, child.Balanced child.color n ∧
    Fits k .black (heightAbove c n) ∧ (c = .red → child.color = .black)

omit [DecidableEq α] in
theorem fits_child {d : Side} {c : Color} {m : Nat}
    (h : (plug k (branch d c .nil x child)).Balanced .black m) :
    ∃ n, child.Balanced child.color n ∧ Fits k .black (heightAbove c n) ∧
      (c = .red → child.color = .black) := by
  obtain ⟨c', n, hk, hbal⟩ := exists_fits h
  obtain rfl : c = c' := (branch_color d c .nil x child).symm.trans hbal.color_eq
  cases c with
  | red =>
    obtain ⟨-, hchild⟩ := balanced_branch_red.1 hbal
    exact ⟨n, hchild.self, hk.to_black, fun _ => hchild.color_eq⟩
  | black =>
    obtain ⟨n, rfl⟩ := hbal.height_pos
    exact ⟨n, (balanced_branch_black.1 hbal).2, hk, (fun e => nomatch e)⟩

theorem rbRemoveOne_removed {d : Side} {c : Color}
    (hs : Stores h (plug k (branch d c .nil x child))) :
    ∃ h', rbRemoveOne h x child.top = (h', c, up k, child.top) ∧
      Removed x (plug k (branch d c .nil x child)) h' c k child := by
  obtain ⟨hcol, hpar, -, -⟩ := hs.fields
  refine ⟨_, ?_, splice_stores hs, ?_, fun m hm => fits_child hm⟩
  · simp only [rbRemoveOne, hcol, hpar]
  · rw [toList_plug, toList_plug]
    cases d with
    | left => exact ⟨before k, child.toList ++ behind k, by simp [branch, toList], by simp⟩
    | right => exact ⟨before k ++ child.toList, behind k, by simp [branch, toList], by simp⟩

theorem rbRemoveNext_removed {c : Color} {l r : RbTree α} {old lx rx : α}
    (hs : Stores h (plug k (branch .left c l old r))) (hl : l.top = some lx)
    (hr : r.top = some rx) :
    ∃ h' c' k' child, Returns (rbRemoveNext h old rx) (h', c', up k', child.top) ∧
      Removed old (plug k (branch .left c l old r)) h' c' k' child := by
  obtain ⟨kr, cs, s, child, rfl, hbefore, hmin⟩ := min_returns hs.flip hr
  -- the path from the next element up to the root
  have hpath : ∀ (x : α) (t : RbTree α), plug k (branch .left c l x (plug kr t)) =
      plug (kr ++ ⟨.right, c, x, l⟩ :: k) t := by
    intro x t
    rw [plug_append]
    rfl
  have hs0 := hs
  rw [hpath] at hs0
  obtain ⟨hcol, hpar, -, hright⟩ := hs0.fields
  have hright : h.right s = child.top := hright
  have hs1 := splice_stores hs0
  generalize hh1 : (h.setParentOf child.top (up (kr ++ ⟨.right, c, old, l⟩ :: k))).relink
    (up (kr ++ ⟨.right, c, old, l⟩ :: k)) s child.top = h1 at hs1
  obtain ⟨hnt, hnk, htk⟩ := nodup_plug.1 hs0.nodup
  have hsc : s ∉ child.toList := (nodup_branch.1 hnt).2.1
  have hsk : s ∉ elems (kr ++ ⟨.right, c, old, l⟩ :: k) := htk s (mem_branch.2 (.inl rfl))
  have hpar1 : h1.parent s = up (kr ++ ⟨.right, c, old, l⟩ :: k) := by
    rw [← hh1, relink_parent, (sameAt_setParentOf (fun e => hsc (top_mem e))).parent, hpar]
  have hparent : (if h1.parent s = some old then some s
      else up (kr ++ ⟨.right, c, old, l⟩ :: k)) = up (kr ++ ⟨.right, c, s, l⟩ :: k) := by
    rw [hpar1]
    cases kr with
    | nil => exact if_pos rfl
    | cons f kr =>
      have hne : up (f :: kr ++ ⟨.right, c, old, l⟩ :: k) ≠ some old := by
        intro e
        have hmem : old ∈ elems (kr ++ ⟨.right, c, old, l⟩ :: k) := by simp [elems_append, elems]
        obtain rfl : f.elem = old := Option.some.inj e
        exact (nodup_elems_cons.1 hnk).2.1 hmem
      rw [if_neg hne]
      rfl
  have hnew : s ∉ (plug k (branch .left c l old (plug kr child))).toList := by
    rw [hpath, mem_plug, not_or]
    exact ⟨hsc, hsk⟩
  rw [← hpath] at hs1
  generalize hh2 : h1.copyField s old = h2
  generalize hh3 : h2.relink (h2.parent old) old (some s) = h3
  generalize hh4 : h3.setParent lx (some s) = h4
  generalize hh5 : h4.setParentOf (h4.right old) (some s) = h5
  obtain ⟨hleft, hs5⟩ := replace_stores hs1 hnew hl hh2 hh3 hh4 hh5
  rw [hpath] at hs5
  obtain ⟨p, hp⟩ : ∃ p, up (kr ++ ⟨.right, c, s, l⟩ :: k) = some p := by
    cases kr with
    | nil => exact ⟨s, rfl⟩
    | cons f kr => exact ⟨f.elem, rfl⟩
  have haug := augment_returns hs5 hp
  refine ⟨h5, cs, kr ++ ⟨.right, c, s, l⟩ :: k, child, hmin.bind ?_, hs5, ?_, ?_⟩
  · simp only [hright, hpar, hcol, hh1, hparent, hh2, hh3, hleft, Option.bind_eq_bind,
      Option.bind_some, hh4, hh5, hp]
    exact haug.bind (g := fun _ _ => some _) (Returns.const _)
  · refine ⟨before k ++ l.toList, s :: child.toList ++ behind kr ++ behind k, ?_, ?_⟩
    · rw [toList_plug]
      simp [branch, toList, toList_plug, hbefore]
    · rw [← hpath, toList_plug]
      simp [branch, toList, toList_plug, hbefore]
  · intro m hm
    rw [hpath] at hm
    obtain ⟨n, hchild, hfits, hblack⟩ := fits_child hm
    exact ⟨n, hchild, hfits.rename s, hblack⟩

theorem Removed.returns {elm : α} {c : Color} {m : Nat}
    (hr : Removed elm t h c k child) (hbal : t.Balanced .black m) :
    ∃ h' t' n, Returns (rbRemoveEnd h c (up k) child.top) h' ∧ Stores h' t' ∧
      t'.toList = (plug k child).toList ∧ t'.Balanced .black n := by
  obtain ⟨n, hchild, hfits, hcol⟩ := hr.fits m hbal
  cases c with
  | red =>
    rw [hcol rfl] at hchild
    obtain ⟨m', hbal'⟩ := hfits.plug hchild
    exact ⟨h, _, m', Returns.const h, hr.stores, rfl, hbal'⟩
  | black =>
    have hshort : Short child n := by
      cases hcc : child.color with
      | black =>
        rw [hcc] at hchild
        exact .inl hchild
      | red =>
        rw [hcc] at hchild
        obtain ⟨a, x, b, rfl, ha, hb⟩ := hchild.exists_red .left
        exact .inr ⟨a, x, b, rfl, balanced_branch_black.2 ⟨ha.self, hb.self⟩⟩
    exact rbRemoveColor_returns hr.stores hshort hfits

variable {cmp : α → α → Int}

/-- `RB_REMOVE` takes the element out of the tree. -/
theorem rbRemove_returns (ho : CmpOrder cmp) {t : RbTree α}
    (hv : RbValid cmp h t) {elm : α} (helm : elm ∈ t.toList) :
    ∃ h' t' l r, Returns (rbRemove h elm) (elm, h') ∧ RbValid cmp h' t' ∧
      t.toList = l ++ elm :: r ∧ t'.toList = l ++ r := by
  have hs := hv.stores ho
  obtain ⟨m, hbal⟩ := hv.balanced
  -- the three ways to take the element out
  have hout : ∃ h1 c k child, Removed elm t h1 c k child ∧
      Returns (rbRemoveOut h elm) (h1, c, up k, child.top) := by
    obtain ⟨k, s, rfl, htop⟩ := exists_plug helm
    obtain ⟨a, b, hsub⟩ := exists_branch .left htop
    generalize s.color = c at hsub
    subst hsub
    obtain ⟨-, -, hleft, hright⟩ := hs.fields
    have hleft : h.left elm = a.top := hleft
    have hright : h.right elm = b.top := hright
    cases ha : a.top with
    | none =>
      obtain rfl := top_eq_none.1 ha
      obtain ⟨h1, hone, hrem⟩ := rbRemoveOne_removed hs
      refine ⟨h1, c, k, b, hrem, ⟨0, fun fuel _ => ?_⟩⟩
      simp only [rbRemoveOut, hleft, hright, ha, hone]
    | some lx =>
      cases hb : b.top with
      | none =>
        obtain rfl := top_eq_none.1 hb
        rw [← branch_other] at hs
        obtain ⟨h1, hone, hrem⟩ := rbRemoveOne_removed hs
        rw [branch_other] at hrem
        refine ⟨h1, c, k, a, hrem, ⟨0, fun fuel _ => ?_⟩⟩
        rw [ha] at hone
        simp only [rbRemoveOut, hleft, hright, ha, hb, hone]
      | some rx =>
        obtain ⟨h1, c', k', child, hret, hrem⟩ := rbRemoveNext_removed hs ha hb
        obtain ⟨n, hn⟩ := hret
        refine ⟨h1, c', k', child, hrem, ⟨n, fun fuel hfuel => ?_⟩⟩
        simp only [rbRemoveOut, hleft, hright, ha, hb, hn fuel hfuel]
  obtain ⟨h1, c, k, child, hrem, hret⟩ := hout
  obtain ⟨h', t', n, hcolor, hs', hlist, hbal'⟩ := hrem.returns hbal
  obtain ⟨l, r, htl, hcl⟩ := hrem.contents
  refine ⟨h', t', l, r, hret.bind (hcolor.bind (Returns.const _)), ?_, htl, hlist.trans hcl⟩
  refine .of_balanced hs'.holds ?_ hbal'
  have hsub : (l ++ r).Sublist (l ++ elm :: r) :=
    (List.Sublist.refl l).append (List.sublist_cons_self elm r)
  rw [hlist.trans hcl]
  exact (htl ▸ hv.ordered).sublist hsub

/-! ## Runs -/

/-- The trees that `RB_INSERT` and `RB_REMOVE` build from an empty one; `RB_REMOVE` is
    called on elements of the tree only. -/
inductive RbReachable (cmp : α → α → Int) : RbHeap α → Prop where
  | init {h : RbHeap α} : h.root = none → RbReachable cmp h
  | insert {h h' : RbHeap α} {elm : α} {old : Option α} :
      RbReachable cmp h → Returns (rbInsert cmp h elm) (old, h') → RbReachable cmp h'
  | remove {h h' : RbHeap α} {t : RbTree α} {elm old : α} :
      RbReachable cmp h → Holds h t → elm ∈ t.toList →
      Returns (rbRemove h elm) (old, h') → RbReachable cmp h'

omit [DecidableEq α] in
theorem Rep.unique {t' : RbTree α} {par : Option α} (ht : Rep h par t) (ht' : Rep h par t')
    (htop : t.top = t'.top) : t = t' := by
  induction t generalizing t' par with
  | nil =>
    cases t' with
    | nil => rfl
    | node c l x r => cases htop
  | node c l x r ihl ihr =>
    cases t' with
    | nil => cases htop
    | node c' l' x' r' =>
      obtain rfl : x = x' := Option.some.inj htop
      obtain ⟨hc, -, hl, hr, htl, htr⟩ := ht
      obtain ⟨hc', -, hl', hr', htl', htr'⟩ := ht'
      obtain rfl : c = c' := hc.symm.trans hc'
      rw [ihl htl htl' (hl.symm.trans hl'), ihr htr htr' (hr.symm.trans hr')]

omit [DecidableEq α] in
theorem Holds.unique {t' : RbTree α} (ht : Holds h t) (ht' : Holds h t') : t = t' :=
  ht.1.unique ht'.1 (ht.2.symm.trans ht'.2)

theorem RbReachable.valid (ho : CmpOrder cmp) (hr : RbReachable cmp h) :
    ∃ t, RbValid cmp h t := by
  induction hr with
  | init hroot => exact ⟨.nil, ⟨trivial, hroot⟩, List.Pairwise.nil, rfl, trivial, 0, rfl⟩
  | insert _ hret ih =>
    obtain ⟨t, hv⟩ := ih
    rcases rbInsert_returns ho hv _ with ⟨x, -, -, hret'⟩ | ⟨-, h', t', l, r, hret', hv', -⟩
    · obtain ⟨-, rfl⟩ := Prod.mk.inj (hret.unique hret')
      exact ⟨t, hv⟩
    · obtain ⟨-, rfl⟩ := Prod.mk.inj (hret.unique hret')
      exact ⟨t', hv'⟩
  | remove _ hholds helm hret ih =>
    obtain ⟨t, hv⟩ := ih
    obtain rfl := hv.holds.unique hholds
    obtain ⟨h', t', l, r, hret', hv', -⟩ := rbRemove_returns ho hv helm
    obtain ⟨-, rfl⟩ := Prod.mk.inj (hret.unique hret')
    exact ⟨t', hv'⟩

/-- A tree built by `RB_INSERT` and `RB_REMOVE` is a red-black tree in the order of
    `cmp`.  `RB_INSERT` of an element with a new key adds this element to the contents,
    with a key that is there it returns the element with that key and changes nothing,
    and `RB_REMOVE` takes out its element and nothing else. -/
theorem rb_tree_correct {cmp : α → α → Int} (ho : CmpOrder cmp) (hr : RbReachable cmp h) :
    ∃ t, RbValid cmp h t ∧
      (∀ elm, (∀ x ∈ t.toList, cmp elm x ≠ 0) →
        ∃ h' t' l r, Returns (rbInsert cmp h elm) (none, h') ∧ RbValid cmp h' t' ∧
          t.toList = l ++ r ∧ t'.toList = l ++ elm :: r) ∧
      (∀ elm, ∀ x ∈ t.toList, cmp elm x = 0 → Returns (rbInsert cmp h elm) (some x, h)) ∧
      ∀ elm ∈ t.toList,
        ∃ h' t' l r, Returns (rbRemove h elm) (elm, h') ∧ RbValid cmp h' t' ∧
          t.toList = l ++ elm :: r ∧ t'.toList = l ++ r := by
  obtain ⟨t, hv⟩ := hr.valid ho
  refine ⟨t, hv, ?_, ?_, fun elm helm => rbRemove_returns ho hv helm⟩
  · intro elm hnew
    rcases rbInsert_returns ho hv elm with ⟨x, hx, hzero, -⟩ | ⟨-, hins⟩
    · exact absurd hzero (hnew x hx)
    · exact hins
  · intro elm x hx hzero
    rcases rbInsert_returns ho hv elm with ⟨y, hy, hzero', hret⟩ | ⟨hne, -⟩
    · -- two elements with one key would not be in order
      obtain rfl : x = y := by
        by_contra hxy
        exact ho.ne_zero hv.ordered hx hy hxy (ho.eq_zero hzero hzero')
      exact hret
    · exact absurd hzero (hne x hx)

/-- An element inserted into an empty tree. -/
theorem rb_tree_correct_seven :
    ∃ h' t', Returns (rbInsert (fun x y : Nat => (x : Int) - y)
        ⟨fun _ _ => none, fun _ => none, fun _ => .black, none⟩ 7) (none, h') ∧
      RbValid (fun x y : Nat => (x : Int) - y) h' t' ∧ t'.toList = [7] := by
  have ho : CmpOrder (fun x y : Nat => (x : Int) - y) := by
    refine ⟨?_, ?_⟩
    · intro x y
      omega
    · intro x y z hxy hyz
      omega
  obtain ⟨t, hv, hins, -⟩ := rb_tree_correct ho (.init rfl :
    RbReachable _ ⟨fun _ _ => none, fun _ => none, fun _ => .black, none⟩)
  obtain rfl : t = .nil := top_eq_none.1 hv.holds.2.symm
  obtain ⟨h', t', l, r, hret, hv', hl, hlist⟩ := hins 7 (fun x hx => absurd hx List.not_mem_nil)
  obtain ⟨rfl, rfl⟩ := List.append_eq_nil_iff.1 hl.symm
  exact ⟨h', t', hret, hv', hlist⟩

end OpenBsd.Sys
