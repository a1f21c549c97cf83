/-
  OpenBsd.Sys.TreeInsert

  `RB_INSERT` on a red-black tree.

  The loop of `RB_INSERT_COLOR` keeps a red element at the bottom of a path that
  fits a black one; every iteration makes the path shorter.
-/

import OpenBsd.Sys.TreeHeap

namespace OpenBsd.Sys

open OpenBsd.Lib OpenBsd.Lib.RbTree List

variable {α : Type} [DecidableEq α] {h : RbHeap α} {k : List (Frame α)}

/-! ## Colors after an insertion -/

/-- The loop ends with a tree that is balanced once its root is black. -/
def Repaired (h : RbHeap α) (elm : α) (l : List α) : Prop :=
  ∃ h' c a x b n, Returns (fun fuel => loop insertColorBody fuel (h, elm)) h' ∧
    Stores h' (branch .left c a x b) ∧ (branch .left c a x b).toList = l ∧
    (branch .left .black a x b).Balanced .black n

theorem insertColorSide_red (elm : α) {d s : Side} {t sib u : RbTree α} {p g : α}
    (hs : Stores h (plug k (branch d .black (branch s .red t p sib) g u)))
    (hu : u.color = .red) :
    ∃ h' x ua ub, u = branch d .red ua x ub ∧
      insertColorSide d h elm p g = some (h', g) ∧
      Stores h' (plug k (branch d .red (branch s .black t p sib) g (branch d .black ua x ub))) := by
  obtain ⟨x, hx⟩ : ∃ x, u.top = some x := by
    cases u with
    | nil => cases hu
    | node c l x r => exact ⟨x, rfl⟩
  obtain ⟨ua, ub, hub⟩ := exists_branch d hx
  rw [hu] at hub
  subst hub
  obtain ⟨-, -, -, htmp⟩ := hs.fields
  have hblack : h.isBlack (some x) = false := by
    rw [← hx, ← Bool.not_eq_true, hs.flip.isBlack, hu]
    decide
  have h1 := hs.flip.setColor .black
  rw [plug, branch_other] at h1
  have h2 := Stores.setColor (k := ⟨d, .black, g, branch d .black ua x ub⟩ :: k) h1 .black
  have h3 := Stores.setColor (k := k) h2 .red
  refine ⟨_, x, ua, ub, rfl, ?_, h3⟩
  simp only [insertColorSide, htmp, branch_top, hblack, if_true]
  rfl

variable {sib u : RbTree α} {d : Side} {g p : α}

theorem rotate_gparent {t : RbTree α}
    (hs : Stores h (plug k (branch d .black (branch d .red t p sib) g u))) :
    ∃ h', rbRotate d.other (h.setBlackred p g) g = some h' ∧
      Stores h' (plug (⟨d, .black, p, branch d.other .red u g sib⟩ :: k) t) ∧
      (plug (⟨d, .black, p, branch d.other .red u g sib⟩ :: k) t).toList =
        (plug k (branch d .black (branch d .red t p sib) g u)).toList := by
  have h1 := Stores.setColor (k := ⟨d, .black, g, u⟩ :: k) hs .black
  have h2 := Stores.setColor (k := k) h1 .red
  rw [← branch_other d .red, ← branch_other d .black] at h2
  obtain ⟨h', hrot, h3⟩ := h2.rotate
  rw [branch_other d .black] at h3
  refine ⟨h', hrot, h3, toList_plug_congr k ?_⟩
  calc (branch d .black t p (branch d.other .red u g sib)).toList
      = (branch d .black t p (branch d .red sib g u)).toList := by rw [branch_other]
    _ = (branch d .black (branch d .red t p sib) g u).toList :=
        (toList_rotate d .red .black .black .red t sib u p g).symm

variable {a b : RbTree α} {e s : Side}

/-- The uncle is black: one or two rotations put a black node over the two red ones. -/
theorem insertColorSide_black {elm : α}
    (hs : Stores h (plug k (branch d .black (branch s .red (branch e .red a elm b) p sib) g u)))
    (hu : u.color = .black) :
    ∃ h' elm' p' e' a' b' sib', insertColorSide d h elm p g = some (h', elm') ∧
      Stores h' (plug (⟨d, .black, p', branch d.other .red u g sib'⟩ :: k)
        (branch e' .red a' elm' b')) ∧
      (plug (⟨d, .black, p', branch d.other .red u g sib'⟩ :: k)
        (branch e' .red a' elm' b')).toList =
      (plug k (branch d .black (branch s .red (branch e .red a elm b) p sib) g u)).toList ∧
      ∀ n, a.Balanced .black n → b.Balanced .black n → sib.Balanced .black n →
        a'.Balanced .black n ∧ b'.Balanced .black n ∧ sib'.Balanced .black n := by
  obtain ⟨-, -, -, htmp⟩ := hs.fields
  have hblack : ¬ h.isBlack u.top = false := by
    rw [Bool.not_eq_false, hs.flip.isBlack, hu]
  have hp := Stores.fields (k := ⟨d, .black, g, u⟩ :: k) hs
  by_cases hsd : s = d
  · -- the element is on the outer side of its parent
    subst hsd
    have hinner : ¬ h.child s.other p = some elm := by
      rw [hp.2.2.2]
      intro e
      have hn := nodup_branch.1 ((nodup_plug (k := ⟨s, .black, g, u⟩ :: k)).1 hs.nodup).1
      exact hn.2.2.2.2 elm (mem_branch.2 (.inl rfl)) (top_mem e)
    obtain ⟨h', hrot, hs', hlist⟩ := rotate_gparent hs
    refine ⟨h', elm, p, e, a, b, sib, ?_, hs', hlist, fun n ha hb hsib => ⟨ha, hb, hsib⟩⟩
    simp only [insertColorSide, htmp, if_neg hblack, if_neg hinner]
    simp [hrot]
  · -- the element is on the inner side: it changes places with its parent first
    obtain rfl : s = d.other := Side.eq_other hsd
    obtain ⟨a', b', hturn, hab⟩ := branch_turn d e .red a elm b
    rw [hturn, branch_other d .red] at hs
    rw [hturn, branch_other d .red]
    have hinner : h.child d.other p = some elm := by
      have hfields := Stores.fields (k := ⟨d, .black, g, u⟩ :: k) hs
      rw [hfields.2.2.2, branch_top]
    obtain ⟨h1, hrot1, hs1⟩ := Stores.rotate (k := ⟨d, .black, g, u⟩ :: k) hs
    obtain ⟨h', hrot, hs', hlist⟩ := rotate_gparent hs1
    refine ⟨h', p, elm, d, sib, a', b', ?_, hs', hlist.trans ?_, ?_⟩
    · simp only [insertColorSide, htmp, if_neg hblack, if_pos hinner, hrot1]
      simp [hrot]
    · exact toList_plug_congr (⟨d, .black, g, u⟩ :: k) (toList_rotate d .red .red .red .red _ _ _ _ _)
    · intro n ha hb hsib
      rcases hab with ⟨rfl, rfl⟩ | ⟨rfl, rfl⟩
      · exact ⟨hsib, ha, hb⟩
      · exact ⟨hsib, hb, ha⟩

theorem insertColorBody_red {elm : α}
    (hs : Stores h (plug k (branch d .black (branch s .red (branch e .red a elm b) p sib) g u)))
    {h' : RbHeap α} {elm' : α} (hside : insertColorSide d h elm p g = some (h', elm')) :
    insertColorBody (h, elm) = some (.inl (h', elm')) := by
  obtain ⟨-, hparent, -, -⟩ :=
    Stores.fields (k := ⟨s, .red, p, sib⟩ :: ⟨d, .black, g, u⟩ :: k) hs
  obtain ⟨hred, hgparent, -, -⟩ := Stores.fields (k := ⟨d, .black, g, u⟩ :: k) hs
  obtain ⟨-, -, hnear, hfar⟩ := hs.fields
  simp only [up_cons] at hparent hgparent
  rw [branch_top] at hnear
  cases d with
  | left =>
    have hleft : h.left g = some p := hnear
    simp [insertColorBody, hparent, hred, hgparent, hleft, hside]
  | right =>
    have hleft : h.left g ≠ some p := by
      intro e
      have hn := nodup_branch.1 (nodup_plug.1 hs.nodup).1
      exact hn.2.2.2.2 p (mem_branch.2 (.inl rfl)) (top_mem (hfar.symm.trans e))
    simp [insertColorBody, hparent, hred, hgparent, hleft, hside]

theorem insertColor_repaired {elm : α} {n : Nat}
    (hs : Stores h (plug k (branch e .red a elm b))) (ha : a.Balanced .black n)
    (hb : b.Balanced .black n) (hk : Fits k .black n) :
    Repaired h elm (plug k (branch e .red a elm b)).toList := by
  induction hlen : k.length using Nat.strong_induction_on generalizing h k e a b elm n with
  | _ len ih =>
    obtain ⟨-, hparent, -, -⟩ := hs.fields
    cases hk with
    | nil =>
      -- the element has become the root
      obtain ⟨a', b', hturn, hab⟩ := branch_turn .left e .red a elm b
      have hexit : insertColorBody (h, elm) = some (.inr h) := by
        simp [insertColorBody, hparent]
      rw [hturn] at hs ⊢
      refine ⟨h, .red, a', elm, b', n + 1, loop_exit hexit, hs, rfl, balanced_branch_black.2 ?_⟩
      rcases hab with ⟨rfl, rfl⟩ | ⟨rfl, rfl⟩
      · exact ⟨ha.self, hb.self⟩
      · exact ⟨hb.self, ha.self⟩
    | black c hsib hk =>
      -- the parent is black: nothing is wrong
      rename_i k d x sib c
      have hfits : Fits (⟨d, .black, x, sib⟩ :: k) .red n := .black .red hsib hk
      have hred : (branch e .red a elm b).Balanced .red n := balanced_branch_red.2 ⟨ha, hb⟩
      obtain ⟨m, hbal⟩ := hfits.plug hred
      have hblack : h.color x = .black := (Stores.fields (k := k) hs).1
      have hexit : insertColorBody (h, elm) = some (.inr h) := by
        simp [insertColorBody, hparent, hblack]
      obtain ⟨y, hy⟩ := exists_top (t := branch e .red a elm b) (branch_top _ _ _ _ _)
        (⟨d, .black, x, sib⟩ :: k)
      obtain ⟨a', b', ht⟩ := exists_branch .left hy
      rw [hbal.color_eq] at ht
      rw [ht] at hbal hs ⊢
      exact ⟨h, .black, a', y, b', m, loop_exit hexit, hs, rfl, hbal⟩
    | red hsib hk =>
      rename_i k s p sib
      cases hk with
      | black c hu hk =>
        rename_i k d g u c
        have hs : Stores h
            (plug k (branch d .black (branch s .red (branch e .red a elm b) p sib) g u)) := hs
        have hlen : k.length + 2 = len := hlen
        change Repaired h elm
          (plug k (branch d .black (branch s .red (branch e .red a elm b) p sib) g u)).toList
        cases hcol : u.color with
        | red =>
          obtain ⟨h', x, ua, ub, rfl, hside, hs'⟩ := insertColorSide_red elm hs hcol
          -- the grandparent is the next red element to look at
          obtain rfl : c = .red := by rw [← hu.color_eq, hcol]
          obtain ⟨hua, hub⟩ := balanced_branch_red.1 hu
          have hp : (branch s .black (branch e .red a elm b) p sib).Balanced .black (n + 1) :=
            balanced_branch_black.2 ⟨(balanced_branch_red.2 ⟨ha, hb⟩).self, hsib.self⟩
          have hu' : (branch d .black ua x ub).Balanced .black (n + 1) :=
            balanced_branch_black.2 ⟨hua.self, hub.self⟩
          obtain ⟨h'', c, a', y, b', m, hret, hs'', hlist, hbal⟩ :=
            ih k.length (by omega) hs' hp hu' hk rfl
          refine ⟨h'', c, a', y, b', m, loop_next (insertColorBody_red hs hside) hret, hs'',
            hlist.trans (toList_plug_congr k ?_), hbal⟩
          rw [toList_recolor d .red .black]
          exact toList_branch_congr d .black g (toList_recolor s _ _ _ _ _) (toList_recolor d _ _ _ _ _)
        | black =>
          obtain ⟨h', elm', p', e', a', b', sib', hside, hs', hlist, hbal⟩ :=
            insertColorSide_black hs hcol
          obtain rfl : c = .black := by rw [← hu.color_eq, hcol]
          obtain ⟨ha', hb', hsib'⟩ := hbal n ha hb hsib
          have hfits : Fits (⟨d, .black, p', branch d.other .red u g sib'⟩ :: k) .black n :=
            .black .black (balanced_branch_red.2 ⟨hu, hsib'⟩) hk
          have hshort : k.length + 1 < len := by omega
          obtain ⟨h'', c, a'', y, b'', m, hret, hs'', hlist', hbal'⟩ :=
            ih (k.length + 1) hshort hs' ha' hb' hfits rfl
          exact ⟨h'', c, a'', y, b'', m, loop_next (insertColorBody_red hs hside) hret, hs'',
            hlist'.trans hlist, hbal'⟩

theorem rbInsertColor_returns {elm : α} {n : Nat}
    (hs : Stores h (plug k (branch e .red a elm b))) (ha : a.Balanced .black n)
    (hb : b.Balanced .black n) (hk : Fits k .black n) :
    ∃ h' t m, Returns (rbInsertColor h elm) h' ∧ Stores h' t ∧
      t.toList = (plug k (branch e .red a elm b)).toList ∧ t.Balanced .black m := by
  obtain ⟨h', c, a', x, b', m, hret, hs', hlist, hbal⟩ := insertColor_repaired hs ha hb hk
  have hroot : h'.root = some x := hs'.holds.2
  have hblack := Stores.setColor (k := []) hs' .black
  refine ⟨_, _, m, hret.bind ?_, hblack, ?_, hbal⟩
  · simp only [hroot, Option.bind_eq_bind, Option.bind_some]
    exact Returns.const _
  · exact (toList_recolor .left .black c a' b' x).trans hlist

/-! ## Search -/

/-- The hole is where `elm` belongs. -/
structure Place (cmp : α → α → Int) (elm : α) (k : List (Frame α)) : Prop where
  less : ∀ y ∈ before k, cmp y elm < 0
  greater : ∀ y ∈ behind k, cmp elm y < 0

/-- The value of `comp` tells the side of the hole. -/
def CompAt (comp : Int) (k : List (Frame α)) : Prop :=
  ∀ f ∈ k.head?, comp < 0 ↔ f.side = .left

section Search

omit [DecidableEq α]

variable {cmp : α → α → Int} {elm x : α} {c : Color} {l r : RbTree α}

theorem Place.left (hk : Place cmp elm k) (ho : CmpOrder cmp) (hx : cmp elm x < 0)
    (hr : ∀ y ∈ r.toList, cmp x y < 0) : Place cmp elm (⟨.left, c, x, r⟩ :: k) := by
  refine ⟨?_, ?_⟩
  · intro y hy
    exact hk.less y (by simpa [before] using hy)
  · intro y hy
    simp only [behind, cons_append, mem_cons, mem_append] at hy
    rcases hy with rfl | hy | hy
    · exact hx
    · exact ho.lt_trans hx (hr y hy)
    · exact hk.greater y hy

theorem Place.right (hk : Place cmp elm k) (ho : CmpOrder cmp) (hx : cmp x elm < 0)
    (hl : ∀ y ∈ l.toList, cmp y x < 0) : Place cmp elm (⟨.right, c, x, l⟩ :: k) := by
  refine ⟨?_, ?_⟩
  · intro y hy
    simp only [before, mem_append, mem_singleton] at hy
    rcases hy with hy | hy | rfl
    · exact hk.less y hy
    · exact ho.lt_trans (hl y hy) hx
    · exact hx
  · intro y hy
    exact hk.greater y (by simpa [behind] using hy)

theorem Place.ne_zero (hk : Place cmp elm k) (ho : CmpOrder cmp) {y : α}
    (hy : y ∈ (plug k .nil).toList) : cmp elm y ≠ 0 := by
  rw [toList_plug] at hy
  simp only [toList, append_nil, mem_append] at hy
  rcases hy with hy | hy
  · have hlt := (ho.swap elm y).2 (hk.less y hy)
    omega
  · have hlt := hk.greater y hy
    omega

/-- The search finds an element with the key of `elm`, or the place for it. -/
theorem insertSearch_returns (ho : CmpOrder cmp) {t : RbTree α} (comp : Int)
    (hs : Stores h (plug k t)) (hord : (plug k t).toList.Pairwise (fun x y => cmp x y < 0))
    (hk : Place cmp elm k) (hcomp : CompAt comp k) :
    (∃ x ∈ (plug k t).toList, cmp elm x = 0 ∧
      Returns (fun fuel => loop (insertSearchBody cmp h elm) fuel (t.top, up k, comp))
        (.inl x)) ∨
    ∃ k' comp', plug k' .nil = plug k t ∧ Place cmp elm k' ∧ CompAt comp' k' ∧
      Returns (fun fuel => loop (insertSearchBody cmp h elm) fuel (t.top, up k, comp))
        (.inr (up k', comp')) := by
  induction t generalizing k comp with
  | nil => exact .inr ⟨k, comp, rfl, hk, hcomp, loop_exit rfl⟩
  | node c l x r ihl ihr =>
    have hpair : (node c l x r).toList.Pairwise (fun x y => cmp x y < 0) := by
      rw [toList_plug] at hord
      exact (pairwise_append.1 (pairwise_append.1 hord).1).2.1
    obtain ⟨-, hxr, hlx⟩ := pairwise_append.1 hpair
    have hr := (pairwise_cons.1 hxr).1
    have hl : ∀ y ∈ l.toList, cmp y x < 0 := fun y hy => hlx y hy x mem_cons_self
    obtain ⟨-, -, hleft, hright⟩ := Stores.fields (d := .left) hs
    have hleft : h.left x = l.top := hleft
    have hright : h.right x = r.top := hright
    by_cases hlt : cmp elm x < 0
    · have hstep : insertSearchBody cmp h elm (some x, up k, comp) =
          some (.inl (l.top, some x, cmp elm x)) := by
        simp [insertSearchBody, hlt, hleft]
      rcases ihl (k := ⟨.left, c, x, r⟩ :: k) (cmp elm x) hs hord (hk.left ho hlt hr)
        (by simp [CompAt, hlt]) with ⟨y, hy, hzero, hret⟩ | ⟨k', comp', hplug, hk', hcomp', hret⟩
      · exact .inl ⟨y, hy, hzero, loop_next hstep hret⟩
      · exact .inr ⟨k', comp', hplug, hk', hcomp', loop_next hstep hret⟩
    · by_cases hgt : cmp elm x > 0
      · have hstep : insertSearchBody cmp h elm (some x, up k, comp) =
            some (.inl (r.top, some x, cmp elm x)) := by
          simp [insertSearchBody, hlt, hgt, hright]
        rcases ihr (k := ⟨.right, c, x, l⟩ :: k) (cmp elm x) hs hord
          (hk.right ho ((ho.swap elm x).1 hgt) hl) (by simp [CompAt, hlt]) with
          ⟨y, hy, hzero, hret⟩ | ⟨k', comp', hplug, hk', hcomp', hret⟩
        · exact .inl ⟨y, hy, hzero, loop_next hstep hret⟩
        · exact .inr ⟨k', comp', hplug, hk', hcomp', loop_next hstep hret⟩
      · have hzero : cmp elm x = 0 := by omega
        refine .inl ⟨x, mem_plug.2 (.inl (by simp [toList])), hzero, loop_exit ?_⟩
        simp [insertSearchBody, top, hzero]

end Search

/-! ## `RB_INSERT` -/

theorem sameAt_set {elm y : α} {p : Option α} (hy : y ≠ elm) : SameAt h (h.set elm p) y :=
  (sameAt_setParent hy).trans ((sameAt_setChild hy).trans ((sameAt_setChild hy).trans
    (sameAt_setColor hy)))

theorem insertLink_stores {elm : α} {comp : Int} (hs : Stores h (plug k .nil))
    (helm : elm ∉ elems k) (hcomp : CompAt comp k) :
    Stores (insertLink h elm (up k) comp) (plug k (branch .left .red .nil elm .nil)) := by
  obtain ⟨-, hk⟩ := holds_plug.1 hs.holds
  obtain ⟨-, hnk, -⟩ := nodup_plug.1 hs.nodup
  have hkset : RepPath (h.set elm (up k)) none k := by
    refine hk.frame (fun z hz => sameAt_set ?_) rfl
    rintro rfl
    exact helm hz
  have hnodup : (plug k (branch .left .red .nil elm .nil)).toList.Nodup := by
    refine nodup_plug.2 ⟨nodup_singleton elm, hnk, ?_⟩
    intro x hx
    rw [mem_singleton.1 hx]
    exact helm
  have hnew : Rep (h.set elm (up k)) (up k) (branch .left .red .nil elm .nil) := by
    refine rep_branch.2 ⟨?_, ?_, ?_, ?_, trivial, trivial⟩
    · simp [RbHeap.set, RbHeap.setColor]
    · simp [RbHeap.set, RbHeap.setColor, RbHeap.setChild, RbHeap.setParent]
    · simp [RbHeap.set, RbHeap.setColor, RbHeap.setChild, top]
    · simp [RbHeap.set, RbHeap.setColor, RbHeap.setChild, top, Side.other]
  refine ⟨holds_plug.2 ?_, hnodup⟩
  cases k with
  | nil => exact ⟨hnew, rfl⟩
  | cons f k =>
    have hlink : insertLink h elm (some f.elem) comp =
        (h.set elm (some f.elem)).setChild f.side f.elem (some elm) := by
      have hside : comp < 0 ↔ f.side = .left := hcomp f rfl
      simp only [insertLink]
      split
      · rename_i hlt
        rw [hside.1 hlt]
      · rename_i hlt
        have hright : f.side = .right := by
          cases hf : f.side with
          | left => exact absurd (hside.2 hf) hlt
          | right => rfl
        rw [hright]
    rw [up_cons, hlink]
    refine ⟨hnew.frame fun z hz => sameAt_setChild ?_, hkset.fill hnk (some elm)⟩
    intro e
    rw [← mem_singleton.1 hz, e] at helm
    exact helm mem_cons_self

/-- `RB_INSERT` finds an element with the same key and changes nothing, or it adds
    the element to the tree. -/
theorem rbInsert_returns {cmp : α → α → Int} (ho : CmpOrder cmp) {t : RbTree α}
    (hv : RbValid cmp h t) (elm : α) :
    (∃ x ∈ t.toList, cmp elm x = 0 ∧ Returns (rbInsert cmp h elm) (some x, h)) ∨
    (∀ x ∈ t.toList, cmp elm x ≠ 0) ∧
      ∃ h' t' l r, Returns (rbInsert cmp h elm) (none, h') ∧ RbValid cmp h' t' ∧
        t.toList = l ++ r ∧ t'.toList = l ++ elm :: r := by
  have hs := hv.stores ho
  have hroot : h.root = t.top := hs.holds.2
  rcases insertSearch_returns (k := []) ho 0 hs hv.ordered
    ⟨fun y hy => absurd hy not_mem_nil, fun y hy => absurd hy not_mem_nil⟩
    (fun f hf => nomatch hf) with ⟨x, hx, hzero, hret⟩ | ⟨k, comp, hplug, hk, hcomp, hret⟩
  · refine .inl ⟨x, hx, hzero, ?_⟩
    rw [← hroot] at hret
    exact hret.bind (Returns.const _)
  · rw [← hroot] at hret
    have hplug : plug k .nil = t := hplug
    subst hplug
    have hne : ∀ x ∈ (plug k .nil).toList, cmp elm x ≠ 0 := fun x hx => hk.ne_zero ho hx
    refine .inr ⟨hne, ?_⟩
    have helm : elm ∉ elems k := by
      intro hm
      exact hne elm (mem_plug.2 (.inr hm)) (ho.self elm)
    have hlink := insertLink_stores hs helm hcomp
    obtain ⟨n, hbal⟩ := hv.balanced
    obtain ⟨c, m, hfits, hnil⟩ := exists_fits hbal
    obtain rfl : .black = c := hnil.color_eq
    obtain ⟨h', t', m', hcol, hs', hlist, hbal'⟩ :=
      rbInsertColor_returns hlink hnil hnil hfits
    rw [toList_plug] at hlist
    refine ⟨h', t', before k, behind k, hret.bind (hcol.bind (Returns.const _)),
      .of_balanced hs'.holds ?_ hbal', by rw [toList_plug]; simp [toList], ?_⟩
    · have hord := hv.ordered
      rw [toList_plug] at hord
      simp only [toList, append_nil] at hord
      obtain ⟨hl, hr, hlr⟩ := pairwise_append.1 hord
      rw [hlist]
      simp only [branch, toList, nil_append, append_assoc, singleton_append]
      refine pairwise_append.2 ⟨hl, pairwise_cons.2 ⟨hk.greater, hr⟩, ?_⟩
      intro y hy z hz
      rcases mem_cons.1 hz with rfl | hz
      · exact hk.less y hy
      · exact hlr y hy z hz
    · rw [hlist]
      simp [branch, toList]

end OpenBsd.Sys
