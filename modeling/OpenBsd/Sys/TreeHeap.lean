/-
  OpenBsd.Sys.TreeHeap

  Which tree the memory of `sys/tree.h` holds, and what the writes and the
  rotations do to it.
-/

import OpenBsd.Sys.Tree

namespace OpenBsd.Sys

open OpenBsd.Lib OpenBsd.Lib.RbTree

variable {α : Type}

/-! ## The tree in the memory -/

/-- The fields of the elements of the tree are as the tree has them; the parent of
    its root is `par`. -/
def Rep (h : RbHeap α) (par : Option α) : RbTree α → Prop
  | .nil => True
  | .node c l x r =>
    h.color x = c ∧ h.parent x = par ∧ h.child .left x = l.top ∧ h.child .right x = r.top ∧
      Rep h (some x) l ∧ Rep h (some x) r

/-- The same for the elements of a path with `p` in the hole. -/
def RepPath (h : RbHeap α) (p : Option α) : List (Frame α) → Prop
  | [] => h.root = p
  | f :: k =>
    h.color f.elem = f.color ∧ h.parent f.elem = up k ∧ h.child f.side f.elem = p ∧
      h.child f.side.other f.elem = f.sib.top ∧ Rep h (some f.elem) f.sib ∧
      RepPath h (some f.elem) k

/-- The memory holds the tree. -/
def Holds (h : RbHeap α) (t : RbTree α) : Prop := Rep h none t ∧ h.root = t.top

variable {h h' : RbHeap α} {par p : Option α} {t : RbTree α} {k : List (Frame α)}

theorem rep_branch {d : Side} {c : Color} {a b : RbTree α} {x : α} :
    Rep h par (branch d c a x b) ↔
      h.color x = c ∧ h.parent x = par ∧ h.child d x = a.top ∧ h.child d.other x = b.top ∧
        Rep h (some x) a ∧ Rep h (some x) b := by
  cases d with
  | left => rfl
  | right =>
    constructor
    · rintro ⟨hc, hp, hl, hr, hb, ha⟩
      exact ⟨hc, hp, hr, hl, ha, hb⟩
    · rintro ⟨hc, hp, hr, hl, ha, hb⟩
      exact ⟨hc, hp, hl, hr, hb, ha⟩

theorem holds_plug : Holds h (plug k t) ↔ Rep h (up k) t ∧ RepPath h t.top k := by
  induction k generalizing t with
  | nil => rfl
  | cons f k ih =>
    rw [plug, ih, rep_branch, branch_top]
    constructor
    · rintro ⟨⟨hc, hp, hl, hr, ht, hs⟩, hk⟩
      exact ⟨ht, hc, hp, hl, hr, hs, hk⟩
    · rintro ⟨ht, hc, hp, hl, hr, hs, hk⟩
      exact ⟨⟨hc, hp, hl, hr, ht, hs⟩, hk⟩

/-- The fields of `x` are the same. -/
structure SameAt (h h' : RbHeap α) (x : α) : Prop where
  child : ∀ d, h'.child d x = h.child d x
  parent : h'.parent x = h.parent x
  color : h'.color x = h.color x

theorem Rep.frame (ht : Rep h par t) (hsame : ∀ x ∈ t.toList, SameAt h h' x) : Rep h' par t := by
  induction t generalizing par with
  | nil => trivial
  | node c l x r ihl ihr =>
    obtain ⟨hc, hp, hl, hr, htl, htr⟩ := ht
    have hx := hsame x (by simp [toList])
    refine ⟨by rw [hx.color, hc], by rw [hx.parent, hp], by rw [hx.child, hl],
      by rw [hx.child, hr], ihl htl ?_, ihr htr ?_⟩
    · intro y hy
      exact hsame y (by simp [toList, hy])
    · intro y hy
      exact hsame y (by simp [toList, hy])

theorem RepPath.frame (hk : RepPath h p k) (hsame : ∀ x ∈ elems k, SameAt h h' x)
    (hroot : h'.root = h.root) : RepPath h' p k := by
  induction k generalizing p with
  | nil => exact hroot.trans hk
  | cons f k ih =>
    obtain ⟨hc, hp, hl, hr, hsib, hk⟩ := hk
    have hx := hsame f.elem List.mem_cons_self
    refine ⟨by rw [hx.color, hc], by rw [hx.parent, hp], by rw [hx.child, hl],
      by rw [hx.child, hr], hsib.frame ?_, ih hk ?_⟩
    · intro y hy
      exact hsame y (List.mem_cons_of_mem _ (List.mem_append_left _ hy))
    · intro y hy
      exact hsame y (List.mem_cons_of_mem _ (List.mem_append_right _ hy))

theorem SameAt.trans {h'' : RbHeap α} {x : α} (h1 : SameAt h h' x) (h2 : SameAt h' h'' x) :
    SameAt h h'' x :=
  ⟨fun d => (h2.child d).trans (h1.child d), h2.parent.trans h1.parent, h2.color.trans h1.color⟩

variable [DecidableEq α]

/-! ## Writes -/

section Writes

variable {d : Side} {x y : α} {q : Option α} {c : Color}

theorem sameAt_setChild (hy : y ≠ x) : SameAt h (h.setChild d x q) y :=
  ⟨fun e => by simp [RbHeap.setChild, hy], rfl, rfl⟩

theorem sameAt_setParent (hy : y ≠ x) : SameAt h (h.setParent x q) y :=
  ⟨fun _ => rfl, by simp [RbHeap.setParent, hy], rfl⟩

theorem sameAt_setColor (hy : y ≠ x) : SameAt h (h.setColor x c) y :=
  ⟨fun _ => rfl, rfl, by simp [RbHeap.setColor, hy]⟩

section

variable {r : Option α}

theorem sameAt_setParentOf (hy : r ≠ some y) : SameAt h (h.setParentOf r q) y := by
  cases r with
  | none => exact ⟨fun _ => rfl, rfl, rfl⟩
  | some x => exact sameAt_setParent (fun e => hy (e ▸ rfl))

theorem sameAt_relink (hy : r ≠ some y) : SameAt h (h.relink r x q) y := by
  cases r with
  | none => exact ⟨fun _ => rfl, rfl, rfl⟩
  | some z =>
    have hyz : y ≠ z := fun e => hy (e ▸ rfl)
    simp only [RbHeap.relink]
    split
    · exact sameAt_setChild hyz
    · exact sameAt_setChild hyz

@[simp] theorem setParentOf_child : (h.setParentOf r q).child = h.child := by
  cases r <;> rfl

@[simp] theorem setParentOf_color : (h.setParentOf r q).color = h.color := by
  cases r <;> rfl

@[simp] theorem setParentOf_root : (h.setParentOf r q).root = h.root := by
  cases r <;> rfl

@[simp] theorem relink_parent : (h.relink r x q).parent = h.parent := by
  cases r with
  | none => rfl
  | some z =>
    simp only [RbHeap.relink]
    split <;> rfl

@[simp] theorem relink_color : (h.relink r x q).color = h.color := by
  cases r with
  | none => rfl
  | some z =>
    simp only [RbHeap.relink]
    split <;> rfl

end

end Writes

theorem Rep.reparent (ht : Rep h par t) (hnodup : t.toList.Nodup) (q : Option α) :
    Rep (h.setParentOf t.top q) q t := by
  cases t with
  | nil => trivial
  | node c l x r =>
    obtain ⟨hc, hp, hl, hr, htl, htr⟩ := ht
    obtain ⟨hxl, hxr, -⟩ := (nodup_branch (d := .left) (c := c)).1 hnodup
    refine ⟨hc, by simp [top, RbHeap.setParentOf, RbHeap.setParent], hl, hr, ?_, ?_⟩
    · refine htl.frame fun y hy => sameAt_setParent ?_
      rintro rfl
      exact hxl hy
    · refine htr.frame fun y hy => sameAt_setParent ?_
      rintro rfl
      exact hxr hy

theorem RepPath.fill {f : Frame α} (hk : RepPath h p (f :: k)) (hnodup : (elems (f :: k)).Nodup)
    (q : Option α) : RepPath (h.setChild f.side f.elem q) q (f :: k) := by
  obtain ⟨hc, hp, -, hr, hsib, hk⟩ := hk
  obtain ⟨hfsib, hfk, -, -, -⟩ := nodup_elems_cons.1 hnodup
  refine ⟨hc, hp, by simp [RbHeap.setChild], ?_, ?_, ?_⟩
  · simp only [RbHeap.setChild, Side.other_ne, false_and, if_false]
    exact hr
  · refine hsib.frame fun z hz => sameAt_setChild ?_
    rintro rfl
    exact hfsib hz
  · refine hk.frame (fun z hz => sameAt_setChild ?_) rfl
    rintro rfl
    exact hfk hz

theorem RepPath.relink {x : α} (hk : RepPath h (some x) k) (hnodup : (elems k).Nodup)
    (hx : x ∉ elems k) (q : Option α) : RepPath (h.relink (up k) x q) q k := by
  cases k with
  | nil => rfl
  | cons f k =>
    obtain ⟨d, c, y, sib⟩ := f
    -- the write goes to the side of the hole
    have hwrite : h.relink (some y) x q = h.setChild d y q := by
      obtain ⟨-, -, hl, hr, -⟩ := hk
      cases d with
      | left => exact if_pos hl
      | right =>
        have hne : h.left y ≠ some x := by
          intro e
          have hxs : x ∈ sib.toList := top_mem (hr.symm.trans e)
          exact hx (List.mem_cons_of_mem _ (List.mem_append_left _ hxs))
        exact if_neg hne
    rw [up_cons, hwrite]
    exact hk.fill hnodup q

/-! ## Rotations -/

theorem rbRotate_holds {d : Side} {c c' : Color} {a b f : RbTree α} {x y : α}
    (hh : Holds h (plug k (branch d c a x (branch d c' b y f))))
    (hnodup : (plug k (branch d c a x (branch d c' b y f))).toList.Nodup) :
    ∃ h', rbRotate d h x = some h' ∧
      Holds h' (plug k (branch d c' (branch d c a x b) y f)) := by
  obtain ⟨ht, hk⟩ := holds_plug.1 hh
  rw [branch_top] at hk
  obtain ⟨hcx, hpx, hax, hyx, hta, hty⟩ := rep_branch.1 ht
  obtain ⟨hcy, -, hby, hfy, htb, htf⟩ := rep_branch.1 hty
  rw [branch_top] at hyx
  -- all elements are different
  obtain ⟨hnt, hnk, htk⟩ := nodup_plug.1 hnodup
  obtain ⟨hxa, hxy, -, hny, hay⟩ := nodup_branch.1 hnt
  obtain ⟨hyb, hyf, hnb, -, hbf⟩ := nodup_branch.1 hny
  simp only [mem_branch, not_or] at hxy hay htk
  have hxk : x ∉ elems k := htk x (.inl rfl)
  have hyk : y ∉ elems k := htk y (.inr (.inr (.inl rfl)))
  have hupx : up k ≠ some x := fun e => hxk (up_mem e)
  have hupy : up k ≠ some y := fun e => hyk (up_mem e)
  have hbx : b.top ≠ some x := fun e => hxy.2.1 (top_mem e)
  have hby' : b.top ≠ some y := fun e => hyb (top_mem e)
  -- the memory after each write
  generalize hh1 : h.setChild d.other x b.top = h1
  generalize hh2 : h1.setParentOf b.top (some x) = h2
  have hp2 : h2.parent x = up k := by
    rw [← hh2, (sameAt_setParentOf hbx).parent, ← hh1, ← hpx]
    rfl
  generalize hh3 : h2.setParent y (up k) = h3
  have hp3 : h3.parent x = up k := by
    rw [← hh3, (sameAt_setParent hxy.1).parent, hp2]
  generalize hh4 : h3.relink (up k) x (some y) = h4
  have hrot : rbRotate d h x = some ((h4.setChild d y (some x)).setParent x (some y)) := by
    simp only [rbRotate, hyx, Option.bind_eq_bind, Option.bind_some, hby, hh1, hh2, hp2, hh3, hp3,
      hh4]
    rfl
  have hbefore : ∀ z, z ≠ x → b.top ≠ some z → SameAt h h2 z := by
    intro z hzx hbz
    rw [← hh2, ← hh1]
    exact (sameAt_setChild hzx).trans (sameAt_setParentOf hbz)
  have hafter : ∀ z, z ≠ x → z ≠ y → up k ≠ some z →
      SameAt h2 ((h4.setChild d y (some x)).setParent x (some y)) z := by
    intro z hzx hzy hupz
    rw [← hh4, ← hh3]
    exact ((sameAt_setParent hzy).trans (sameAt_relink hupz)).trans
      ((sameAt_setChild hzy).trans (sameAt_setParent hzx))
  have hcolor : h4.color = h.color := by
    rw [← hh4, relink_color, ← hh3, ← hh2, ← hh1]
    exact setParentOf_color
  have hchild3 : h3.child = h1.child := by
    rw [← hh3, ← hh2]
    exact setParentOf_child
  have hcx4 : ∀ e, h4.child e x = h1.child e x := by
    intro e
    rw [← hh4, (sameAt_relink hupx).child, hchild3]
  have hcy4 : ∀ e, h4.child e y = h1.child e y := by
    intro e
    rw [← hh4, (sameAt_relink hupy).child, hchild3]
  have hyx' : y ≠ x := fun e => hxy.1 e.symm
  have hroot : h3.root = h.root := by
    rw [← hh3, ← hh2, ← hh1]
    exact setParentOf_root
  refine ⟨_, hrot, holds_plug.2 ⟨rep_branch.2 ⟨?_, ?_, ?_, ?_, rep_branch.2 ⟨?_, ?_, ?_, ?_, ?_, ?_⟩,
    ?_⟩, ?_⟩⟩
  · exact (congrFun hcolor y).trans hcy
  · rw [(sameAt_setParent hyx').parent]
    show h4.parent y = up k
    rw [← hh4, relink_parent, ← hh3]
    simp [RbHeap.setParent]
  · simp [RbHeap.setParent, RbHeap.setChild]
  · show (h4.setChild d y (some x)).child d.other y = f.top
    simp only [RbHeap.setChild, Side.other_ne, false_and, if_false]
    rw [hcy4, ← hh1, (sameAt_setChild hyx').child, hfy]
  · exact (congrFun hcolor x).trans hcx
  · simp [RbHeap.setParent]
  · show (h4.setChild d y (some x)).child d x = a.top
    rw [(sameAt_setChild hxy.1).child, hcx4, ← hh1]
    simp [RbHeap.setChild, hax]
  · show (h4.setChild d y (some x)).child d.other x = b.top
    rw [(sameAt_setChild hxy.1).child, hcx4, ← hh1]
    simp [RbHeap.setChild]
  · refine hta.frame fun z hz => ?_
    obtain ⟨hzy, hzb, -⟩ := hay z hz
    have hzx : z ≠ x := fun e => hxa (e ▸ hz)
    exact (hbefore z hzx fun e => hzb (top_mem e)).trans
      (hafter z hzx hzy fun e => htk z (.inr (.inl hz)) (up_mem e))
  · -- the inner subtree changes its parent
    have hb1 : Rep h1 (some y) b := by
      rw [← hh1]
      refine htb.frame fun z hz => sameAt_setChild ?_
      rintro rfl
      exact hxy.2.1 hz
    have hb2 := hb1.reparent hnb (some x)
    rw [hh2] at hb2
    refine hb2.frame fun z hz => hafter z ?_ ?_ ?_
    · rintro rfl
      exact hxy.2.1 hz
    · rintro rfl
      exact hyb hz
    · intro e
      exact htk z (.inr (.inr (.inr (.inl hz)))) (up_mem e)
  · refine htf.frame fun z hz => ?_
    have hzx : z ≠ x := fun e => hxy.2.2 (e ▸ hz)
    have hzy : z ≠ y := fun e => hyf (e ▸ hz)
    exact (hbefore z hzx fun e => hbf z (top_mem e) hz).trans
      (hafter z hzx hzy fun e => htk z (.inr (.inr (.inr (.inr hz)))) (up_mem e))
  · have hk3 : RepPath h3 (some x) k := by
      refine hk.frame (fun z hz => (hbefore z ?_ ?_).trans ?_) hroot
      · rintro rfl
        exact hxk hz
      · intro e
        exact htk z (.inr (.inr (.inr (.inl (top_mem e))))) hz
      · rw [← hh3]
        refine sameAt_setParent ?_
        rintro rfl
        exact hyk hz
    have hk4 := hk3.relink hnk hxk (some y)
    rw [hh4] at hk4
    rw [branch_top]
    refine hk4.frame (fun z hz => (sameAt_setChild ?_).trans (sameAt_setParent ?_)) rfl
    · rintro rfl
      exact hyk hz
    · rintro rfl
      exact hxk hz

/-! ## Colors -/

theorem setColor_holds {d : Side} {c : Color} {a b : RbTree α} {x : α}
    (hh : Holds h (plug k (branch d c a x b)))
    (hnodup : (plug k (branch d c a x b)).toList.Nodup) (c' : Color) :
    Holds (h.setColor x c') (plug k (branch d c' a x b)) := by
  obtain ⟨ht, hk⟩ := holds_plug.1 hh
  obtain ⟨-, hp, ha, hb, hta, htb⟩ := rep_branch.1 ht
  obtain ⟨hnt, -, htk⟩ := nodup_plug.1 hnodup
  obtain ⟨hxa, hxb, -⟩ := nodup_branch.1 hnt
  refine holds_plug.2 ⟨rep_branch.2 ⟨?_, hp, ha, hb, hta.frame fun z hz => sameAt_setColor ?_,
    htb.frame fun z hz => sameAt_setColor ?_⟩, ?_⟩
  · simp [RbHeap.setColor]
  · rintro rfl
    exact hxa hz
  · rintro rfl
    exact hxb hz
  · rw [branch_top] at hk ⊢
    refine hk.frame (fun z hz => sameAt_setColor ?_) rfl
    rintro rfl
    exact htk z (mem_branch.2 (.inl rfl)) hz

/-! ## Trees of different elements -/

/-- The memory holds the tree, and no element is in it twice. -/
structure Stores (h : RbHeap α) (t : RbTree α) : Prop where
  holds : Holds h t
  nodup : t.toList.Nodup

namespace Stores

section

variable {d : Side} {c c' : Color} {a b f : RbTree α} {x y : α}

theorem rotate (hs : Stores h (plug k (branch d c a x (branch d c' b y f)))) :
    ∃ h', rbRotate d h x = some h' ∧
      Stores h' (plug k (branch d c' (branch d c a x b) y f)) := by
  obtain ⟨h', hrot, hh⟩ := rbRotate_holds hs.holds hs.nodup
  refine ⟨h', hrot, hh, ?_⟩
  rw [toList_plug_congr k (toList_rotate d c c' c c' a b f x y)]
  exact hs.nodup

theorem setColor (hs : Stores h (plug k (branch d c a x b))) (c' : Color) :
    Stores (h.setColor x c') (plug k (branch d c' a x b)) := by
  refine ⟨setColor_holds hs.holds hs.nodup c', ?_⟩
  rw [toList_plug_congr k (toList_recolor d c' c a b x)]
  exact hs.nodup

omit [DecidableEq α] in
theorem fields (hs : Stores h (plug k (branch d c a x b))) :
    h.color x = c ∧ h.parent x = up k ∧ h.child d x = a.top ∧ h.child d.other x = b.top := by
  obtain ⟨hc, hp, ha, hb, -⟩ := rep_branch.1 (holds_plug.1 hs.holds).1
  exact ⟨hc, hp, ha, hb⟩

omit [DecidableEq α] in
theorem isBlack (hs : Stores h (plug k t)) : h.isBlack t.top = true ↔ t.color = .black := by
  have hrep := (holds_plug.1 hs.holds).1
  cases t with
  | nil => exact iff_of_true rfl rfl
  | node c l x r => simp [RbHeap.isBlack, top, RbTree.color, hrep.1]

omit [DecidableEq α] in
theorem flip (hs : Stores h (plug k (branch d c a x b))) :
    Stores h (plug (⟨d.other, c, x, a⟩ :: k) b) := by
  rw [plug, branch_other]
  exact hs

end

end Stores

/-! ## Red-black trees in the memory -/

section Valid

omit [DecidableEq α]

/-- `cmp` is a total order of the keys; elements with the same key give 0. -/
structure CmpOrder (cmp : α → α → Int) : Prop where
  swap : ∀ x y, 0 < cmp x y ↔ cmp y x < 0
  trans : ∀ x y z, cmp x y ≤ 0 → cmp y z ≤ 0 → cmp x z ≤ 0

section

variable {cmp : α → α → Int} (ho : CmpOrder cmp)
include ho

theorem CmpOrder.self (x : α) : cmp x x = 0 := by
  have hswap := ho.swap x x
  omega

theorem CmpOrder.lt_trans {x y z : α} (hxy : cmp x y < 0) (hyz : cmp y z < 0) : cmp x z < 0 := by
  have hxz := ho.trans x y z hxy.le hyz.le
  -- if `z` had the key of `x`, then `y` would not be after `x`
  have hyx := ho.trans y z x hyz.le
  have hswap := ho.swap y x
  have hswap' := ho.swap z x
  omega

theorem CmpOrder.ne_zero {l : List α} {x y : α} (hl : l.Pairwise (fun x y => cmp x y < 0))
    (hx : x ∈ l) (hy : y ∈ l) (hne : x ≠ y) : cmp x y ≠ 0 := by
  induction hl with
  | nil => exact absurd hx List.not_mem_nil
  | cons hhead _ ih =>
    rcases List.mem_cons.1 hx with rfl | hxl
    · rcases List.mem_cons.1 hy with rfl | hyl
      · exact absurd rfl hne
      · exact (hhead y hyl).ne
    · rcases List.mem_cons.1 hy with rfl | hyl
      · exact ((ho.swap x y).2 (hhead x hxl)).ne'
      · exact ih hxl hyl

theorem CmpOrder.eq_zero {x y z : α} (hy : cmp x y = 0) (hz : cmp x z = 0) : cmp y z = 0 := by
  have hyx := ho.swap x y
  have hyx' := ho.swap y x
  have hzx := ho.swap x z
  have hzx' := ho.swap z x
  have hyz := ho.trans y x z
  have hzy := ho.trans z x y
  have hswap := ho.swap y z
  have hswap' := ho.swap z y
  omega

end

/-- A red-black tree in the memory: the pointers hold the tree with its parents, in
    the order of `cmp`, with the colors of a red-black tree. -/
structure RbValid (cmp : α → α → Int) (h : RbHeap α) (t : RbTree α) : Prop where
  holds : Holds h t
  ordered : t.toList.Pairwise (fun x y => cmp x y < 0)
  rootBlack : t.color = .black
  noRedRed : t.NoRedRed
  blackHeight : ∃ n, t.BlackHeight n

theorem RbValid.stores {cmp : α → α → Int} (ho : CmpOrder cmp) {t : RbTree α}
    (hv : RbValid cmp h t) : Stores h t := by
  refine ⟨hv.holds, hv.ordered.imp ?_⟩
  rintro x y hlt rfl
  rw [ho.self] at hlt
  exact absurd hlt (lt_irrefl 0)

theorem RbValid.balanced {cmp : α → α → Int} (hv : RbValid cmp h t) : ∃ n, t.Balanced .black n := by
  obtain ⟨n, hn⟩ := hv.blackHeight
  exact ⟨n, balanced_iff.2 ⟨hv.rootBlack, hv.noRedRed, hn⟩⟩

theorem RbValid.of_balanced {cmp : α → α → Int} {n : Nat} (hh : Holds h t)
    (hord : t.toList.Pairwise (fun x y => cmp x y < 0)) (hbal : t.Balanced .black n) :
    RbValid cmp h t := by
  obtain ⟨hcol, hred, hbh⟩ := balanced_iff.1 hbal
  exact ⟨hh, hord, hcol, hred, n, hbh⟩

end Valid

end OpenBsd.Sys
