/-
  OpenBsd.Sys.TreeWalk

  The walks of `sys/tree.h`: `RB_MINMAX`, `RB_NEXT`, `RB_PREV` and
  `RB_FOREACH_SAFE`.
-/

import OpenBsd.Sys.TreeFind

namespace OpenBsd.Sys

open OpenBsd.Lib OpenBsd.Lib.RbTree List

variable {α : Type} {d : Side} {h h' : RbHeap α} {t : RbTree α} {k : List (Frame α)} {x : α}

/-! ## Definitions -/

/-- `while (RB_LEFT(elm, field)) elm = RB_LEFT(elm, field)` for the side `left`. -/
def endBody (d : Side) (h : RbHeap α) (elm : α) : Option (α ⊕ α) :=
  match h.child d elm with
  | some elm => some (.inl elm)
  | none => some (.inr elm)

/-- The way out of a tree whose elements on side `d` are all behind us. -/
def climbBody [DecidableEq α] (d : Side) (h : RbHeap α) (elm : α) : Option (α ⊕ Option α) :=
  match h.parent elm with
  | some parent =>
    if h.child d parent = some elm then some (.inl parent) else some (.inr (some parent))
  | none => some (.inr none)

/-- `RB_NEXT` for the side `right` and `RB_PREV` for the side `left`. -/
def rbStep [DecidableEq α] (d : Side) (h : RbHeap α) (elm : α) (fuel : Nat) : Option (Option α) :=
  match h.child d elm with
  | some elm => (loop (endBody d.other h) fuel elm).map some
  | none =>
    if (h.parent elm).any (fun parent => h.child d.other parent = some elm) then
      some (h.parent elm)
    else loop (climbBody d h) fuel elm

def rbNext [DecidableEq α] (h : RbHeap α) := rbStep .right h

def rbPrev [DecidableEq α] (h : RbHeap α) := rbStep .left h

def minmaxBody (h : RbHeap α) (val : Int) :
    Option α × Option α → Option ((Option α × Option α) ⊕ Option α)
  | (none, parent) => some (.inr parent)
  | (some tmp, _) => some (.inl (if val < 0 then h.left tmp else h.right tmp, some tmp))

def rbMinmax (h : RbHeap α) (val : Int) (fuel : Nat) : Option (Option α) :=
  loop (minmaxBody h val) fuel (h.root, none)

/-- `RB_NEGINF`, for `RB_MIN`. -/
def rbNeginf : Int := -1

/-- `RB_INF`, for `RB_MAX`. -/
def rbInf : Int := 1

/-- A body for a loop over the tree, which removes some elements. -/
def removeIf [DecidableEq α] (p : α → Bool) (h : RbHeap α) (x : α) (fuel : Nat) :
    Option (RbHeap α) :=
  if p x then (rbRemove h x fuel).map (·.2) else some h

/-- `RB_FOREACH_SAFE` from `x` on, or its reverse, with the elements in the order of the
    visits. -/
def rbForeachSafe [DecidableEq α] (d : Side) (p : α → Bool) :
    Nat → RbHeap α → Option α → Option (RbHeap α × List α)
  | 0, _, _ => none
  | _ + 1, h, none => some (h, [])
  | fuel + 1, h, some x => do
    let y ← rbStep d h x fuel
    let h ← removeIf p h x fuel
    let (h, l) ← rbForeachSafe d p fuel h y
    return (h, x :: l)

/-- The whole loop: `RB_FOREACH_SAFE` for the side `right`. -/
def rbForeach [DecidableEq α] (d : Side) (p : α → Bool) (h : RbHeap α) (fuel : Nat) :
    Option (RbHeap α × List α) := do
  let x ← rbMinmax h (if d = .right then rbNeginf else rbInf) fuel
  rbForeachSafe d p fuel h x

/-! ## The elements in the order of a walk -/

/-- A list read from its start for the side `right`, from its end for the side `left`. -/
def facing : Side → List α → List α
  | .left, l => l.reverse
  | .right, l => l

@[simp] theorem facing_left (l : List α) : facing .left l = l.reverse := rfl

@[simp] theorem facing_right (l : List α) : facing .right l = l := rfl

theorem facing_branch (d : Side) (c : Color) (a b : RbTree α) :
    facing d (branch d c a x b).toList = facing d b.toList ++ x :: facing d a.toList := by
  cases d <;> simp [branch, toList]

/-- The elements of the path that come behind the hole. -/
def ahead : Side → List (Frame α) → List α
  | .left, k => (before k).reverse
  | .right, k => behind k

theorem facing_plug (d : Side) (k : List (Frame α)) (t : RbTree α) :
    facing d (plug k t).toList = (ahead d.other k).reverse ++ facing d t.toList ++ ahead d k := by
  cases d <;> simp [ahead, toList_plug, Side.other]

theorem ahead_same (d : Side) (c : Color) (x : α) (s : RbTree α) (k : List (Frame α)) :
    ahead d (⟨d, c, x, s⟩ :: k) = ahead d k := by
  cases d <;> simp [ahead, before, behind]

theorem ahead_other (d : Side) (c : Color) (x : α) (s : RbTree α) (k : List (Frame α)) :
    ahead d (⟨d.other, c, x, s⟩ :: k) = x :: facing d s.toList ++ ahead d k := by
  cases d <;> simp [ahead, before, behind, Side.other]

theorem facing_perm (d : Side) (l : List α) : (facing d l).Perm l := by
  cases d
  · exact reverse_perm l
  · exact .refl l

theorem eq_of_split {l r l' r' : List α} (hnodup : (l ++ x :: r).Nodup)
    (hsplit : l ++ x :: r = l' ++ x :: r') : l = l' ∧ r = r' := by
  have hx : x ∉ l ++ r := (nodup_cons.1 (nodup_middle.1 hnodup)).1
  rw [mem_append, not_or] at hx
  exact ((append_cons_inj_of_notMem hx.1 hx.2).1 hsplit).imp_right And.right

/-! ## One step -/

/-- The first element of a subtree, for a walk in this direction. -/
theorem end_returns {par : Option α} (ht : Rep h par t) (hx : h.child d.other x = t.top) :
    Returns (fun fuel => loop (endBody d.other h) fuel x) ((facing d t.toList).head?.getD x) := by
  induction t generalizing par x with
  | nil => exact loop_exit (by simp only [endBody, hx, top]; cases d <;> rfl)
  | node c l y r ihl ihr =>
    obtain ⟨-, -, hl, hr, htl, htr⟩ := ht
    have hbody : endBody d.other h x = some (.inl y) := by simp only [endBody, hx, top]
    refine loop_next hbody ?_
    cases d with
    | left => simpa [toList] using ihr htr hr
    | right => simpa [toList] using ihl htl hl

/-- The parent of the hole has what is in the hole on the side of the hole only. -/
theorem Stores.from_parent {f : Frame α} (hs : Stores h (plug (f :: k) t)) (hx : t.top = some x) :
    h.parent x = some f.elem ∧ ∀ e, h.child e f.elem = some x ↔ e = f.side := by
  obtain ⟨e, c, y, sib⟩ := f
  obtain ⟨a, b, ht⟩ := exists_branch e hx
  have hparent : h.parent x = some y := by
    rw [ht] at hs
    exact hs.fields.2.1
  have hs' : Stores h (plug k (branch e c t y sib)) := hs
  obtain ⟨-, -, hnear, hfar⟩ := hs'.fields
  obtain ⟨-, -, -, -, hapart⟩ := nodup_branch.1 (nodup_plug.1 hs'.nodup).1
  refine ⟨hparent, fun e' => ?_⟩
  by_cases he : e' = e
  · simp [he, hnear, hx]
  · rw [Side.eq_other he, hfar]
    have hne : sib.top ≠ some x := fun hsib => hapart x (top_mem hx) (top_mem hsib)
    simp [hne]

variable [DecidableEq α]

theorem climb_returns (d : Side) (hs : Stores h (plug k t)) (hx : t.top = some x) :
    Returns (fun fuel => loop (climbBody d h) fuel x) (ahead d k).head? := by
  induction k generalizing t x with
  | nil =>
    obtain ⟨a, b, ht⟩ := exists_branch d hx
    rw [ht] at hs
    have hparent : h.parent x = none := hs.fields.2.1
    exact loop_exit (by cases d <;> simp only [climbBody, hparent] <;> rfl)
  | cons f k ih =>
    obtain ⟨hparent, hchild⟩ := hs.from_parent hx
    obtain ⟨e, c, y, sib⟩ := f
    by_cases he : d = e
    · subst he
      rw [ahead_same]
      exact loop_next (by simp only [climbBody, hparent, hchild, if_true])
        (ih (t := branch d c t y sib) hs (branch_top ..))
    · have hother : e = d.other := Side.eq_other fun hed => he hed.symm
      subst hother
      rw [ahead_other]
      exact loop_exit (by simp [climbBody, hparent, hchild])

/-- The next element in the direction of the walk. -/
theorem rbStep_returns (hs : Stores h t) {l r : List α} (hl : facing d t.toList = l ++ x :: r) :
    Returns (rbStep d h x) r.head? := by
  have hx : x ∈ t.toList := (facing_perm ..).subset (hl ▸ mem_append_right l mem_cons_self)
  obtain ⟨k, s, rfl, htop⟩ := exists_plug hx
  obtain ⟨a, b, hbranch⟩ := exists_branch d htop
  generalize s.color = c at hbranch
  subst hbranch
  have hr : r = facing d a.toList ++ ahead d k := by
    have hsplit := hl.symm
    rw [facing_plug, facing_branch, append_assoc, append_assoc, cons_append, ← append_assoc]
      at hsplit
    exact (eq_of_split (hl ▸ (facing_perm ..).nodup_iff.2 hs.nodup) hsplit).2
  obtain ⟨-, hparent, ha, -⟩ := hs.fields
  have hrep := (rep_branch.1 (holds_plug.1 hs.holds).1).2.2.2.2.1
  rw [hr]
  cases a with
  | node c' a y b =>
    have hstep : rbStep d h x = fun fuel => (loop (endBody d.other h) fuel y).map some := by
      funext fuel
      simp only [rbStep, ha, top]
    obtain ⟨-, -, hleft, hright, hal, har⟩ := hrep
    rw [hstep]
    cases d with
    | left => simpa [toList] using (end_returns (d := .left) har hright).map some
    | right => simpa [toList] using (end_returns (d := .right) hal hleft).map some
  | nil =>
    have hnil : facing d (RbTree.nil : RbTree α).toList = [] := by cases d <;> rfl
    rw [hnil, nil_append]
    by_cases hany : (h.parent x).any fun parent => h.child d.other parent = some x
    · cases k with
      | nil => simp [hparent] at hany
      | cons f k =>
        obtain ⟨hparent, hchild⟩ := hs.from_parent (branch_top ..)
        obtain ⟨e, c', y, sib⟩ := f
        obtain rfl : d.other = e := by simpa [hparent, hchild] using hany
        refine ⟨0, fun fuel _ => ?_⟩
        simp [rbStep, ha, top, hparent, hchild, ahead_other]
    · have hstep : rbStep d h x = fun fuel => loop (climbBody d h) fuel x := by
        funext fuel
        simp only [rbStep, ha, top, if_neg hany]
      exact hstep ▸ climb_returns d hs (branch_top ..)

omit [DecidableEq α] in
theorem minmax_returns {par : Option α} (ht : Rep h par t) (val : Int) (q : Option α) :
    Returns (fun fuel => loop (minmaxBody h val) fuel (t.top, q))
      ((facing (if val < 0 then .right else .left) t.toList).head?.or q) := by
  induction t generalizing par q with
  | nil => exact loop_exit (by split <;> rfl)
  | node c l x r ihl ihr =>
    obtain ⟨-, -, hl, hr, htl, htr⟩ := ht
    have hbody : minmaxBody h val (some x, q) =
        some (.inl (if val < 0 then l.top else r.top, some x)) := by
      simp only [minmaxBody, RbHeap.left, RbHeap.right, hl, hr]
    refine loop_next hbody ?_
    by_cases hval : val < 0
    · simpa [hval, toList, Option.or_assoc] using ihl htl (some x)
    · simpa [hval, toList, Option.or_assoc] using ihr htr (some x)

/-! ## Main results -/

variable {cmp : α → α → Int}

/-- In a tree built by `RB_INSERT` and `RB_REMOVE`, `RB_MIN` and `RB_MAX` give the ends,
    `RB_NEXT` and `RB_PREV` the neighbours of an element. -/
theorem rb_walk_correct (ho : CmpOrder cmp) (hr : RbReachable cmp h) :
    ∃ t, RbValid cmp h t ∧
      Returns (rbMinmax h rbNeginf) t.toList.head? ∧
      Returns (rbMinmax h rbInf) t.toList.getLast? ∧
      ∀ l x r, t.toList = l ++ x :: r →
        Returns (rbNext h x) r.head? ∧ Returns (rbPrev h x) l.getLast? := by
  obtain ⟨t, hv⟩ := hr.valid ho
  have hs := hv.stores ho
  have hmin := minmax_returns hv.holds.1 rbNeginf none
  have hmax := minmax_returns hv.holds.1 rbInf none
  rw [Option.or_none, ← hv.holds.2] at hmin hmax
  refine ⟨t, hv, hmin, ?_, ?_⟩
  · rw [getLast?_eq_head?_reverse]
    exact hmax
  · intro l x r hl
    refine ⟨rbStep_returns hs hl, ?_⟩
    rw [getLast?_eq_head?_reverse]
    exact rbStep_returns (l := r.reverse) hs (by simp [hl])

omit [DecidableEq α] in
/-- A tree of one element. -/
theorem exists_seven : ∃ (cmp : Nat → Nat → Int) (h : RbHeap Nat) (t : RbTree Nat),
    CmpOrder cmp ∧ RbReachable cmp h ∧ Holds h t ∧ t.toList = [7] := by
  have ho := (CmpOrderOn.sub (fun _ _ => True) fun n : Nat => (n : Int)).cmpOrder
  have hnil : RbValid (fun x y : Nat => (x : Int) - y)
      ⟨fun _ _ => none, fun _ => none, fun _ => .black, none⟩ .nil :=
    ⟨⟨trivial, rfl⟩, .nil, rfl, trivial, 0, rfl⟩
  rcases rbInsert_returns ho hnil 7 with ⟨x, hx, -⟩ | ⟨-, h', t', l, r, hret, hv, hl, hl'⟩
  · exact absurd hx not_mem_nil
  · obtain ⟨rfl, rfl⟩ := append_eq_nil_iff.1 hl.symm
    exact ⟨_, h', t', ho, .insert (.init rfl) hret, hv.holds, hl'⟩

theorem rb_walk_correct_seven : ∃ h : RbHeap Nat, Returns (rbMinmax h rbNeginf) (some 7) ∧
    Returns (rbNext h 7) none := by
  obtain ⟨cmp, h, t, ho, hr, hh, hl⟩ := exists_seven
  obtain ⟨t', hv, hmin, -, hnext⟩ := rb_walk_correct ho hr
  obtain rfl := hh.unique hv.holds
  rw [hl] at hmin
  exact ⟨h, hmin, (hnext [] 7 [] hl).1⟩

/-- The body of the loop at `x`, with the elements before and behind it. -/
theorem removeIf_returns (ho : CmpOrder cmp) (p : α → Bool) {l r : List α} (hv : RbValid cmp h t)
    (hl : facing d t.toList = l ++ x :: r) :
    ∃ h' t', Returns (removeIf p h x) h' ∧ RbValid cmp h' t' ∧
      facing d t'.toList = (l ++ [x].filter fun x => ! p x) ++ r := by
  have hx : x ∈ t.toList := (facing_perm ..).subset (hl ▸ mem_append_right l mem_cons_self)
  cases hp : p x with
  | false =>
    refine ⟨h, t, ⟨0, fun fuel _ => ?_⟩, hv, by simp [hp, hl]⟩
    simp [removeIf, hp]
  | true =>
    obtain ⟨h', t', l', r', hret, hv', hlist, hlist'⟩ := rbRemove_returns ho hv hx
    have hremove : removeIf p h x = fun fuel => (rbRemove h x fuel).map (·.2) := by
      funext fuel
      simp [removeIf, hp]
    refine ⟨h', t', hremove ▸ hret.map (·.2), hv', ?_⟩
    have hnodup : (l ++ x :: r).Nodup := hl ▸ (facing_perm ..).nodup_iff.2 (hv.stores ho).nodup
    cases d with
    | left =>
      simp only [facing_left, hlist, hlist', reverse_append, reverse_cons, append_assoc,
        singleton_append] at hl ⊢
      obtain ⟨rfl, rfl⟩ := eq_of_split hnodup hl.symm
      simp [hp]
    | right =>
      simp only [facing_right, hlist, hlist'] at hl ⊢
      obtain ⟨rfl, rfl⟩ := eq_of_split hnodup hl.symm
      simp [hp]

theorem rbForeachSafe_returns (ho : CmpOrder cmp) (p : α → Bool) {r l : List α}
    (hv : RbValid cmp h t) (hl : facing d t.toList = l ++ r) :
    ∃ h' t', Returns (fun fuel => rbForeachSafe d p fuel h r.head?) (h', r) ∧
      RbValid cmp h' t' ∧ facing d t'.toList = l ++ r.filter fun x => ! p x := by
  induction r generalizing l h t with
  | nil =>
    refine ⟨h, t, ⟨1, fun fuel hfuel => ?_⟩, hv, hl⟩
    obtain ⟨m, rfl⟩ := Nat.exists_eq_add_of_le' hfuel
    rfl
  | cons x r ih =>
    obtain ⟨h₁, t₁, hret₁, hv₁, hl₁⟩ := removeIf_returns ho p hv hl
    obtain ⟨h', t', hret', hv', hl'⟩ := ih hv₁ hl₁
    have hnext : Returns (fun fuel => rbForeachSafe d p (fuel + 1) h (some x)) (h', x :: r) :=
      (rbStep_returns (hv.stores ho) hl).bind (hret₁.bind (hret'.bind (.const (h', x :: r))))
    obtain ⟨n, hn⟩ := hnext
    refine ⟨h', t', ⟨n + 1, fun fuel hfuel => ?_⟩, hv', ?_⟩
    · obtain ⟨m, rfl⟩ := Nat.exists_eq_add_of_le' (Nat.le_of_add_left_le hfuel)
      exact hn m (Nat.le_of_add_le_add_right hfuel)
    · rw [hl', append_assoc, ← filter_append]
      rfl

/-- `RB_FOREACH_SAFE` and its reverse visit every element of the tree once and in order, also
    when the body of the loop removes elements it is at; it leaves the others. -/
theorem rb_foreach_correct (ho : CmpOrder cmp) (hr : RbReachable cmp h) :
    ∃ t, RbValid cmp h t ∧ ∀ d p, ∃ h' t',
      Returns (rbForeach d p h) (h', facing d t.toList) ∧ RbValid cmp h' t' ∧
      t'.toList = t.toList.filter fun x => ! p x := by
  obtain ⟨t, hv⟩ := hr.valid ho
  refine ⟨t, hv, fun d p => ?_⟩
  obtain ⟨h', t', hret, hv', hl'⟩ := rbForeachSafe_returns ho p (d := d) (l := []) hv rfl
  have hstart := minmax_returns hv.holds.1 (if d = .right then rbNeginf else rbInf) none
  rw [Option.or_none, ← hv.holds.2] at hstart
  cases d with
  | left =>
    have hrev : t'.toList.reverse = (t.toList.filter fun x => ! p x).reverse := by
      simpa [filter_reverse] using hl'
    exact ⟨h', t', hstart.bind hret, hv', reverse_injective hrev⟩
  | right => exact ⟨h', t', hstart.bind hret, hv', hl'⟩

theorem rb_foreach_correct_seven : ∃ (h h' : RbHeap Nat) (t' : RbTree Nat),
    Returns (rbForeach .right (fun _ => true) h) (h', [7]) ∧ Holds h' t' ∧ t'.toList = [] := by
  obtain ⟨cmp, h, t, ho, hr, hh, hl⟩ := exists_seven
  obtain ⟨t', hv, hwalk⟩ := rb_foreach_correct ho hr
  obtain rfl := hh.unique hv.holds
  obtain ⟨h', t', hret, hv', hl'⟩ := hwalk .right fun _ => true
  rw [hl] at hret hl'
  exact ⟨h, h', t', hret, hv'.holds, hl'⟩

end OpenBsd.Sys
