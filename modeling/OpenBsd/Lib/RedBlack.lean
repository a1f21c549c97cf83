/-
  OpenBsd.Lib.RedBlack

  Red-black trees with a hole.

  A tree is taken apart at one of its nodes into the subtree there and the path
  from the node up to the root (`Path`, the frames from the bottom to the top).
  The two sides of a node are told apart by a `Side`, so that what holds for both
  is said once (`RbTree.branch`).
-/

import Mathlib.Data.List.Nodup
import Mathlib.Data.List.Perm.Basic
import Mathlib.Tactic.Ring

namespace OpenBsd.Lib

open List

variable {d : Side} {c : Color} {n : Nat}

/-! ## Trees -/

inductive Color where
  | black
  | red
  deriving DecidableEq, Repr

inductive Side where
  | left
  | right
  deriving DecidableEq, Repr

def Side.other : Side → Side
  | .left => .right
  | .right => .left

@[simp] theorem Side.other_other (d : Side) : d.other.other = d := by cases d <;> rfl

@[simp] theorem Side.other_ne (d : Side) : d.other ≠ d := by cases d <;> decide

@[simp] theorem Side.ne_other (d : Side) : d ≠ d.other := by cases d <;> decide

theorem Side.eq_other {e : Side} (h : ¬ d = e) : d = e.other := by
  cases d <;> cases e <;> first | rfl | exact absurd rfl h

inductive RbTree (α : Type) where
  | nil
  | node (c : Color) (l : RbTree α) (x : α) (r : RbTree α)
  deriving Repr

variable {α : Type}

namespace RbTree

/-- A node whose subtree on side `d` is `a` and whose other subtree is `b`. -/
def branch (d : Side) (c : Color) (a : RbTree α) (x : α) (b : RbTree α) : RbTree α :=
  match d with
  | .left => .node c a x b
  | .right => .node c b x a

/-- The element at the root. -/
def top : RbTree α → Option α
  | .nil => none
  | .node _ _ x _ => some x

/-- The color of the root; an empty tree counts as black. -/
def color : RbTree α → Color
  | .nil => .black
  | .node c _ _ _ => c

/-- The elements in order. -/
@[simp] def toList : RbTree α → List α
  | .nil => []
  | .node _ l x r => l.toList ++ x :: r.toList

def NoRedRed : RbTree α → Prop
  | .nil => True
  | .node c l _ r =>
    (c = .red → l.color = .black ∧ r.color = .black) ∧ l.NoRedRed ∧ r.NoRedRed

/-- Every path down has `n` black nodes. -/
def BlackHeight : RbTree α → Nat → Prop
  | .nil, n => n = 0
  | .node .red l _ r, n => l.BlackHeight n ∧ r.BlackHeight n
  | .node .black l _ r, n => ∃ m, n = m + 1 ∧ l.BlackHeight m ∧ r.BlackHeight m

@[simp] theorem branch_top (d : Side) (c : Color) (a : RbTree α) (x : α) (b : RbTree α) :
    (branch d c a x b).top = some x := by cases d <;> rfl

@[simp] theorem branch_color (d : Side) (c : Color) (a : RbTree α) (x : α) (b : RbTree α) :
    (branch d c a x b).color = c := by cases d <;> rfl

theorem branch_other (d : Side) (c : Color) (a : RbTree α) (x : α) (b : RbTree α) :
    branch d.other c a x b = branch d c b x a := by cases d <;> rfl

/-- A node seen from the other side. -/
theorem branch_turn (d e : Side) (c : Color) (a : RbTree α) (x : α) (b : RbTree α) :
    ∃ a' b', branch e c a x b = branch d c a' x b' ∧ (a' = a ∧ b' = b ∨ a' = b ∧ b' = a) := by
  by_cases hed : e = d
  · exact ⟨a, b, by rw [hed], .inl ⟨rfl, rfl⟩⟩
  · exact ⟨b, a, by rw [Side.eq_other hed, branch_other], .inr ⟨rfl, rfl⟩⟩

variable {t : RbTree α} {x : α}

/-- A tree that is not empty is a branch on either side. -/
theorem exists_branch (d : Side) (h : t.top = some x) : ∃ a b, t = branch d t.color a x b := by
  cases t with
  | nil => cases h
  | node c l y r =>
    obtain rfl : y = x := Option.some.inj h
    cases d with
    | left => exact ⟨l, r, rfl⟩
    | right => exact ⟨r, l, rfl⟩

theorem toList_branch_perm (d : Side) (c : Color) (a : RbTree α) (x : α) (b : RbTree α) :
    (branch d c a x b).toList.Perm (x :: (a.toList ++ b.toList)) := by
  cases d with
  | left => exact perm_middle
  | right => exact perm_middle.trans (perm_append_comm.cons x)

variable {a b : RbTree α}

theorem mem_branch {y : α} :
    y ∈ (branch d c a x b).toList ↔ y = x ∨ y ∈ a.toList ∨ y ∈ b.toList := by
  rw [(toList_branch_perm d c a x b).mem_iff, mem_cons, mem_append]

theorem nodup_branch :
    (branch d c a x b).toList.Nodup ↔
      x ∉ a.toList ∧ x ∉ b.toList ∧ a.toList.Nodup ∧ b.toList.Nodup ∧
      ∀ y ∈ a.toList, y ∉ b.toList := by
  rw [(toList_branch_perm d c a x b).nodup_iff, nodup_cons, nodup_append, mem_append, not_or]
  constructor
  · rintro ⟨⟨hxa, hxb⟩, ha, hb, hab⟩
    exact ⟨hxa, hxb, ha, hb, fun y hya hyb => hab y hya y hyb rfl⟩
  · rintro ⟨hxa, hxb, ha, hb, hab⟩
    refine ⟨⟨hxa, hxb⟩, ha, hb, ?_⟩
    rintro y hya z hzb rfl
    exact hab y hya hzb

theorem top_mem (h : t.top = some x) : x ∈ t.toList := by
  cases t with
  | nil => cases h
  | node c l y r =>
    obtain rfl : y = x := Option.some.inj h
    simp [toList]

theorem top_eq_none : t.top = none ↔ t = .nil := by
  cases t <;> simp [top]

/-- A rotation keeps the order of the elements. -/
theorem toList_rotate (d : Side) (c c' e e' : Color) (a b f : RbTree α) (x y : α) :
    (branch d c' (branch d c a x b) y f).toList =
      (branch d e a x (branch d e' b y f)).toList := by
  cases d <;> simp [branch, toList]

/-- Colors do not matter for the order of the elements. -/
theorem toList_recolor (d : Side) (c c' : Color) (a b : RbTree α) (x : α) :
    (branch d c a x b).toList = (branch d c' a x b).toList := by cases d <;> rfl

theorem toList_branch_congr (d : Side) (c : Color) {a a' b b' : RbTree α} (x : α)
    (ha : a.toList = a'.toList) (hb : b.toList = b'.toList) :
    (branch d c a x b).toList = (branch d c a' x b').toList := by
  cases d <;> simp [branch, toList, ha, hb]

/-! ## Balance -/

/-- A tree with this color at the root and this black height, and no red node with a
    red child. -/
inductive Balanced : RbTree α → Color → Nat → Prop where
  | nil : Balanced .nil .black 0
  | red {l r : RbTree α} {x : α} {n : Nat} :
      Balanced l .black n → Balanced r .black n → Balanced (.node .red l x r) .red n
  | black {l r : RbTree α} {x : α} {c c' : Color} {n : Nat} :
      Balanced l c n → Balanced r c' n → Balanced (.node .black l x r) .black (n + 1)

theorem Balanced.color_eq (h : t.Balanced c n) : t.color = c := by
  cases h <;> rfl

theorem Balanced.self (h : t.Balanced c n) : t.Balanced t.color n := by
  rw [h.color_eq]
  exact h

theorem balanced_branch_red :
    (branch d .red a x b).Balanced .red n ↔ a.Balanced .black n ∧ b.Balanced .black n := by
  constructor
  · intro h
    cases d with
    | left =>
      cases h with
      | red ha hb => exact ⟨ha, hb⟩
    | right =>
      cases h with
      | red hb ha => exact ⟨ha, hb⟩
  · rintro ⟨ha, hb⟩
    cases d with
    | left => exact .red ha hb
    | right => exact .red hb ha

theorem balanced_branch_black :
    (branch d .black a x b).Balanced .black (n + 1) ↔
      a.Balanced a.color n ∧ b.Balanced b.color n := by
  constructor
  · intro h
    cases d with
    | left =>
      cases h with
      | black ha hb => exact ⟨ha.self, hb.self⟩
    | right =>
      cases h with
      | black hb ha => exact ⟨ha.self, hb.self⟩
  · rintro ⟨ha, hb⟩
    cases d with
    | left => exact .black ha hb
    | right => exact .black hb ha

/-- The black height of a node with this color over subtrees of black height `n`. -/
def heightAbove (c : Color) (n : Nat) : Nat :=
  match c with
  | .red => n
  | .black => n + 1

theorem balanced_branch (ha : a.Balanced .black n) (hb : b.Balanced .black n)
    (c : Color) (x : α) : (branch d c a x b).Balanced c (heightAbove c n) := by
  cases c with
  | red => exact balanced_branch_red.2 ⟨ha, hb⟩
  | black => exact balanced_branch_black.2 ⟨ha.self, hb.self⟩

/-- A black tree of positive height has a root. -/
theorem Balanced.exists_black (h : t.Balanced .black (n + 1)) (d : Side) :
    ∃ a x b, t = branch d .black a x b ∧ a.Balanced a.color n ∧ b.Balanced b.color n := by
  cases t with
  | nil => nomatch h
  | node c l x r =>
    obtain ⟨a, b, ht⟩ := exists_branch (t := .node c l x r) d rfl
    rw [h.color_eq] at ht
    rw [ht] at h ⊢
    exact ⟨a, x, b, rfl, balanced_branch_black.1 h⟩

theorem Balanced.exists_top (h : t.Balanced c (n + 1)) : ∃ x, t.top = some x := by
  cases t with
  | nil => nomatch h
  | node c l x r => exact ⟨x, rfl⟩

/-- A red tree has a root over two black subtrees. -/
theorem Balanced.exists_red (h : t.Balanced .red n) (d : Side) :
    ∃ a x b, t = branch d .red a x b ∧ a.Balanced .black n ∧ b.Balanced .black n := by
  cases t with
  | nil => nomatch h
  | node c l x r =>
    obtain ⟨a, b, ht⟩ := exists_branch (t := .node c l x r) d rfl
    rw [h.color_eq] at ht
    rw [ht] at h ⊢
    exact ⟨a, x, b, rfl, balanced_branch_red.1 h⟩

theorem Balanced.height_pos (h : (branch d .black a x b).Balanced .black n) : ∃ m, n = m + 1 := by
  cases d with
  | left =>
    cases h with
    | black => exact ⟨_, rfl⟩
  | right =>
    cases h with
    | black => exact ⟨_, rfl⟩

theorem balanced_iff : t.Balanced c n ↔ t.color = c ∧ t.NoRedRed ∧ t.BlackHeight n := by
  induction t generalizing c n with
  | nil =>
    constructor
    · intro h
      cases h
      exact ⟨rfl, trivial, rfl⟩
    · rintro ⟨rfl, -, rfl⟩
      exact .nil
  | node c' l x r ihl ihr =>
    cases c' with
    | red =>
      constructor
      · intro h
        cases h with
        | red hl hr =>
          obtain ⟨hcl, hnl, hbl⟩ := ihl.1 hl
          obtain ⟨hcr, hnr, hbr⟩ := ihr.1 hr
          exact ⟨rfl, ⟨fun _ => ⟨hcl, hcr⟩, hnl, hnr⟩, hbl, hbr⟩
      · rintro ⟨rfl, ⟨hc, hnl, hnr⟩, hbl, hbr⟩
        obtain ⟨hcl, hcr⟩ := hc rfl
        exact .red (ihl.2 ⟨hcl, hnl, hbl⟩) (ihr.2 ⟨hcr, hnr, hbr⟩)
    | black =>
      constructor
      · intro h
        cases h with
        | black hl hr =>
          obtain ⟨-, hnl, hbl⟩ := ihl.1 hl
          obtain ⟨-, hnr, hbr⟩ := ihr.1 hr
          exact ⟨rfl, ⟨(fun e => nomatch e), hnl, hnr⟩, _, rfl, hbl, hbr⟩
      · rintro ⟨rfl, ⟨-, hnl, hnr⟩, m, rfl, hbl, hbr⟩
        exact .black (ihl.2 ⟨rfl, hnl, hbl⟩) (ihr.2 ⟨rfl, hnr, hbr⟩)

end RbTree

/-! ## Paths -/

/-- A node on the way up: the side we come from, and the rest of the node. -/
structure Frame (α : Type) where
  side : Side
  color : Color
  elem : α
  sib : RbTree α

open RbTree

/-- The tree with `t` at the bottom of the path. -/
@[simp] def plug : List (Frame α) → RbTree α → RbTree α
  | [], t => t
  | f :: k, t => plug k (branch f.side f.color t f.elem f.sib)

/-- The parent of the hole. -/
def up (k : List (Frame α)) : Option α := k.head?.map (·.elem)

/-- The elements of a path, in no order. -/
@[simp] def elems : List (Frame α) → List α
  | [] => []
  | f :: k => f.elem :: (f.sib.toList ++ elems k)

/-- The elements before the hole. -/
def before : List (Frame α) → List α
  | [] => []
  | f :: k => before k ++ match f.side with
    | .left => []
    | .right => f.sib.toList ++ [f.elem]

/-- The elements behind the hole. -/
def behind : List (Frame α) → List α
  | [] => []
  | f :: k => (match f.side with
    | .left => f.elem :: f.sib.toList
    | .right => []) ++ behind k

@[simp] theorem up_nil : up ([] : List (Frame α)) = none := rfl

@[simp] theorem up_cons (f : Frame α) (k : List (Frame α)) : up (f :: k) = some f.elem := rfl

theorem plug_append (k k' : List (Frame α)) (t : RbTree α) :
    plug (k ++ k') t = plug k' (plug k t) := by
  induction k generalizing t with
  | nil => rfl
  | cons f k ih => simp only [cons_append, plug, ih]

theorem toList_plug (k : List (Frame α)) (t : RbTree α) :
    (plug k t).toList = before k ++ t.toList ++ behind k := by
  induction k generalizing t with
  | nil => simp [plug, before, behind]
  | cons f k ih =>
    obtain ⟨d, c, x, sib⟩ := f
    rw [plug, ih]
    cases d <;> simp [branch, toList, before, behind]

theorem elems_append (k k' : List (Frame α)) : elems (k ++ k') = elems k ++ elems k' := by
  induction k with
  | nil => rfl
  | cons f k ih => simp [elems, ih]

theorem before_append (k k' : List (Frame α)) : before (k ++ k') = before k' ++ before k := by
  induction k with
  | nil => simp [before]
  | cons f k ih => simp [before, ih]

theorem toList_plug_congr (k : List (Frame α)) {t t' : RbTree α} (h : t.toList = t'.toList) :
    (plug k t).toList = (plug k t').toList := by
  rw [toList_plug, toList_plug, h]

theorem toList_plug_perm (k : List (Frame α)) (t : RbTree α) :
    (plug k t).toList.Perm (t.toList ++ elems k) := by
  induction k generalizing t with
  | nil => simp [plug, elems]
  | cons f k ih =>
    refine (ih _).trans ?_
    refine ((toList_branch_perm _ _ _ _ _).append_right (elems k)).trans ?_
    rw [elems, cons_append, append_assoc]
    exact perm_middle.symm

variable {k : List (Frame α)} {t : RbTree α} {x : α}

theorem mem_plug : x ∈ (plug k t).toList ↔ x ∈ t.toList ∨ x ∈ elems k := by
  rw [(toList_plug_perm k t).mem_iff, mem_append]

theorem nodup_plug :
    (plug k t).toList.Nodup ↔
      t.toList.Nodup ∧ (elems k).Nodup ∧ ∀ x ∈ t.toList, x ∉ elems k := by
  rw [(toList_plug_perm k t).nodup_iff, nodup_append]
  constructor
  · rintro ⟨ht, hk, htk⟩
    exact ⟨ht, hk, fun x hx hx' => htk x hx x hx' rfl⟩
  · rintro ⟨ht, hk, htk⟩
    refine ⟨ht, hk, ?_⟩
    rintro x hx y hy rfl
    exact htk x hx hy

theorem nodup_elems_cons {f : Frame α} :
    (elems (f :: k)).Nodup ↔ f.elem ∉ f.sib.toList ∧ f.elem ∉ elems k ∧ f.sib.toList.Nodup ∧
      (elems k).Nodup ∧ ∀ x ∈ f.sib.toList, x ∉ elems k := by
  rw [elems, nodup_cons, nodup_append, mem_append, not_or]
  constructor
  · rintro ⟨⟨h1, h2⟩, h3, h4, h5⟩
    exact ⟨h1, h2, h3, h4, fun x hx hx' => h5 x hx x hx' rfl⟩
  · rintro ⟨h1, h2, h3, h4, h5⟩
    refine ⟨⟨h1, h2⟩, h3, h4, ?_⟩
    rintro x hx y hy rfl
    exact h5 x hx hy

theorem up_mem (h : up k = some x) : x ∈ elems k := by
  cases k with
  | nil => cases h
  | cons f k =>
    obtain rfl : f.elem = x := Option.some.inj h
    exact mem_cons_self

/-- A tree with something in the hole is not empty. -/
theorem exists_top (h : t.top = some x) (k : List (Frame α)) : ∃ y, (plug k t).top = some y := by
  induction k generalizing t x with
  | nil => exact ⟨x, h⟩
  | cons f k ih => exact ih (branch_top _ _ _ _ _)

/-- The root is in the hole or on the path. -/
theorem top_plug {y : α} (h : (plug k t).top = some y) : k = [] ∨ y ∈ elems k := by
  induction k generalizing t with
  | nil => exact .inl rfl
  | cons f k ih =>
    refine .inr ?_
    rcases ih h with rfl | hy
    · obtain rfl : f.elem = y := Option.some.inj ((branch_top _ _ _ _ _).symm.trans h)
      exact mem_cons_self
    · exact mem_cons_of_mem _ (mem_append_right _ hy)

/-- Every element is the root of a subtree. -/
theorem exists_plug (h : x ∈ t.toList) : ∃ k s, t = plug k s ∧ s.top = some x := by
  induction t with
  | nil => exact absurd h not_mem_nil
  | node c l y r ihl ihr =>
    simp only [toList, mem_append, mem_cons] at h
    rcases h with h | rfl | h
    · obtain ⟨k, s, hl, hs⟩ := ihl h
      exact ⟨k ++ [⟨.left, c, y, r⟩], s, by rw [plug_append, ← hl]; rfl, hs⟩
    · exact ⟨[], .node c l x r, rfl, rfl⟩
    · obtain ⟨k, s, hr, hs⟩ := ihr h
      exact ⟨k ++ [⟨.right, c, y, l⟩], s, by rw [plug_append, ← hr]; rfl, hs⟩

/-! ## Paths that fit -/

/-- A balanced tree with this color and black height in the hole makes a balanced
    tree with a black root. -/
inductive Fits : List (Frame α) → Color → Nat → Prop where
  | nil {n : Nat} : Fits [] .black n
  | red {k : List (Frame α)} {d : Side} {x : α} {sib : RbTree α} {n : Nat} :
      sib.Balanced .black n → Fits k .red n → Fits (⟨d, .red, x, sib⟩ :: k) .black n
  | black {k : List (Frame α)} {d : Side} {x : α} {sib : RbTree α} {c : Color} {n : Nat} (c' : Color) :
      sib.Balanced c n → Fits k .black (n + 1) → Fits (⟨d, .black, x, sib⟩ :: k) c' n

theorem Fits.plug (h : Fits k c n) {t : RbTree α} (ht : t.Balanced c n) :
    ∃ m, (plug k t).Balanced .black m := by
  induction h generalizing t with
  | nil => exact ⟨_, ht⟩
  | red hsib _ ih => exact ih (balanced_branch_red.2 ⟨ht, hsib⟩)
  | black c' hsib _ ih =>
    exact ih (balanced_branch_black.2 ⟨ht.self, hsib.self⟩)

/-- Where a red tree fits, a black one does. -/
theorem Fits.to_black (h : Fits k c n) : Fits k .black n := by
  cases h with
  | nil => exact .nil
  | red hsib hk => exact .red hsib hk
  | black c' hsib hk => exact .black _ hsib hk

theorem Fits.cons_black {sib : RbTree α} (h : Fits (⟨d, c, x, sib⟩ :: k) .black n) :
    sib.Balanced sib.color n ∧ (c = .red → sib.color = .black) ∧ Fits k c (heightAbove c n) := by
  cases h with
  | red hsib hk => exact ⟨hsib.self, fun _ => hsib.color_eq, hk⟩
  | black c' hsib hk => exact ⟨hsib.self, (fun e => nomatch e), hk⟩

/-- The elements of a path do not matter. -/
theorem Fits.rename {k' : List (Frame α)} {c' : Color} {sib : RbTree α}
    (h : Fits (k ++ ⟨d, c, x, sib⟩ :: k') c' n) (y : α) :
    Fits (k ++ ⟨d, c, y, sib⟩ :: k') c' n := by
  induction k generalizing c' n with
  | nil =>
    cases h with
    | red hsib hk => exact .red hsib hk
    | black _ hsib hk => exact .black _ hsib hk
  | cons f k ih =>
    cases h with
    | red hsib hk => exact .red hsib (ih hk)
    | black _ hsib hk => exact .black _ hsib (ih hk)

theorem exists_fits {m : Nat}
    (h : (OpenBsd.Lib.plug k t).Balanced .black m) : ∃ c n, Fits k c n ∧ t.Balanced c n := by
  induction k generalizing t with
  | nil => exact ⟨.black, m, .nil, h⟩
  | cons f k ih =>
    obtain ⟨d, c, x, sib⟩ := f
    obtain ⟨c', n, hk, ht⟩ := ih h
    have hc : c = c' := by
      have hcol := ht.color_eq
      rwa [branch_color] at hcol
    subst hc
    cases c with
    | red =>
      obtain ⟨hl, hsib⟩ := balanced_branch_red.1 ht
      exact ⟨.black, n, .red hsib hk, hl⟩
    | black =>
      obtain ⟨n, rfl⟩ := ht.height_pos
      obtain ⟨hl, hsib⟩ := balanced_branch_black.1 ht
      exact ⟨t.color, n, .black _ hsib hk, hl⟩

end OpenBsd.Lib
