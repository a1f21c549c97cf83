/-
  OpenBsd.Sys.Tree

  The red-black trees of `sys/tree.h`, as the `RB_` macros write them: links,
  parent pointers and colors in a memory of elements.

  The two halves of `RB_INSERT_COLOR` and of `RB_REMOVE_COLOR` and the two
  rotations are mirror images; each pair is one definition with the side as an
  argument.  A pointer is an `Option`; reading a field of `NULL` gives no result.
  `RB_AUGMENT` is the empty default of the header.
-/

import OpenBsd.Lib.RedBlack
import OpenBsd.Lib.Loop

namespace OpenBsd.Sys

open OpenBsd.Lib

/-! ## Fields -/

/-- The `RB_ENTRY` of every element and the `rbh_root` of the head. -/
structure RbHeap (α : Type) where
  child : Side → α → Option α
  parent : α → Option α
  color : α → Color
  root : Option α

variable {α : Type}

def RbHeap.left (h : RbHeap α) (x : α) : Option α := h.child .left x

def RbHeap.right (h : RbHeap α) (x : α) : Option α := h.child .right x

variable [DecidableEq α]

def RbHeap.setChild (h : RbHeap α) (d : Side) (x : α) (p : Option α) : RbHeap α :=
  { h with child := fun e y => if e = d ∧ y = x then p else h.child e y }

def RbHeap.setParent (h : RbHeap α) (x : α) (p : Option α) : RbHeap α :=
  { h with parent := fun y => if y = x then p else h.parent y }

def RbHeap.setColor (h : RbHeap α) (x : α) (c : Color) : RbHeap α :=
  { h with color := fun y => if y = x then c else h.color y }

def RbHeap.setRoot (h : RbHeap α) (p : Option α) : RbHeap α := { h with root := p }

/-- `if (x) RB_PARENT(x) = p`. -/
def RbHeap.setParentOf (h : RbHeap α) (x : Option α) (p : Option α) : RbHeap α :=
  match x with
  | none => h
  | some x => h.setParent x p

/-- `if (x) RB_COLOR(x) = c`. -/
def RbHeap.setColorOf (h : RbHeap α) (x : Option α) (c : Color) : RbHeap α :=
  match x with
  | none => h
  | some x => h.setColor x c

/-- `x == NULL || RB_COLOR(x) == RB_BLACK`. -/
def RbHeap.isBlack (h : RbHeap α) (x : Option α) : Bool :=
  match x with
  | none => true
  | some x => h.color x = .black

def RbHeap.set (h : RbHeap α) (elm : α) (parent : Option α) : RbHeap α :=
  let h := h.setParent elm parent
  let h := h.setChild .right elm none
  let h := h.setChild .left elm none
  h.setColor elm .red

def RbHeap.setBlackred (h : RbHeap α) (black red : α) : RbHeap α :=
  (h.setColor black .black).setColor red .red

/-- The link that leads from `parent`, or from the head, to `elm` is turned to
    `new`. -/
def RbHeap.relink (h : RbHeap α) (parent : Option α) (elm : α) (new : Option α) : RbHeap α :=
  match parent with
  | none => h.setRoot new
  | some p => if h.left p = some elm then h.setChild .left p new else h.setChild .right p new

/-- `RB_ROTATE_LEFT` for the side `left` and `RB_ROTATE_RIGHT` for the side `right`. -/
def rbRotate (d : Side) (h : RbHeap α) (elm : α) : Option (RbHeap α) := do
  let tmp ← h.child d.other elm
  let inner := h.child d tmp
  let h := h.setChild d.other elm inner
  let h := h.setParentOf inner (some elm)
  let h := h.setParent tmp (h.parent elm)
  let h := h.relink (h.parent elm) elm (some tmp)
  let h := h.setChild d tmp (some elm)
  return h.setParent elm (some tmp)

/-! ## Insertion -/

/-- One iteration of the loop of `RB_INSERT_COLOR`, for a parent on side `d` of the
    grandparent. -/
def insertColorSide (d : Side) (h : RbHeap α) (elm parent gparent : α) :
    Option (RbHeap α × α) := do
  let tmp := h.child d.other gparent
  if h.isBlack tmp = false then
    let h := h.setColorOf tmp .black
    let h := h.setBlackred parent gparent
    return (h, gparent)
  else
    let (h, parent, elm) ←
      if h.child d.other parent = some elm then do
        let h ← rbRotate d h parent
        pure (h, elm, parent)
      else pure (h, parent, elm)
    let h := h.setBlackred parent gparent
    let h ← rbRotate d.other h gparent
    return (h, elm)

def insertColorBody : RbHeap α × α → Option ((RbHeap α × α) ⊕ RbHeap α)
  | (h, elm) =>
    match h.parent elm with
    | none => some (.inr h)
    | some parent =>
      if h.color parent = .red then do
        let gparent ← h.parent parent
        let s ←
          if h.left gparent = some parent then insertColorSide .left h elm parent gparent
          else insertColorSide .right h elm parent gparent
        return .inl s
      else some (.inr h)

def rbInsertColor (h : RbHeap α) (elm : α) (fuel : Nat) : Option (RbHeap α) := do
  let h ← loop insertColorBody fuel (h, elm)
  let root ← h.root
  return h.setColor root .black

/-- The body of the search loop of `RB_INSERT`, on `tmp`, `parent` and `comp`: it
    leaves the loop with the element found, or with the place for the new one. -/
def insertSearchBody (cmp : α → α → Int) (h : RbHeap α) (elm : α) :
    Option α × Option α × Int → Option ((Option α × Option α × Int) ⊕ (α ⊕ Option α × Int))
  | (none, parent, comp) => some (.inr (.inr (parent, comp)))
  | (some tmp, _, _) =>
    let comp := cmp elm tmp
    if comp < 0 then some (.inl (h.left tmp, some tmp, comp))
    else if comp > 0 then some (.inl (h.right tmp, some tmp, comp))
    else some (.inr (.inl tmp))

/-- `RB_INSERT` links the new element to its parent or to the head. -/
def insertLink (h : RbHeap α) (elm : α) (parent : Option α) (comp : Int) : RbHeap α :=
  let h := h.set elm parent
  match parent with
  | some p => if comp < 0 then h.setChild .left p (some elm) else h.setChild .right p (some elm)
  | none => h.setRoot (some elm)

def rbInsert (cmp : α → α → Int) (h : RbHeap α) (elm : α) (fuel : Nat) :
    Option (Option α × RbHeap α) := do
  match ← loop (insertSearchBody cmp h elm) fuel (h.root, none, 0) with
  | .inl tmp => return (some tmp, h)
  | .inr (parent, comp) =>
    let h ← rbInsertColor (insertLink h elm parent comp) elm fuel
    return (none, h)

/-! ## Removal -/

/-- In `RB_REMOVE_COLOR` for an element on side `d` of the parent: a red sibling is
    rotated over the parent, and a black one takes its place. -/
def siblingBlack (d : Side) (h : RbHeap α) (parent tmp : α) : Option (RbHeap α × α) :=
  if h.color tmp = .red then do
    let h := h.setBlackred tmp parent
    let h ← rbRotate d h parent
    let tmp ← h.child d.other parent
    return (h, tmp)
  else some (h, tmp)

/-- A sibling whose outer child is black is rotated under its inner child. -/
def outerRed (d : Side) (h : RbHeap α) (parent tmp : α) : Option (RbHeap α × α) :=
  if h.isBlack (h.child d.other tmp) = true then do
    let h := h.setColorOf (h.child d tmp) .black
    let h := h.setColor tmp .red
    let h ← rbRotate d.other h tmp
    let tmp ← h.child d.other parent
    return (h, tmp)
  else some (h, tmp)

/-- One iteration of the loop of `RB_REMOVE_COLOR`, for an element on side `d` of the
    parent: the loop goes on at another place, or it ends. -/
def removeColorSide (d : Side) (h : RbHeap α) (parent : α) :
    Option ((RbHeap α × Option α × Option α) ⊕ RbHeap α × Option α) := do
  let tmp ← h.child d.other parent
  let (h, tmp) ← siblingBlack d h parent tmp
  if h.isBlack (h.left tmp) = true ∧ h.isBlack (h.right tmp) = true then
    let h := h.setColor tmp .red
    return .inl (h, h.parent parent, some parent)
  else
    let (h, tmp) ← outerRed d h parent tmp
    let h := h.setColor tmp (h.color parent)
    let h := h.setColor parent .black
    let h := h.setColorOf (h.child d.other tmp) .black
    let h ← rbRotate d h parent
    return .inr (h, h.root)

/-- The body of the loop of `RB_REMOVE_COLOR`, on `parent` and `elm`. -/
def removeColorBody : RbHeap α × Option α × Option α →
    Option ((RbHeap α × Option α × Option α) ⊕ RbHeap α × Option α)
  | (h, parent, elm) =>
    if h.isBlack elm = true ∧ elm ≠ h.root then do
      let parent ← parent
      if h.left parent = elm then removeColorSide .left h parent
      else removeColorSide .right h parent
    else some (.inr (h, elm))

def rbRemoveColor (h : RbHeap α) (parent elm : Option α) (fuel : Nat) : Option (RbHeap α) := do
  let (h, elm) ← loop removeColorBody fuel (h, parent, elm)
  return h.setColorOf elm .black

/-- `while ((left = RB_LEFT(elm, field))) elm = left`. -/
def minBody (h : RbHeap α) (elm : α) : Option (α ⊕ α) :=
  match h.left elm with
  | some left => some (.inl left)
  | none => some (.inr elm)

/-- `(elm)->field = (old)->field`. -/
def RbHeap.copyField (h : RbHeap α) (elm old : α) : RbHeap α :=
  { h with
    child := fun d y => if y = elm then h.child d old else h.child d y
    parent := fun y => if y = elm then h.parent old else h.parent y
    color := fun y => if y = elm then h.color old else h.color y }

/-- The `do` loop up to the root, which calls `RB_AUGMENT` on the way. -/
def augmentBody (h : RbHeap α) (left : α) : Option (α ⊕ Unit) :=
  match h.parent left with
  | some left => some (.inl left)
  | none => some (.inr ())

/-- `RB_REMOVE` of an element with two children: the next element takes its place.
    Gives the values of `color`, `parent` and `child` at the label `color`. -/
def rbRemoveNext (h : RbHeap α) (old right : α) (fuel : Nat) :
    Option (RbHeap α × Color × Option α × Option α) := do
  let elm ← loop (minBody h) fuel right
  let child := h.right elm
  let parent := h.parent elm
  let color := h.color elm
  let h := h.setParentOf child parent
  let h := h.relink parent elm child
  let parent := if h.parent elm = some old then some elm else parent
  let h := h.copyField elm old
  let h := h.relink (h.parent old) old (some elm)
  let left ← h.left old
  let h := h.setParent left (some elm)
  let h := h.setParentOf (h.right old) (some elm)
  match parent with
  | some p => loop (augmentBody h) fuel p
  | none => some ()
  return (h, color, parent, child)

/-- `RB_REMOVE` of an element with at most one child. -/
def rbRemoveOne (h : RbHeap α) (elm : α) (child : Option α) :
    RbHeap α × Color × Option α × Option α :=
  let parent := h.parent elm
  let color := h.color elm
  let h := h.setParentOf child parent
  let h := h.relink parent elm child
  (h, color, parent, child)

/-- `RB_REMOVE` up to the label `color`. -/
def rbRemoveOut (h : RbHeap α) (elm : α) (fuel : Nat) :
    Option (RbHeap α × Color × Option α × Option α) :=
  match h.left elm, h.right elm with
  | none, right => some (rbRemoveOne h elm right)
  | some left, none => some (rbRemoveOne h elm (some left))
  | some _, some right => rbRemoveNext h elm right fuel

/-- `RB_REMOVE` from the label `color` on. -/
def rbRemoveEnd (h : RbHeap α) (color : Color) (parent child : Option α) (fuel : Nat) :
    Option (RbHeap α) :=
  if color = .black then rbRemoveColor h parent child fuel else some h

def rbRemove (h : RbHeap α) (elm : α) (fuel : Nat) : Option (α × RbHeap α) := do
  let (h, color, parent, child) ← rbRemoveOut h elm fuel
  let h ← rbRemoveEnd h color parent child fuel
  return (elm, h)

end OpenBsd.Sys
