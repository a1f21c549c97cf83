/-
  OpenBsd.Sys.TreeFind

  `RB_FIND` of `sys/tree.h`, and trees whose comparison is an order on the elements in them,
  though not on all elements.
-/

import OpenBsd.Sys.TreeRemove

namespace OpenBsd.Sys

open OpenBsd.Lib OpenBsd.Lib.RbTree List

variable {α : Type}

/-! ## Comparisons one after the other -/

/-- `if ((diff = d) != 0) return (diff);`, with `e` behind it. -/
def thenCompare (d e : Int) : Int := if d ≠ 0 then d else e

/-- `cmp` is an order among elements that `E` holds together. -/
structure CmpOrderOn (E : α → α → Prop) (cmp : α → α → Int) : Prop where
  swap : ∀ x y, E x y → (0 < cmp x y ↔ cmp y x < 0)
  trans : ∀ x y z, E x y → E y z → cmp x y ≤ 0 → cmp y z ≤ 0 → cmp x z ≤ 0

theorem CmpOrderOn.cmpOrder {cmp : α → α → Int} (h : CmpOrderOn (fun _ _ => True) cmp) :
    CmpOrder cmp :=
  ⟨fun x y => h.swap x y trivial, fun x y z => h.trans x y z trivial trivial⟩

theorem CmpOrderOn.sub (E : α → α → Prop) (key : α → Int) :
    CmpOrderOn E (fun x y => key x - key y) := by
  refine ⟨?_, ?_⟩
  · intro x y _
    omega
  · intro x y z _ _ hxy hyz
    omega

variable {E : α → α → Prop}

theorem CmpOrderOn.congr {cmp cmp' : α → α → Int} (hE : Equivalence E)
    (h : CmpOrderOn E cmp) (hsame : ∀ x y, E x y → cmp' x y = cmp x y) : CmpOrderOn E cmp' := by
  refine ⟨?_, ?_⟩
  · intro x y hxy
    rw [hsame x y hxy, hsame y x (hE.symm hxy)]
    exact h.swap x y hxy
  · intro x y z hxy hyz
    rw [hsame x y hxy, hsame y z hyz, hsame x z (hE.trans hxy hyz)]
    exact h.trans x y z hxy hyz

theorem CmpOrderOn.equivalence {cmp : α → α → Int} (hE : Equivalence E)
    (h : CmpOrderOn E cmp) : Equivalence (fun x y => E x y ∧ cmp x y = 0) := by
  refine ⟨?_, ?_, ?_⟩
  · intro x
    have hswap := h.swap x x (hE.refl x)
    exact ⟨hE.refl x, by omega⟩
  · rintro x y ⟨hxy, hzero⟩
    have h₁ := h.swap x y hxy
    have h₂ := h.swap y x (hE.symm hxy)
    exact ⟨hE.symm hxy, by omega⟩
  · rintro x y z ⟨hxy, hzero⟩ ⟨hyz, hzero'⟩
    have hxz := hE.trans hxy hyz
    have h₁ := h.trans x y z hxy hyz
    have h₂ := h.trans z y x (hE.symm hyz) (hE.symm hxy)
    have h₃ := h.swap x y hxy
    have h₄ := h.swap y z hyz
    have h₅ := h.swap x z hxz
    have h₆ := h.swap y x (hE.symm hxy)
    have h₇ := h.swap z y (hE.symm hyz)
    have h₈ := h.swap z x (hE.symm hxz)
    exact ⟨hxz, by omega⟩

theorem CmpOrderOn.thenCompare {f g : α → α → Int} (hE : Equivalence E)
    (hf : CmpOrderOn E f) (hg : CmpOrderOn (fun x y => E x y ∧ f x y = 0) g) :
    CmpOrderOn E (fun x y => thenCompare (f x y) (g x y)) := by
  have hzero : ∀ {x y}, E x y ∧ f x y = 0 → E y x ∧ f y x = 0 := (hf.equivalence hE).symm
  refine ⟨?_, ?_⟩
  · intro x y hxy
    simp only [Sys.thenCompare]
    by_cases h : f x y = 0
    · have h' := (hzero ⟨hxy, h⟩).2
      rw [if_neg (not_not.mpr h), if_neg (not_not.mpr h')]
      exact hg.swap x y ⟨hxy, h⟩
    · have h' : f y x ≠ 0 := fun h' => h (hzero ⟨hE.symm hxy, h'⟩).2
      rw [if_pos h, if_pos h']
      exact hf.swap x y hxy
  · intro x y z hxy hyz
    have hxz := hE.trans hxy hyz
    simp only [Sys.thenCompare]
    by_cases h : f x y = 0 ∧ f y z = 0
    · have hxz' := (hf.equivalence hE).trans ⟨hxy, h.1⟩ ⟨hyz, h.2⟩
      rw [if_neg (not_not.mpr h.1), if_neg (not_not.mpr h.2), if_neg (not_not.mpr hxz'.2)]
      exact hg.trans x y z ⟨hxy, h.1⟩ ⟨hyz, h.2⟩
    · -- one of the first comparisons is strict, and so is that of `x` and `z`
      have h₁ := hf.trans x y z hxy hyz
      have h₂ := hf.trans z x y (hE.symm hxz) hxy
      have h₃ := hf.trans y z x hyz (hE.symm hxz)
      have h₄ := hf.swap x y hxy
      have h₅ := hf.swap y z hyz
      have h₆ := hf.swap x z hxz
      have h₇ := hf.swap z x (hE.symm hxz)
      have h₈ := hf.swap y x (hE.symm hxy)
      have h₉ := hf.swap z y (hE.symm hyz)
      intro hle hle'
      split at hle <;> split at hle' <;> split <;> omega

theorem thenCompare_eq_zero {d e : Int} : thenCompare d e = 0 ↔ d = 0 ∧ e = 0 := by
  rw [Sys.thenCompare]
  split
  · rename_i hd
    exact ⟨fun h => absurd h hd, fun h => absurd h.1 hd⟩
  · rename_i hd
    exact ⟨fun h => ⟨not_not.mp hd, h⟩, fun h => h.2⟩

/-! ## RB_FIND -/

def findBody (cmp : α → α → Int) (h : RbHeap α) (elm : α) :
    Option α → Option (Option α ⊕ Option α)
  | none => some (.inr none)
  | some tmp =>
    if cmp elm tmp < 0 then some (.inl (h.left tmp))
    else if cmp elm tmp > 0 then some (.inl (h.right tmp))
    else some (.inr (some tmp))

def rbFind (cmp : α → α → Int) (h : RbHeap α) (elm : α) (fuel : Nat) : Option (Option α) :=
  loop (findBody cmp h elm) fuel h.root

variable {cmp cmp' : α → α → Int} {h : RbHeap α} {t : RbTree α} {elm : α}

theorem findBody_agrees (tmp : Option α) (s : Option α × Option α × Int) (hs : s.1 = tmp) :
    OutcomesAgree (fun tmp (s : Option α × Option α × Int) => s.1 = tmp)
      (fun r (q : α ⊕ Option α × Int) =>
        match q with
        | .inl x => r = some x
        | .inr _ => r = none)
      (findBody cmp h elm tmp) (insertSearchBody cmp h elm s) := by
  obtain ⟨tmp', parent, comp⟩ := s
  cases hs
  cases tmp' with
  | none => rfl
  | some x =>
    simp only [findBody, insertSearchBody]
    split
    · rfl
    · split <;> rfl

theorem rbFind_returns (ho : CmpOrder cmp) (hv : RbValid cmp h t) (elm : α) :
    (∃ x ∈ t.toList, cmp elm x = 0 ∧ Returns (rbFind cmp h elm) (some x)) ∨
      (∀ x ∈ t.toList, cmp elm x ≠ 0) ∧ Returns (rbFind cmp h elm) none := by
  have hs := hv.stores ho
  have hroot : h.root = t.top := hs.holds.2
  have hlast : ∀ {q : α ⊕ Option α × Int},
      Returns (fun fuel => loop (insertSearchBody cmp h elm) fuel (t.top, up [], 0)) q →
      ∃ r, Returns (rbFind cmp h elm) r ∧
        match q with
        | .inl x => r = some x
        | .inr _ => r = none := by
    intro q hq
    obtain ⟨n, hn⟩ := hq
    obtain ⟨r, hr, hagree⟩ := loop_simulates findBody_agrees n h.root (t.top, up [], 0)
      hroot.symm (hn n (Nat.le_refl n))
    exact ⟨r, loop_returns hr, hagree⟩
  rcases insertSearch_returns (k := []) ho 0 hs hv.ordered
    ⟨fun y hy => absurd hy not_mem_nil, fun y hy => absurd hy not_mem_nil⟩
    (fun f hf => nomatch hf) with ⟨x, hx, hzero, hret⟩ | ⟨k, comp, hplug, hk, -, hret⟩
  · obtain ⟨r, hr, rfl⟩ := hlast hret
    exact .inl ⟨x, hx, hzero, hr⟩
  · obtain ⟨r, hr, rfl⟩ := hlast hret
    refine .inr ⟨?_, hr⟩
    intro x hx
    have hplug : plug k .nil = t := hplug
    exact hk.ne_zero ho (by rw [hplug]; exact hx)

/-! ## Bounds of the loops -/

theorem rbFind_settles (cmp : α → α → Int) (h : RbHeap α) (elm : α) :
    Settles (rbFind cmp h elm) := Settles.loop _ _

theorem rbInsert_settles [DecidableEq α] (cmp : α → α → Int) (h : RbHeap α) (elm : α) :
    Settles (rbInsert cmp h elm) := by
  refine (Settles.loop _ _).bind ?_
  intro r
  match r with
  | .inl tmp => exact Settles.const _
  | .inr (parent, comp) =>
    exact ((Settles.loop _ _).bind fun h' => Settles.const _).bind fun h' => Settles.const _

theorem rbRemoveOut_settles [DecidableEq α] (h : RbHeap α) (elm : α) :
    Settles (rbRemoveOut h elm) := by
  intro n r hr
  unfold rbRemoveOut at hr ⊢
  match hleft : h.left elm, hright : h.right elm with
  | none, right =>
    simp only [hleft, hright] at hr ⊢
    exact ⟨0, fun _ _ => hr⟩
  | some left, none =>
    simp only [hleft, hright] at hr ⊢
    exact ⟨0, fun _ _ => hr⟩
  | some left, some right =>
    simp only [hleft, hright] at hr ⊢
    refine ((Settles.loop (minBody h) right).bind ?_ : Settles (rbRemoveNext h elm right)) n r hr
    intro x
    refine (Settles.const _).bind ?_
    intro l
    split
    · exact (Settles.loop _ _).bind fun _ => Settles.const _
    · dsimp only
      split
      · exact (Settles.loop _ _).bind fun _ => Settles.const _
      · exact (Settles.const _).bind fun _ => Settles.const _

theorem rbRemove_settles [DecidableEq α] (h : RbHeap α) (elm : α) : Settles (rbRemove h elm) := by
  refine (rbRemoveOut_settles h elm).bind ?_
  rintro ⟨h', color, parent, child⟩
  refine Settles.bind ?_ fun h'' => Settles.const _
  unfold rbRemoveEnd
  split
  · exact (Settles.loop _ _).bind fun r => Settles.const _
  · exact Settles.const _

/-! ## Another comparison on the elements of the tree -/

theorem RbValid.congr (hv : RbValid cmp h t)
    (hsame : ∀ x ∈ t.toList, ∀ y ∈ t.toList, cmp x y = cmp' x y) : RbValid cmp' h t where
  holds := hv.holds
  ordered := by
    refine hv.ordered.imp_of_mem ?_
    intro x y hx hy hlt
    rw [← hsame x hx y hy]
    exact hlt
  rootBlack := hv.rootBlack
  noRedRed := hv.noRedRed
  blackHeight := hv.blackHeight

theorem Rep.child_mem {par : Option α} (ht : Rep h par t) {x y : α} (hx : x ∈ t.toList)
    {d : Side} (hy : h.child d x = some y) : y ∈ t.toList := by
  have htop : ∀ {t' : RbTree α}, t'.top = some y → y ∈ t'.toList := by
    intro t' htop
    cases t' with
    | nil => cases htop
    | node c l z r =>
      cases htop
      simp [toList]
  induction t generalizing par with
  | nil => exact absurd hx not_mem_nil
  | node c l z r ihl ihr =>
    obtain ⟨-, -, hl, hr, htl, htr⟩ := ht
    simp only [toList, mem_append, mem_cons] at hx ⊢
    rcases hx with hx | rfl | hx
    · exact .inl (ihl htl hx)
    · cases d with
      | left => exact .inl (htop (hl.symm.trans hy))
      | right => exact .inr (.inr (htop (hr.symm.trans hy)))
    · exact .inr (.inr (ihr htr hx))

theorem Holds.root_mem (hh : Holds h t) {x : α} (hx : h.root = some x) : x ∈ t.toList := by
  rw [hh.2] at hx
  cases t with
  | nil => cases hx
  | node c l z r =>
    cases hx
    simp [toList]

theorem insertSearch_congr (hh : Holds h t) (hsame : ∀ x ∈ t.toList, cmp elm x = cmp' elm x)
    (fuel : Nat) :
    loop (insertSearchBody cmp h elm) fuel (h.root, none, 0) =
      loop (insertSearchBody cmp' h elm) fuel (h.root, none, 0) := by
  refine loop_congr (I := fun s => ∀ x, s.1 = some x → x ∈ t.toList) ?_ ?_ fuel _
    (fun x hx => hh.root_mem hx)
  · rintro ⟨tmp, parent, comp⟩ hI
    cases tmp with
    | none => rfl
    | some x => simp only [insertSearchBody, hsame x (hI x rfl)]
  · rintro ⟨tmp, parent, comp⟩ s' hI hbody y hy
    cases tmp with
    | none => cases hbody
    | some x =>
      simp only [insertSearchBody] at hbody
      split at hbody
      · cases hbody
        exact hh.1.child_mem (hI x rfl) hy
      · split at hbody
        · cases hbody
          exact hh.1.child_mem (hI x rfl) hy
        · cases hbody

theorem rbInsert_congr [DecidableEq α] (hh : Holds h t)
    (hsame : ∀ x ∈ t.toList, cmp elm x = cmp' elm x) :
    rbInsert cmp h elm = rbInsert cmp' h elm := by
  funext fuel
  simp only [rbInsert, insertSearch_congr hh hsame fuel]

theorem rbFind_congr (hh : Holds h t) (hsame : ∀ x ∈ t.toList, cmp elm x = cmp' elm x) :
    rbFind cmp h elm = rbFind cmp' h elm := by
  funext fuel
  refine loop_congr (I := fun tmp => ∀ x, tmp = some x → x ∈ t.toList) ?_ ?_ fuel _
    (fun x hx => hh.root_mem hx)
  · intro tmp hI
    cases tmp with
    | none => rfl
    | some x => simp only [findBody, hsame x (hI x rfl)]
  · intro tmp s' hI hbody y hy
    cases tmp with
    | none => cases hbody
    | some x =>
      simp only [findBody] at hbody
      split at hbody
      · cases hbody
        exact hh.1.child_mem (hI x rfl) hy
      · split at hbody
        · cases hbody
          exact hh.1.child_mem (hI x rfl) hy
        · cases hbody

/-! ## Trees in an order of their own -/

/-- `cmp` is an order among the elements of a list. -/
def OrderAmong (cmp : α → α → Int) (l : List α) : Prop :=
  ∃ cmp', CmpOrder cmp' ∧ ∀ x ∈ l, ∀ y ∈ l, cmp x y = cmp' x y

theorem OrderAmong.mono {l l' : List α} (h : OrderAmong cmp l) (hsub : l' ⊆ l) :
    OrderAmong cmp l' := by
  obtain ⟨cmp', ho, hsame⟩ := h
  exact ⟨cmp', ho, fun x hx y hy => hsame x (hsub hx) y (hsub hy)⟩

theorem RbValid.nodup (hv : RbValid cmp h t) (ho : OrderAmong cmp t.toList) : t.toList.Nodup := by
  obtain ⟨cmp', ho, hsame⟩ := ho
  refine hv.ordered.imp_of_mem ?_
  rintro x y hx hy hlt rfl
  rw [hsame x hx x hx, ho.self] at hlt
  exact absurd hlt (Int.lt_irrefl 0)

theorem rbFind_among (ho : OrderAmong cmp (elm :: t.toList)) (hv : RbValid cmp h t) :
    (∃ x ∈ t.toList, cmp elm x = 0 ∧ Returns (rbFind cmp h elm) (some x)) ∨
      (∀ x ∈ t.toList, cmp elm x ≠ 0) ∧ Returns (rbFind cmp h elm) none := by
  obtain ⟨cmp', ho, hsame⟩ := ho
  have helm : ∀ x ∈ t.toList, cmp elm x = cmp' elm x := fun x hx =>
    hsame elm mem_cons_self x (mem_cons_of_mem elm hx)
  have hv' : RbValid cmp' h t := hv.congr fun x hx y hy =>
    hsame x (mem_cons_of_mem elm hx) y (mem_cons_of_mem elm hy)
  rw [rbFind_congr hv.holds helm]
  rcases rbFind_returns ho hv' elm with ⟨x, hx, hzero, hret⟩ | ⟨hne, hret⟩
  · exact .inl ⟨x, hx, (helm x hx).trans hzero, hret⟩
  · exact .inr ⟨fun x hx => by rw [helm x hx]; exact hne x hx, hret⟩

theorem rbInsert_among [DecidableEq α] (ho : OrderAmong cmp (elm :: t.toList))
    (hv : RbValid cmp h t) (hne : ∀ x ∈ t.toList, cmp elm x ≠ 0) :
    ∃ h' t' l r, Returns (rbInsert cmp h elm) (none, h') ∧ RbValid cmp h' t' ∧
      t.toList = l ++ r ∧ t'.toList = l ++ elm :: r := by
  obtain ⟨cmp', ho, hsame⟩ := ho
  have helm : ∀ x ∈ t.toList, cmp elm x = cmp' elm x := fun x hx =>
    hsame elm mem_cons_self x (mem_cons_of_mem elm hx)
  have hv' : RbValid cmp' h t := hv.congr fun x hx y hy =>
    hsame x (mem_cons_of_mem elm hx) y (mem_cons_of_mem elm hy)
  rw [rbInsert_congr hv.holds helm]
  rcases rbInsert_returns ho hv' elm with ⟨x, hx, hzero, -⟩ | ⟨-, h', t', l, r, hret, hv'', hl, hl'⟩
  · exact absurd ((helm x hx).trans hzero) (hne x hx)
  · have hmem : ∀ x ∈ t'.toList, x ∈ elm :: t.toList := by
      intro x hx
      rw [hl'] at hx
      rw [hl]
      simp only [mem_append, mem_cons] at hx ⊢
      tauto
    exact ⟨h', t', l, r, hret,
      hv''.congr fun x hx y hy => (hsame x (hmem x hx) y (hmem y hy)).symm, hl, hl'⟩

theorem rbRemove_among [DecidableEq α] (ho : OrderAmong cmp t.toList) (hv : RbValid cmp h t)
    (helm : elm ∈ t.toList) :
    ∃ h' t' l r, Returns (rbRemove h elm) (elm, h') ∧ RbValid cmp h' t' ∧
      t.toList = l ++ elm :: r ∧ t'.toList = l ++ r := by
  obtain ⟨cmp', ho, hsame⟩ := ho
  obtain ⟨h', t', l, r, hret, hv', hl, hl'⟩ := rbRemove_returns ho (hv.congr hsame) helm
  have hmem : ∀ x ∈ t'.toList, x ∈ t.toList := by
    intro x hx
    rw [hl'] at hx
    rw [hl]
    simp only [mem_append, mem_cons] at hx ⊢
    tauto
  exact ⟨h', t', l, r, hret,
    hv'.congr fun x hx y hy => (hsame x (hmem x hx) y (hmem y hy)).symm, hl, hl'⟩

end OpenBsd.Sys
