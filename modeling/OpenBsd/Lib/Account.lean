/-
  OpenBsd.Lib.Account

  Accounts that count the things each owner has: `tally` is the count itself, and an
  operation `Keeps` the accounts when it changes them by as much as it changes the
  count.  Several lists may share the accounts.
-/

import Mathlib.Algebra.BigOperators.Group.Finset.Piecewise
import Mathlib.Tactic.Ring

namespace OpenBsd.Lib

section

variable {α κ : Type*} [DecidableEq κ] (owner : α → κ)

/-! ## Counts -/

/-- The number of things in the list that belong to `k`. -/
def tally (k : κ) (l : List α) : Int := (l.countP fun x => owner x = k : Nat)

/-- What one thing of owner `j` adds to the count of `k`. -/
def share (k j : κ) : Int := if j = k then 1 else 0

variable {owner} {k : κ}

@[simp] theorem tally_nil : tally owner k [] = 0 := rfl

@[simp] theorem tally_cons (x : α) (l : List α) :
    tally owner k (x :: l) = tally owner k l + share k (owner x) := by
  simp only [tally, share, List.countP_cons, decide_eq_true_eq]
  split
  · rfl
  · rw [Nat.add_zero, Int.add_zero]

@[simp] theorem tally_append (l l' : List α) :
    tally owner k (l ++ l') = tally owner k l + tally owner k l' := by
  rw [tally, List.countP_append, Int.natCast_add]
  rfl

theorem tally_perm {l l' : List α} (h : l.Perm l') : tally owner k l = tally owner k l' :=
  congrArg Int.ofNat (h.countP_eq _)

@[simp] theorem tally_reverse (l : List α) : tally owner k l.reverse = tally owner k l :=
  tally_perm l.reverse_perm

theorem tally_nonneg (l : List α) : 0 ≤ tally owner k l := Int.natCast_nonneg _

/-- Taking the thing at an index out of the list. -/
theorem tally_eraseIdx {l : List α} {i : Nat} {x : α} (h : l[i]? = some x) :
    tally owner k (l.eraseIdx i) = tally owner k l - share k (owner x) := by
  obtain ⟨hi, rfl⟩ := List.getElem?_eq_some_iff.1 h
  have hperm : tally owner k (l[i] :: l.eraseIdx i) = tally owner k l :=
    tally_perm (List.getElem_cons_eraseIdx_perm hi)
  rw [tally_cons] at hperm
  omega

/-! ## Accounts -/

variable (owner) in
/-- From the things of `l` to those of `l'` every account changes by as much as the
    count. -/
def Keeps (acct : κ → Int) (l : List α) (acct' : κ → Int) (l' : List α) : Prop :=
  ∀ k, acct' k - tally owner k l' = acct k - tally owner k l

theorem Keeps.refl (acct : κ → Int) (l : List α) : Keeps owner acct l acct l := fun _ => rfl

theorem Keeps.trans {acct acct' acct'' : κ → Int} {l l' l'' : List α}
    (h : Keeps owner acct l acct' l') (h' : Keeps owner acct' l' acct'' l'') :
    Keeps owner acct l acct'' l'' :=
  fun k => (h' k).trans (h k)

end

/-! ## Shared accounts -/

section

variable {α κ ι : Type*} [DecidableEq κ] [DecidableEq ι] [Fintype ι] {owner : α → κ}

/-- Changing one list changes the sum of the counts by as much as its own count. -/
theorem sum_tally_update (lists : ι → List α) (i : ι) (l : List α) (k : κ) :
    ∑ j, tally owner k (Function.update lists i l j)
      = (∑ j, tally owner k (lists j)) - tally owner k (lists i) + tally owner k l := by
  have hupdate : ∀ j, tally owner k (Function.update lists i l j)
      = Function.update (fun j => tally owner k (lists j)) i (tally owner k l) j := by
    intro j
    exact Function.apply_update (fun _ => tally owner k) lists i l j
  simp only [hupdate]
  rw [Finset.sum_update_of_mem (Finset.mem_univ i),
    ← Finset.add_sum_erase _ _ (Finset.mem_univ i), Finset.sdiff_singleton_eq_erase]
  ring

/-- The accounts of lists that share them stay the sum of the counts. -/
theorem Keeps.sum_eq {acct acct' : κ → Int} (lists : ι → List α) {i : ι} {l : List α}
    (h : Keeps owner acct (lists i) acct' l)
    (hsum : ∀ k, acct k = ∑ j, tally owner k (lists j)) (k : κ) :
    acct' k = ∑ j, tally owner k (Function.update lists i l j) := by
  have hkeep := h k
  have hold := hsum k
  rw [sum_tally_update]
  omega

end

end OpenBsd.Lib
