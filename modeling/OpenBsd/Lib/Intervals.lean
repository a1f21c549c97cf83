/-
  OpenBsd.Lib.Intervals

  Lists of intervals in increasing order with a least distance between them.

  The intervals are the values of any type with a lower and an upper end; every
  change of such a list replaces some neighbouring entries by others.
-/

import Mathlib.Data.List.Basic

namespace OpenBsd.Lib

section

variable {α : Type*} {lo hi : α → Nat} {g : Nat}

/-- Entries in the middle of a list that is pairwise related may be replaced by
    entries related to both sides. -/
theorem pairwise_replace {R : α → α → Prop} {pre mid mid' rest : List α}
    (h : (pre ++ (mid ++ rest)).Pairwise R) (hmid : mid'.Pairwise R)
    (hpre : ∀ b ∈ mid', ∀ a ∈ pre, R a b) (hrest : ∀ b ∈ mid', ∀ c ∈ rest, R b c) :
    (pre ++ (mid' ++ rest)).Pairwise R := by
  rw [List.pairwise_append, List.pairwise_append] at h
  obtain ⟨hleft, ⟨-, hright, -⟩, hcross⟩ := h
  rw [List.pairwise_append, List.pairwise_append]
  refine ⟨hleft, ⟨hmid, hright, hrest⟩, fun a ha b hb => ?_⟩
  rcases List.mem_append.mp hb with hb | hb
  · exact hpre b hb a ha
  · exact hcross a ha b (List.mem_append_right _ hb)

/-- Each interval ends more than `g` below the start of every later one. -/
def Separated (lo hi : α → Nat) (g : Nat) (l : List α) : Prop :=
  l.Pairwise fun a b => hi a + g < lo b

theorem separated_append {l l' : List α} :
    Separated lo hi g (l ++ l') ↔
      Separated lo hi g l ∧ Separated lo hi g l' ∧ ∀ a ∈ l, ∀ b ∈ l', hi a + g < lo b :=
  List.pairwise_append

end

end OpenBsd.Lib
