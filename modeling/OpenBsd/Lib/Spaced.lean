/-
  OpenBsd.Lib.Spaced

  Lists in which equal members stand apart.
-/

import Mathlib.Data.List.Basic

namespace OpenBsd.Lib

open List

section

variable {α : Type*} {l : List α} {d : Nat} {a : α}

/-- Two places of one value are at least `d` apart. -/
def Spaced (d : Nat) (l : List α) : Prop :=
  ∀ (u : List α) (a : α) (v w : List α), l = u ++ a :: (v ++ a :: w) → d ≤ v.length + 1

theorem spaced_nil : Spaced d ([] : List α) := by
  intro u a v w h
  exact absurd h.symm (append_ne_nil_of_right_ne_nil u (cons_ne_nil _ _))

/-- What follows is not one of the last `d - 1` members. -/
theorem Spaced.snoc (h : Spaced d l) (hnew : ∀ u v, l = u ++ a :: v → d ≤ v.length + 1) :
    Spaced d (l ++ [a]) := by
  intro u b v w heq
  rcases eq_nil_or_concat w with rfl | ⟨w', c, rfl⟩
  · have hassoc : l ++ [a] = (u ++ b :: v) ++ [b] := by
      rw [heq, append_assoc, cons_append]
    obtain ⟨hl, hab⟩ := append_inj' hassoc rfl
    obtain rfl := singleton_inj.1 hab
    exact hnew u v hl
  · have hassoc : l ++ [a] = (u ++ b :: (v ++ b :: w')) ++ [c] := by
      rw [heq, concat_eq_append, append_assoc, cons_append, append_assoc, cons_append]
    exact h u b v w' (append_inj' hassoc rfl).1

/-- The places themselves. -/
theorem Spaced.le_of_getElem? (h : Spaced d l) {j k : Nat} (hjk : j < k)
    (hj : l[j]? = some a) (hk : l[k]? = some a) : j + d ≤ k := by
  obtain ⟨hjlt, rfl⟩ := List.getElem?_eq_some_iff.1 hj
  obtain ⟨hklt, heq⟩ := List.getElem?_eq_some_iff.1 hk
  have hlate : l.drop (j + 1) = (l.drop (j + 1)).take (k - (j + 1)) ++ l[j] :: l.drop (k + 1) := by
    have hmid := (take_append_drop (k - (j + 1)) (l.drop (j + 1))).symm
    rwa [List.drop_drop, show j + 1 + (k - (j + 1)) = k by omega, drop_eq_getElem_cons hklt,
      heq] at hmid
  have hsplit : l = l.take j ++ l[j] :: ((l.drop (j + 1)).take (k - (j + 1)) ++
      l[j] :: l.drop (k + 1)) := by
    rw [← hlate, ← drop_eq_getElem_cons hjlt, take_append_drop]
  have hd := h _ _ _ _ hsplit
  rw [length_take, length_drop] at hd
  omega

/-- Without one of the values the others stand closer by one place at most: it stands apart
    itself. -/
theorem Spaced.filter_ne [DecidableEq α] (h : Spaced (d + 1) l) (z : α) :
    Spaced d (l.filter fun a => a ≠ z) := by
  intro u a v w heq
  obtain ⟨l₁, l₂, rfl, -, hl₂⟩ := filter_eq_append_iff.1 heq
  obtain ⟨l₃, l₄, rfl, -, -, hl₄⟩ := filter_eq_cons_iff.1 hl₂
  obtain ⟨m, l₅, rfl, rfl, hl₅⟩ := filter_eq_append_iff.1 hl₄
  obtain ⟨l₆, l₇, rfl, hskip, -, -⟩ := filter_eq_cons_iff.1 hl₅
  have hfar : d ≤ (m ++ l₆).length := by
    have hle := h (l₁ ++ l₃) a (m ++ l₆) l₇ (by simp only [append_assoc])
    omega
  have hkeep : ∀ {xs : List α}, z ∉ xs → (xs.filter fun a => a ≠ z) = xs := fun hz =>
    filter_eq_self.2 fun x hx => decide_eq_true fun hxz => hz (hxz ▸ hx)
  have hnone : (l₆.filter fun a => a ≠ z) = [] := filter_eq_nil_iff.2 hskip
  have hm : (m.filter fun a => a ≠ z) = ((m ++ l₆).filter fun a => a ≠ z) := by
    rw [filter_append, hnone, append_nil]
  rw [hm]
  by_cases hz : z ∈ m ++ l₆
  · obtain ⟨A, B, hAB, hA⟩ := eq_append_cons_of_mem hz
    rw [hAB, length_append, length_cons] at hfar
    rw [hAB, filter_append, hkeep hA, filter_cons_of_neg (by simp), length_append]
    by_cases hzB : z ∈ B
    · -- between two places of `z` there is enough
      obtain ⟨C, D, rfl, hC⟩ := eq_append_cons_of_mem hzB
      have hle := h (l₁ ++ (l₃ ++ a :: A)) z C (D ++ a :: l₇) (by
        have hlist : m ++ (l₆ ++ a :: l₇) = A ++ z :: (C ++ z :: (D ++ a :: l₇)) := by
          rw [← append_assoc, hAB]
          simp only [append_assoc, cons_append]
        rw [hlist]
        simp only [append_assoc, cons_append])
      rw [filter_append, hkeep hC, length_append]
      omega
    · rw [hkeep hzB]
      omega
  · rw [hkeep hz]
    omega

end

end OpenBsd.Lib
