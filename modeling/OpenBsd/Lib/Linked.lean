/-
  OpenBsd.Lib.Linked

  Singly linked lists in a memory: the elements that the pointers lead to, in
  their order.
-/

import Mathlib.Data.List.Basic

namespace OpenBsd.Lib

section

variable {α : Type}

/-- From `p` the pointers lead along `l` and then end. -/
def LinkedList (next : α → Option α) : Option α → List α → Prop
  | p, [] => p = none
  | p, a :: l => p = some a ∧ LinkedList next (next a) l

variable {next next' : α → Option α} {p : Option α} {l l' : List α} {a : α}

theorem LinkedList.eq_head? (h : LinkedList next p l) : p = l.head? := by
  cases l with
  | nil => exact h
  | cons a l => exact h.1

/-- The pointers lead along one list only. -/
theorem LinkedList.unique (h : LinkedList next p l) (h' : LinkedList next p l') : l = l' := by
  induction l generalizing p l' with
  | nil =>
    cases l' with
    | nil => rfl
    | cons b l' => exact absurd (h.symm.trans h'.1) (by simp)
  | cons a l ih =>
    cases l' with
    | nil => exact absurd (h'.symm.trans h.1) (by simp)
    | cons b l' =>
      have hab : a = b := Option.some.inj (h.1.symm.trans h'.1)
      subst hab
      rw [ih h.2 h'.2]

theorem LinkedList.congr (h : LinkedList next p l) (heq : ∀ x ∈ l, next' x = next x) :
    LinkedList next' p l := by
  induction l generalizing p with
  | nil => exact h
  | cons a l ih =>
    refine ⟨h.1, ?_⟩
    rw [heq a List.mem_cons_self]
    exact ih h.2 fun x hx => heq x (List.mem_cons_of_mem a hx)

/-- What comes after an element of the list. -/
theorem LinkedList.after (h : LinkedList next p (l ++ a :: l')) : LinkedList next (next a) l' := by
  induction l generalizing p with
  | nil => exact h.2
  | cons b l ih => exact ih h.2

/-- The pointer of an element is turned to another list. -/
theorem LinkedList.relink {l'' : List α} (h : LinkedList next p (l ++ a :: l'))
    (heq : ∀ x ∈ l, next' x = next x) (hnew : LinkedList next' (next' a) l'') :
    LinkedList next' p (l ++ a :: l'') := by
  induction l generalizing p with
  | nil => exact ⟨h.1, hnew⟩
  | cons b l ih =>
    refine ⟨h.1, ?_⟩
    rw [heq b List.mem_cons_self]
    exact ih h.2 fun x hx => heq x (List.mem_cons_of_mem b hx)

end

end OpenBsd.Lib
