/-
  OpenBsd.Lib.BestFit

  A search for the element of least waste that stops at the first one without waste.
-/

import Mathlib.Data.List.MinMax

namespace OpenBsd.Lib

section

variable {α β : Type*} [LinearOrder β] (waste : α → β) (exact : α → Bool)

/-- The better of the best element so far and the next one. -/
def better (best : Option α) (a : α) : Option α :=
  match best with
  | none => some a
  | some b => if waste a < waste b then some a else some b

/-- The search over a list; an exact element ends it. -/
def bestLoop : Option α → List α → Option α
  | best, [] => best
  | best, a :: l => if exact a then some a else bestLoop (better waste best a) l

variable {waste exact}

/-- When every element ends the search it finds the first one. -/
theorem bestLoop_first (h : ∀ a, exact a = true) (l : List α) :
    bestLoop waste exact none l = l.head? := by
  cases l with
  | nil => rfl
  | cons a l => exact if_pos (h a)

theorem foldl_argAux_of_least {a : α} (h : ∀ b, waste a ≤ waste b) (l : List α) :
    l.foldl (List.argAux fun b c => waste b < waste c) (some a) = some a := by
  induction l with
  | nil => rfl
  | cons b l ih =>
    have hstay : List.argAux (fun b c => waste b < waste c) (some a) b = some a :=
      if_neg (not_lt.2 (h b))
    rw [List.foldl_cons, hstay, ih]

/-- The search keeps the first element of least waste, so it may stop at one that no other
    can undercut. -/
theorem bestLoop_eq_foldl (h : ∀ a, exact a = true ↔ ∀ b, waste a ≤ waste b) {best : Option α}
    (hbest : ∀ a ∈ best, exact a = false) (l : List α) :
    bestLoop waste exact best l = l.foldl (List.argAux fun b c => waste b < waste c) best := by
  induction l generalizing best with
  | nil => rfl
  | cons a l ih =>
    have hnext : List.argAux (fun b c => waste b < waste c) best a = better waste best a := by
      cases best <;> rfl
    rw [bestLoop, List.foldl_cons, hnext]
    by_cases ha : exact a = true
    · have hleast := (h a).1 ha
      have htake : better waste best a = some a := by
        cases hb : best with
        | none => rfl
        | some b =>
          have hnot : ¬ ∀ c, waste b ≤ waste c := by
            rw [← h b, hbest b hb]
            exact Bool.noConfusion
          obtain ⟨c, hc⟩ := not_forall.1 hnot
          exact if_pos (lt_of_le_of_lt (hleast c) (not_le.1 hc))
      rw [if_pos ha, htake, foldl_argAux_of_least hleast]
    · rw [if_neg ha]
      refine ih ?_
      intro b hb
      cases hbest' : best with
      | none =>
        rw [hbest'] at hb
        obtain rfl := Option.some.inj hb
        exact Bool.eq_false_iff.2 ha
      | some c =>
        rw [hbest', better] at hb
        split at hb
        · obtain rfl := Option.some.inj hb
          exact Bool.eq_false_iff.2 ha
        · obtain rfl := Option.some.inj hb
          exact hbest _ hbest'

theorem bestLoop_eq_argmin (h : ∀ a, exact a = true ↔ ∀ b, waste a ≤ waste b) (l : List α) :
    bestLoop waste exact none l = l.argmin waste :=
  bestLoop_eq_foldl h (fun _ ha => absurd ha (Option.not_mem_none _)) l

end

end OpenBsd.Lib
