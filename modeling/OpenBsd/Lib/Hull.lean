/-
  OpenBsd.Lib.Hull

  Intervals that are kept apart: one that comes in takes up all those that it overlaps or
  adjoins.
-/

import Mathlib.Order.MinMax

namespace OpenBsd.Lib

open List

section

variable {α : Type*} [LinearOrder α] {a b c f : α × α} {l : List (α × α)} {x : α}

/-- The intervals neither overlap nor adjoin. -/
def Apart (a b : α × α) : Prop := a.2 < b.1 ∨ b.2 < a.1

instance (a b : α × α) : Decidable (Apart a b) := inferInstanceAs (Decidable (_ ∨ _))

/-- The least interval that holds both. -/
def hull (a b : α × α) : α × α := (min a.1 b.1, max a.2 b.2)

theorem Apart.symm (h : Apart a b) : Apart b a := Or.symm h

/-- What is apart from two intervals that touch is apart from their hull. -/
theorem Apart.hull (hab : ¬ Apart a b) (ha : Apart c a) (hb : Apart c b)
    (hlt : c.1 < c.2) : Apart c (hull a b) := by
  unfold Apart at hab ha hb
  rw [not_or, not_lt, not_lt] at hab
  obtain ⟨hba, hab⟩ := hab
  show c.2 < min a.1 b.1 ∨ max a.2 b.2 < c.1
  rw [lt_min_iff, max_lt_iff]
  rcases ha with ha | ha
  · rcases hb with hb | hb
    · exact .inl ⟨ha, hb⟩
    · exact absurd (((hab.trans_lt hb).trans hlt).trans ha) (lt_irrefl _)
  · rcases hb with hb | hb
    · exact absurd (((hba.trans_lt ha).trans hlt).trans hb) (lt_irrefl _)
    · exact .inr ⟨ha, hb⟩

/-- The hull of intervals that touch holds nothing else. -/
theorem mem_hull (hab : ¬ Apart a b) (hlo : (hull a b).1 ≤ x) (hhi : x < (hull a b).2) :
    (a.1 ≤ x ∧ x < a.2) ∨ (b.1 ≤ x ∧ x < b.2) := by
  unfold Apart at hab
  rw [not_or, not_lt, not_lt] at hab
  obtain ⟨hba, hab⟩ := hab
  rcases min_le_iff.1 hlo with hlo | hlo
  · by_cases ha : x < a.2
    · exact .inl ⟨hlo, ha⟩
    · exact .inr ⟨hba.trans (not_lt.1 ha), (lt_max_iff.1 hhi).resolve_left ha⟩
  · by_cases hb : x < b.2
    · exact .inr ⟨hlo, hb⟩
    · exact .inl ⟨hab.trans (not_lt.1 hb), (lt_max_iff.1 hhi).resolve_right hb⟩

/-- The interval takes up those of the list that it touches, one after the other; the rest of
    the list stays. -/
def absorb : α × α → List (α × α) → (α × α) × List (α × α)
  | f, [] => (f, [])
  | f, b :: l =>
    if Apart b f then ((absorb f l).1, b :: (absorb f l).2) else absorb (hull f b) l

theorem absorb_cons (f b : α × α) (l : List (α × α)) : absorb f (b :: l) =
    if Apart b f then ((absorb f l).1, b :: (absorb f l).2) else absorb (hull f b) l := rfl

theorem absorb_sublist (f : α × α) (l : List (α × α)) : (absorb f l).2.Sublist l := by
  induction l generalizing f with
  | nil => exact .slnil
  | cons b l ih =>
    rw [absorb_cons]
    split
    · exact (ih f).cons_cons b
    · exact (ih _).cons b

theorem le_absorb (f : α × α) (l : List (α × α)) :
    (absorb f l).1.1 ≤ f.1 ∧ f.2 ≤ (absorb f l).1.2 := by
  induction l generalizing f with
  | nil => exact ⟨le_refl _, le_refl _⟩
  | cons b l ih =>
    rw [absorb_cons]
    split
    · exact ih f
    · have hstep : (hull f b).1 ≤ f.1 ∧ f.2 ≤ (hull f b).2 := ⟨min_le_left .., le_max_left ..⟩
      exact ⟨(ih (hull f b)).1.trans hstep.1, hstep.2.trans (ih (hull f b)).2⟩

/-- The ends of the result are ends of what was there. -/
theorem absorb_ends {p q : α → Prop} (hf : p f.1 ∧ q f.2) (hl : ∀ b ∈ l, p b.1 ∧ q b.2) :
    p (absorb f l).1.1 ∧ q (absorb f l).1.2 := by
  induction l generalizing f with
  | nil => exact hf
  | cons b l ih =>
    have hb := hl b mem_cons_self
    have hrest := fun c hc => hl c (mem_cons_of_mem b hc)
    rw [absorb_cons]
    split
    · exact ih hf hrest
    · refine ih ⟨?_, ?_⟩ hrest
      · show p (min f.1 b.1)
        rcases min_choice f.1 b.1 with hmin | hmin
        · rw [hmin]
          exact hf.1
        · rw [hmin]
          exact hb.1
      · show q (max f.2 b.2)
        rcases max_choice f.2 b.2 with hmax | hmax
        · rw [hmax]
          exact hf.2
        · rw [hmax]
          exact hb.2

theorem mem_absorb (hlo : (absorb f l).1.1 ≤ x) (hhi : x < (absorb f l).1.2) :
    (f.1 ≤ x ∧ x < f.2) ∨ ∃ b ∈ l, b.1 ≤ x ∧ x < b.2 := by
  induction l generalizing f with
  | nil => exact .inl ⟨hlo, hhi⟩
  | cons b l ih =>
    rw [absorb_cons] at hlo hhi
    split at hlo
    · next hapart =>
      rw [if_pos hapart] at hhi
      rcases ih hlo hhi with hf | ⟨c, hc, hx⟩
      · exact .inl hf
      · exact .inr ⟨c, mem_cons_of_mem b hc, hx⟩
    · next htouch =>
      rw [if_neg htouch] at hhi
      rcases ih hlo hhi with hf | ⟨c, hc, hx⟩
      · rcases mem_hull (fun h => htouch h.symm) hf.1 hf.2 with hf | hb
        · exact .inl hf
        · exact .inr ⟨b, mem_cons_self, hb⟩
      · exact .inr ⟨c, mem_cons_of_mem b hc, hx⟩

/-- What is apart from everything stays apart from the result. -/
theorem Apart.absorb (hc : c.1 < c.2) (hcf : Apart c f) (hcl : ∀ b ∈ l, Apart c b) :
    Apart c (absorb f l).1 := by
  induction l generalizing f with
  | nil => exact hcf
  | cons b l ih =>
    have hcrest := fun b' h => hcl b' (mem_cons_of_mem b h)
    rw [absorb_cons]
    split
    · exact ih hcf hcrest
    · next htouch =>
      exact ih (.hull (fun h => htouch h.symm) hcf (hcl b mem_cons_self) hc) hcrest

/-- What is left of the list is apart from the result. -/
theorem absorb_apart (hl : ∀ b ∈ l, b.1 < b.2) (hapart : l.Pairwise Apart) :
    ∀ b ∈ (absorb f l).2, Apart (absorb f l).1 b := by
  induction l generalizing f with
  | nil => exact fun b hb => absurd hb not_mem_nil
  | cons b l ih =>
    have hrest := fun b' h => hl b' (mem_cons_of_mem b h)
    obtain ⟨hhead, htail⟩ := pairwise_cons.1 hapart
    rw [absorb_cons]
    split
    · next hbf =>
      intro c hc
      rcases mem_cons.1 hc with rfl | hc
      · exact (Apart.absorb (hl c mem_cons_self) hbf hhead).symm
      · exact ih hrest htail c hc
    · exact ih hrest htail

end

end OpenBsd.Lib
