/-
  OpenBsd.Lib.Pieces

  Queues of pieces of a stream: in order, apart from each other, and with nothing in them
  that did not come at its place.

  `R a e d` says that the entry `e` of a queue is the piece `d` at the place `a`, and
  `got x b` that `b` came for the place `x`.
-/

import Mathlib.Algebra.Group.Nat.Defs
import Mathlib.Data.List.Basic

namespace OpenBsd.Lib

open List

variable {ε α : Type} {R : Nat → ε → List α → Prop} {got got' : Nat → α → Prop}

/-- Every item of the piece came for its place. -/
def Came (got : Nat → α → Prop) (a : Nat) (d : List α) : Prop :=
  ∀ j b, d[j]? = some b → got (a + j) b

variable {d : List α} {a : Nat}

theorem Came.drop (h : Came got a d) (n : Nat) : Came got (a + n) (d.drop n) := by
  intro j b hj
  rw [getElem?_drop] at hj
  have hat := h (n + j) b hj
  rwa [← Nat.add_assoc] at hat

theorem Came.append {d' : List α} (h : Came got a d) (h' : Came got (a + d.length) d') :
    Came got a (d ++ d') := by
  intro j b hj
  rw [getElem?_append] at hj
  split at hj
  · exact h j b hj
  · have hat := h' (j - d.length) b hj
    have hplace : a + d.length + (j - d.length) = a + j := by omega
    rwa [hplace] at hat

theorem Came.mono (h : Came got a d) (hgot : ∀ x b, got x b → got' x b) :
    Came got' a d := fun j b hj => hgot _ b (h j b hj)

theorem Came.nil (a : Nat) : Came got a [] := fun j b hj => by simp at hj

/-- The entries are pieces from `lo` on that end at or before `hi`. -/
def Pieces (R : Nat → ε → List α → Prop) (got : Nat → α → Prop) : Nat → Nat → List ε → Prop
  | lo, hi, [] => lo ≤ hi
  | lo, hi, e :: es => ∃ a d, lo ≤ a ∧ R a e d ∧ Came got a d ∧ Pieces R got (a + d.length) hi es

variable {l : List ε} {hi lo : Nat}

theorem Pieces.le (h : Pieces R got lo hi l) : lo ≤ hi := by
  induction l generalizing lo with
  | nil => exact h
  | cons e es ih =>
    obtain ⟨a, d, hlo, -, -, hrest⟩ := h
    have := ih hrest
    omega

theorem pieces_append {l' : List ε} :
    Pieces R got lo hi (l ++ l') ↔ ∃ m, Pieces R got lo m l ∧ Pieces R got m hi l' := by
  induction l generalizing lo with
  | nil =>
    constructor
    · exact fun h => ⟨lo, Nat.le_refl lo, h⟩
    · rintro ⟨m, hle, h⟩
      cases l' with
      | nil => exact Nat.le_trans hle h
      | cons e es =>
        obtain ⟨a, d, hlo, hrest⟩ := h
        exact ⟨a, d, Nat.le_trans hle hlo, hrest⟩
  | cons e es ih =>
    constructor
    · rintro ⟨a, d, hlo, hR, hcame, hrest⟩
      obtain ⟨m, h, h'⟩ := ih.1 hrest
      exact ⟨m, ⟨a, d, hlo, hR, hcame, h⟩, h'⟩
    · rintro ⟨m, ⟨a, d, hlo, hR, hcame, h⟩, h'⟩
      exact ⟨a, d, hlo, hR, hcame, ih.2 ⟨m, h, h'⟩⟩

theorem Pieces.mono {lo' hi' : Nat} (h : Pieces R got lo hi l) (hlo : lo' ≤ lo)
    (hhi : hi ≤ hi') (hgot : ∀ x b, got x b → got' x b) : Pieces R got' lo' hi' l := by
  induction l generalizing lo lo' with
  | nil => exact Nat.le_trans hlo (Nat.le_trans h hhi)
  | cons e es ih =>
    obtain ⟨a, d, hle, hR, hcame, hrest⟩ := h
    exact ⟨a, d, Nat.le_trans hlo hle, hR, hcame.mono hgot, ih hrest (Nat.le_refl _)⟩

theorem Pieces.imp {R' : Nat → ε → List α → Prop} (h : Pieces R got lo hi l)
    (hR : ∀ a e d, R a e d → R' a e d) (hgot : ∀ x b, got x b → got' x b) : Pieces R' got' lo hi l := by
  induction l generalizing lo with
  | nil => exact h
  | cons e es ih =>
    obtain ⟨a, d, hlo, hat, hcame, hrest⟩ := h
    exact ⟨a, d, hlo, hR a e d hat, hcame.mono hgot, ih hrest⟩

theorem Pieces.sublist {l' : List ε} (h : Pieces R got lo hi l) (hsub : l'.Sublist l) :
    Pieces R got lo hi l' := by
  induction hsub generalizing lo with
  | slnil => exact h
  | cons e _ ih =>
    obtain ⟨a, d, hlo, -, -, hrest⟩ := h
    exact (ih hrest).mono (by omega) (Nat.le_refl hi) fun _ _ => id
  | cons_cons e _ ih =>
    obtain ⟨a, d, hlo, hR, hcame, hrest⟩ := h
    exact ⟨a, d, hlo, hR, hcame, ih hrest⟩

/-- The queue at a place: either no entry starts there or before, or the last that does is
    known. -/
theorem Pieces.split {p : ε → Bool} {T : Nat} (h : Pieces R got lo hi l)
    (hT : T ≤ hi) (hp : ∀ a e d, R a e d → lo ≤ a → a ≤ hi → (p e = true ↔ a ≤ T)) :
    (l.takeWhile p = [] ∧ l.dropWhile p = l ∧ Pieces R got (max lo T) hi l) ∨
    ∃ b e a d, l.takeWhile p = b ++ [e] ∧ Pieces R got lo a b ∧ a ≤ T ∧ R a e d ∧
      Came got a d ∧ Pieces R got (max (a + d.length) T) hi (l.dropWhile p) := by
  induction l generalizing lo with
  | nil => exact .inl ⟨rfl, rfl, Nat.max_le.2 ⟨h, hT⟩⟩
  | cons e es ih =>
    obtain ⟨a, d, hlo, hR, hcame, hrest⟩ := h
    have hhi := hrest.le
    have hpe := hp a e d hR hlo (by omega)
    by_cases ha : a ≤ T
    · right
      have hstep := ih hrest fun a' e' d' hR' hlo' => hp a' e' d' hR' (by omega)
      rw [takeWhile_cons_of_pos (hpe.2 ha), dropWhile_cons_of_pos (hpe.2 ha)]
      rcases hstep with ⟨htake, hdrop, hes⟩ | ⟨b, e', a', d', htake, hb, hle, hR', hcame', hes⟩
      · rw [htake, hdrop]
        exact ⟨[], e, a, d, rfl, hlo, ha, hR, hcame, hes⟩
      · rw [htake]
        exact ⟨e :: b, e', a', d', rfl, ⟨a, d, hlo, hR, hcame, hb⟩, hle, hR', hcame', hes⟩
    · left
      have hne : ¬ p e = true := fun hpos => ha (hpe.1 hpos)
      rw [takeWhile_cons_of_neg hne, dropWhile_cons_of_neg hne]
      exact ⟨rfl, rfl, a, d, Nat.max_le.2 ⟨hlo, by omega⟩, hR, hcame, hrest⟩

variable {f : List ε → List ε} {E : Nat} {c : ε → Nat → ε}

/-- A loop that takes covered entries out of the front of a queue, up to `E`, and cuts the one
    that is covered in part: it removes all of them, or stops at an entry. -/
theorem Pieces.cut (hf : ∀ a e d es, R a e d → lo ≤ a → a + d.length ≤ hi → f (e :: es) =
      if E ≤ a then e :: es else if E < a + d.length then c e (E - a) :: es else f es)
    (h : Pieces R got lo hi l) (g : List ε) :
    (f (l ++ g) = f g ∧ Pieces R got lo (max lo E) l) ∨
    ∃ pre e rest a d, l = pre ++ e :: rest ∧ lo ≤ a ∧ R a e d ∧ Came got a d ∧
      Pieces R got (a + d.length) hi rest ∧
      ((E ≤ a ∧ f (l ++ g) = e :: rest ++ g) ∨
        (a < E ∧ E < a + d.length ∧ f (l ++ g) = c e (E - a) :: rest ++ g)) := by
  induction l generalizing lo with
  | nil => exact .inl ⟨rfl, Nat.le_max_left lo E⟩
  | cons e es ih =>
    obtain ⟨a, d, hlo, hR, hcame, hrest⟩ := h
    have hloop := hf a e d (es ++ g) hR hlo hrest.le
    rw [cons_append, hloop]
    by_cases ha : E ≤ a
    · rw [if_pos ha]
      exact .inr ⟨[], e, es, a, d, rfl, hlo, hR, hcame, hrest, .inl ⟨ha, rfl⟩⟩
    · by_cases had : E < a + d.length
      · rw [if_neg ha, if_pos had]
        exact .inr ⟨[], e, es, a, d, rfl, hlo, hR, hcame, hrest, .inr ⟨by omega, had, rfl⟩⟩
      · rw [if_neg ha, if_neg had]
        have hstep := ih (fun a' e' d' es' hR' hlo' => hf a' e' d' es' hR' (by omega)) hrest
        rcases hstep with ⟨hall, hes⟩ | ⟨pre, e', rest, a', d', hes, hlo', hfound⟩
        · refine .inl ⟨hall, a, d, hlo, hR, hcame, hes.mono (Nat.le_refl _) ?_ fun _ _ => id⟩
          omega
        · rw [hes]
          exact .inr ⟨e :: pre, e', rest, a', d', rfl, by omega, by rw [← hes]; exact hfound⟩

/-- What the loop leaves is behind `E`. -/
theorem Pieces.cut_behind (hf : ∀ a e d es, R a e d → lo ≤ a → a + d.length ≤ hi → f (e :: es) =
      if E ≤ a then e :: es else if E < a + d.length then c e (E - a) :: es else f es)
    (hnil : f [] = []) (hcut : ∀ a e d, R a e d → lo ≤ a → a + d.length ≤ hi → a < E → E < a + d.length →
      R E (c e (E - a)) (d.drop (E - a)))
    (h : Pieces R got lo hi l) (hE : E ≤ hi) : Pieces R got E hi (f l) := by
  have hloop := h.cut hf []
  rw [append_nil, hnil] at hloop
  rcases hloop with ⟨hall, -⟩ | ⟨pre, e, rest, a, d, -, hlo, hR, hcame, hrest, hfound⟩
  · rw [hall]
    exact hE
  · rcases hfound with ⟨ha, hfl⟩ | ⟨ha, had, hfl⟩
    · rw [hfl, append_nil]
      exact ⟨a, d, ha, hR, hcame, hrest⟩
    · rw [hfl, append_nil]
      have hplace : a + (E - a) = E := by omega
      have hdrop := hcame.drop (E - a)
      rw [hplace] at hdrop
      refine ⟨E, d.drop (E - a), Nat.le_refl E, hcut a e d hR hlo hrest.le ha had, hdrop, ?_⟩
      have hend : E + (d.drop (E - a)).length = a + d.length := by
        rw [length_drop]
        omega
      rwa [hend]

/-- Each entry is a piece between the ends. -/
theorem Pieces.mem (h : Pieces R got lo hi l) {e : ε} (he : e ∈ l) :
    ∃ a d, lo ≤ a ∧ a + d.length ≤ hi ∧ R a e d ∧ Came got a d := by
  induction l generalizing lo with
  | nil => cases he
  | cons e' es ih =>
    obtain ⟨a, d, hlo, hR, hcame, hrest⟩ := h
    rcases mem_cons.1 he with rfl | he
    · exact ⟨a, d, hlo, hrest.le, hR, hcame⟩
    · obtain ⟨a', d', hlo', hh⟩ := ih hrest he
      exact ⟨a', d', by omega, hh⟩

/-- Entries one behind the other. -/
theorem Pieces.pairwise (h : Pieces R got lo hi l) :
    l.Pairwise fun e e' => ∃ a d a' d', lo ≤ a ∧ R a e d ∧ R a' e' d' ∧ a + d.length ≤ a' ∧
      a' + d'.length ≤ hi := by
  induction l generalizing lo with
  | nil => exact List.Pairwise.nil
  | cons e es ih =>
    obtain ⟨a, d, hlo, hR, -, hrest⟩ := h
    refine pairwise_cons.2 ⟨fun e' he' => ?_, (ih hrest).imp ?_⟩
    · obtain ⟨a', d', hle, hhi, hR', -⟩ := hrest.mem he'
      exact ⟨a, d, a', d', hlo, hR, hR', hle, hhi⟩
    · rintro x y ⟨a₁, d₁, a₂, d₂, h₁, hrest'⟩
      exact ⟨a₁, d₁, a₂, d₂, by omega, hrest'⟩

end OpenBsd.Lib
