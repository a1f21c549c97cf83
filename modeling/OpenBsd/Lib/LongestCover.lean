/-
  OpenBsd.Lib.LongestCover

  Longest matches.  A bit string has its last bit first, so that the strings it extends
  are its suffixes.  A string has a place in a heap, and the longest of the strings in a
  table that it extends is found from its end.
-/

import Mathlib.Data.List.Induction
import Mathlib.Algebra.Group.Nat.Defs

namespace OpenBsd.Lib

open List Function

/-! ## Places in a heap -/

/-- The root is at 1; the strings that extend the one at `i` by a bit are at `2 * i` and
    `2 * i + 1`. -/
def heapIdx : List Bool → Nat
  | [] => 1
  | b :: s => 2 * heapIdx s + b.toNat

/-- The string at a place. -/
def heapStr (i : Nat) : List Bool :=
  if i < 2 then [] else (i % 2 == 1) :: heapStr (i / 2)

section

variable {s s' : List Bool}

theorem heapIdx_cons (b : Bool) (s : List Bool) : heapIdx (b :: s) = 2 * heapIdx s + b.toNat := rfl

theorem two_pow_le_heapIdx (s : List Bool) : 2 ^ s.length ≤ heapIdx s := by
  induction s with
  | nil => exact Nat.le_refl 1
  | cons b s ih =>
    rw [length_cons, Nat.pow_succ, heapIdx_cons]
    omega

theorem heapIdx_lt (s : List Bool) : heapIdx s < 2 ^ (s.length + 1) := by
  induction s with
  | nil => exact Nat.lt_of_lt_of_eq Nat.one_lt_two rfl
  | cons b s ih =>
    have hb : b.toNat ≤ 1 := Bool.toNat_le b
    rw [length_cons, Nat.pow_succ, heapIdx_cons]
    omega

theorem heapIdx_pos (s : List Bool) : 0 < heapIdx s :=
  Nat.lt_of_lt_of_le (Nat.pow_pos Nat.two_pos) (two_pow_le_heapIdx s)

theorem two_le_heapIdx_cons (b : Bool) (s : List Bool) : 2 ≤ heapIdx (b :: s) := by
  have hpos := heapIdx_pos s
  rw [heapIdx_cons]
  omega

theorem heapIdx_cons_div (b : Bool) (s : List Bool) : heapIdx (b :: s) / 2 = heapIdx s := by
  have hb : b.toNat ≤ 1 := Bool.toNat_le b
  rw [heapIdx_cons]
  omega

theorem heapIdx_injective : Function.Injective heapIdx := by
  intro s
  induction s with
  | nil =>
    intro s' h
    cases s' with
    | nil => rfl
    | cons b s' => exact absurd (h ▸ two_le_heapIdx_cons b s') (by decide)
  | cons b s ih =>
    intro s' h
    cases s' with
    | nil => exact absurd (h ▸ two_le_heapIdx_cons b s) (by decide)
    | cons b' s' =>
      have hb : b.toNat ≤ 1 := Bool.toNat_le b
      have hb' : b'.toNat ≤ 1 := Bool.toNat_le b'
      rw [heapIdx_cons, heapIdx_cons] at h
      have hs : s = s' := ih (by omega)
      have hbit : b.toNat = b'.toNat := by omega
      cases b <;> cases b' <;> simp_all

theorem heapIdx_heapStr {i : Nat} (hi : 0 < i) : heapIdx (heapStr i) = i := by
  induction i using Nat.strongRecOn with
  | _ i ih =>
    rw [heapStr]
    split
    · next hlt =>
      rw [heapIdx]
      omega
    · next hge =>
      rw [heapIdx_cons, ih (i / 2) (by omega) (by omega)]
      rcases Nat.mod_two_eq_zero_or_one i with h | h <;> rw [h] <;> simp <;> omega

theorem heapStr_heapIdx (s : List Bool) : heapStr (heapIdx s) = s :=
  heapIdx_injective (heapIdx_heapStr (heapIdx_pos s))

/-- How long a string is, by its place. -/
theorem heapIdx_lt_two_pow_iff {n : Nat} : heapIdx s < 2 ^ n ↔ s.length < n := by
  constructor
  · intro h
    exact (Nat.pow_lt_pow_iff_right Nat.one_lt_two).1 (Nat.lt_of_le_of_lt (two_pow_le_heapIdx s) h)
  · intro h
    exact Nat.lt_of_lt_of_le (heapIdx_lt s) (Nat.pow_le_pow_right Nat.two_pos h)

end

/-! ## The longest string that covers another -/

section

variable {ν : Type} {R : List Bool → Option ν} {o : Nat}

/-- What the table has for the longest string of more than `o` bits that a string
    extends. -/
@[simp] def longestCover (R : List Bool → Option ν) (o : Nat) : List Bool → Option ν
  | [] => none
  | b :: p => if o ≤ p.length then (R (b :: p)).or (longestCover R o p) else none

variable {p : List Bool}

theorem longestCover_of_length_le (h : p.length ≤ o) : longestCover R o p = none := by
  cases p with
  | nil => rfl
  | cons b p => exact if_neg (Nat.not_le_of_lt h)

theorem longestCover_cons {b : Bool} (h : o ≤ p.length) :
    longestCover R o (b :: p) = (R (b :: p)).or (longestCover R o p) := if_pos h

theorem longestCover_of_some {a : ν} (hlen : o < p.length) (h : R p = some a) :
    longestCover R o p = some a := by
  cases p with
  | nil => exact absurd hlen (Nat.not_lt_zero o)
  | cons b p =>
    rw [longestCover_cons (Nat.le_of_lt_succ hlen), h]
    rfl

/-- The string that is found, and that there is no longer one. -/
theorem longestCover_eq_some {a : ν} (h : longestCover R o p = some a) :
    ∃ q, q <:+ p ∧ o < q.length ∧ R q = some a ∧
      ∀ q', q' <:+ p → q.length < q'.length → R q' = none := by
  induction p with
  | nil => cases h
  | cons b p ih =>
    rw [longestCover] at h
    split at h
    · next hle =>
      cases hR : R (b :: p) with
      | some c =>
        rw [hR, Option.some_or] at h
        refine ⟨b :: p, suffix_rfl, Nat.lt_succ_of_le hle, hR.trans h, fun q' hq' hlt => ?_⟩
        exact absurd hq'.length_le (Nat.not_le_of_lt hlt)
      | none =>
        rw [hR, Option.none_or] at h
        obtain ⟨q, hq, hlen, hRq, hmax⟩ := ih h
        refine ⟨q, hq.trans (suffix_cons b p), hlen, hRq, fun q' hq' hlt => ?_⟩
        rcases suffix_cons_iff.1 hq' with rfl | hq'
        · exact hR
        · exact hmax q' hq' hlt
    · cases h

theorem longestCover_eq_none_iff :
    longestCover R o p = none ↔ ∀ q, q <:+ p → o < q.length → R q = none := by
  induction p with
  | nil =>
    refine ⟨fun _ q hq hlen => ?_, fun _ => rfl⟩
    rw [suffix_nil.1 hq] at hlen
    exact absurd hlen (Nat.not_lt_zero o)
  | cons b p ih =>
    rw [longestCover]
    split
    · next hle =>
      rw [Option.or_eq_none_iff, ih]
      constructor
      · rintro ⟨hhead, htail⟩ q hq hlen
        rcases suffix_cons_iff.1 hq with rfl | hq
        · exact hhead
        · exact htail q hq hlen
      · intro h
        exact ⟨h _ suffix_rfl (Nat.lt_succ_of_le hle),
          fun q hq hlen => h q (hq.trans (suffix_cons b p)) hlen⟩
    · next hgt =>
      refine ⟨fun _ q hq hlen => ?_, fun _ => rfl⟩
      have hle := hq.length_le
      rw [length_cons] at hle
      omega

/-- What covers a string covers its end, or ends in front of it. -/
theorem longestCover_append {g : List Bool} (ho : o ≤ g.length) (s : List Bool) :
    longestCover R o (s ++ g)
      = (longestCover R g.length (s ++ g)).or (longestCover R o g) := by
  induction s with
  | nil => rw [nil_append, longestCover_of_length_le (Nat.le_refl _), Option.none_or]
  | cons b s ih =>
    have hlen : g.length ≤ (s ++ g).length := by
      rw [length_append]
      exact Nat.le_add_left ..
    rw [cons_append, longestCover_cons (Nat.le_trans ho hlen), longestCover_cons hlen, ih,
      Option.or_assoc]

/-- A string that covers nothing on the way changes nothing. -/
theorem longestCover_update_of_not_suffix {P : List Bool} {x : Option ν}
    (h : P <:+ p → P.length ≤ o) :
    longestCover (update R P x) o p = longestCover R o p := by
  induction p with
  | nil => rfl
  | cons b p ih =>
    have htail := ih fun hP => h (hP.trans (suffix_cons b p))
    rw [longestCover, longestCover]
    split
    · next hle =>
      have hne : b :: p ≠ P := by
        rintro rfl
        have hlen := h suffix_rfl
        rw [length_cons] at hlen
        omega
      rw [htail, update_of_ne hne]
    · rfl

/-! ## Replacing below a string -/

/-- From `P` down to `u ++ P` everything is `old`. -/
@[simp] def Unbroken (v : List Bool → Option ν) (old : Option ν) (P : List Bool) : List Bool → Prop
  | [] => True
  | b :: u => Unbroken v old P u ∧ v (b :: u ++ P) = old

/-- When the entry of `P` changes, what covers a string below `P` changes as long as
    nothing but the old cover of `P` stands in between. -/
theorem longestCover_update {P : List Bool} {x : Option ν} (hP : o < P.length)
    (hne : ∀ u c, u ≠ [] → R (u ++ P) = some c → some c ≠ longestCover R o P) (u : List Bool) :
    (Unbroken (longestCover R o) (longestCover R o P) P u →
      longestCover (update R P x) o (u ++ P)
        = longestCover (update R P x) o P) ∧
    (¬ Unbroken (longestCover R o) (longestCover R o P) P u →
      longestCover (update R P x) o (u ++ P) = longestCover R o (u ++ P)) := by
  induction u with
  | nil => exact ⟨fun _ => rfl, fun h => absurd trivial h⟩
  | cons b u ih =>
    have hle : o ≤ (u ++ P).length := by
      rw [length_append]
      omega
    have hself : b :: u ++ P ≠ P := by
      intro h
      have hlen := congrArg List.length h
      rw [cons_append, length_cons, length_append] at hlen
      omega
    rw [cons_append] at hself ⊢
    rw [longestCover_cons hle, update_of_ne hself, Unbroken, cons_append, longestCover_cons hle]
    cases hR : R (b :: (u ++ P)) with
    | some c =>
      simp only [Option.some_or]
      exact ⟨fun h => absurd h.2 (hne (b :: u) c (cons_ne_nil b u) hR), fun _ => trivial⟩
    | none =>
      simp only [Option.none_or]
      refine ⟨fun h => ih.1 h.1, fun h => ih.2 fun hu => h ⟨hu, ?_⟩⟩
      -- below an unbroken path everything is still the old cover
      cases u with
      | nil => rfl
      | cons b' u => exact hu.2

theorem unbroken_congr {v w : List Bool → Option ν} {old : Option ν} {P u : List Bool}
    (h : ∀ u', u' <:+ u → w (u' ++ P) = v (u' ++ P)) :
    Unbroken w old P u ↔ Unbroken v old P u := by
  induction u with
  | nil => exact Iff.rfl
  | cons b u ih =>
    rw [Unbroken, Unbroken, ih fun u' hu' => h u' (hu'.trans (suffix_cons b u)),
      h (b :: u) suffix_rfl]

theorem unbroken_concat {v : List Bool → Option ν} {old : Option ν} {P u : List Bool} {b : Bool} :
    Unbroken v old P (u ++ [b]) ↔ v (b :: P) = old ∧ Unbroken v old (b :: P) u := by
  induction u with
  | nil => exact ⟨fun h => ⟨h.2, trivial⟩, fun h => ⟨trivial, h.1⟩⟩
  | cons c u ih =>
    have happ : c :: (u ++ [b]) ++ P = c :: u ++ b :: P := by simp
    rw [cons_append, Unbroken, Unbroken, ih, happ, and_assoc]

section

variable [DecidableEq ν]

/-- `new` at `P` and, as long as there is `old`, below it up to a depth. -/
@[simp] def replaceDown (old new : Option ν) :
    Nat → List Bool → (List Bool → Option ν) → List Bool → Option ν
  | 0, P, v => Function.update v P new
  | h + 1, P, v =>
    let v₁ := if v (false :: P) = old then replaceDown old new h (false :: P) v else v
    let v₂ := if v₁ (true :: P) = old then replaceDown old new h (true :: P) v₁ else v₁
    Function.update v₂ P new

variable {v : List Bool → Option ν} {old new : Option ν} {P q : List Bool} {h : Nat}

theorem not_suffix_cons (b : Bool) (P : List Bool) : ¬ b :: P <:+ P := by
  intro hs
  have hlen := hs.length_le
  rw [length_cons] at hlen
  omega

theorem not_suffix_sibling {b c : Bool} (hbc : b ≠ c) (u P : List Bool) :
    ¬ b :: P <:+ u ++ c :: P := by
  rintro ⟨w, hw⟩
  have hlen := congrArg List.length hw
  simp only [length_append, length_cons] at hlen
  have hhead := (append_inj hw (by omega)).2
  exact hbc (List.cons.inj hhead).1

/-- Nothing changes outside of what is below `P`. -/
theorem replaceDown_of_not_suffix (hq : ¬ P <:+ q) : replaceDown old new h P v q = v q := by
  induction h generalizing P v with
  | zero =>
    rw [replaceDown, update_of_ne]
    rintro rfl
    exact hq suffix_rfl
  | succ h ih =>
    have hne : q ≠ P := by
      rintro rfl
      exact hq suffix_rfl
    have hchild : ∀ b, ¬ b :: P <:+ q := fun b hb => hq ((suffix_cons b P).trans hb)
    rw [replaceDown, update_of_ne hne]
    split <;> split <;> simp only [ih (hchild _)]

theorem replaceDown_self : replaceDown old new h P v P = new := by
  cases h <;> exact update_self ..

/-- Below `P` by at most the depth the unbroken paths get `new`. -/
theorem replaceDown_apply (u : List Bool) (hu : u.length ≤ h) :
    (Unbroken v old P u → replaceDown old new h P v (u ++ P) = new) ∧
    (¬ Unbroken v old P u → replaceDown old new h P v (u ++ P) = v (u ++ P)) := by
  induction h generalizing P v u with
  | zero =>
    rw [eq_nil_of_length_eq_zero (Nat.le_zero.1 hu)]
    exact ⟨fun _ => replaceDown_self, fun hn => absurd trivial hn⟩
  | succ h ih =>
    cases u using List.reverseRecOn with
    | nil => exact ⟨fun _ => replaceDown_self, fun hn => absurd trivial hn⟩
    | append_singleton u b =>
      have happ : u ++ [b] ++ P = u ++ b :: P := by simp
      have hlen : u.length ≤ h := by
        rw [length_append, length_singleton] at hu
        omega
      have hne : u ++ b :: P ≠ P := by
        intro heq
        exact not_suffix_cons b P ⟨u, heq⟩
      rw [unbroken_concat, happ, replaceDown, update_of_ne hne]
      cases b with
      | false =>
        -- the walk below the sibling leaves this side alone
        have hside : ∀ w : List Bool → Option ν,
            (if w (true :: P) = old then replaceDown old new h (true :: P) w else w)
              (u ++ false :: P) = w (u ++ false :: P) := by
          intro w
          split
          · exact replaceDown_of_not_suffix (not_suffix_sibling (by decide) u P)
          · rfl
        rw [hside]
        split
        · next hold =>
          refine ⟨fun hun => (ih u hlen).1 hun.2, fun hn => (ih u hlen).2 fun hun => ?_⟩
          exact hn ⟨hold, hun⟩
        · next hold => exact ⟨fun hun => absurd hun.1 hold, fun _ => rfl⟩
      | true =>
        generalize hw : (if v (false :: P) = old then replaceDown old new h (false :: P) v
          else v) = w
        have hside : ∀ u', w (u' ++ true :: P) = v (u' ++ true :: P) := by
          intro u'
          rw [← hw]
          split
          · exact replaceDown_of_not_suffix (not_suffix_sibling (by decide) u' P)
          · rfl
        have hhead : w (true :: P) = v (true :: P) := hside []
        rw [hhead, ← unbroken_congr fun u' (_ : u' <:+ u) => hside u']
        split
        · next hold =>
          refine ⟨fun hun => (ih u hlen).1 hun.2, fun hn => ?_⟩
          rw [(ih u hlen).2 fun hun => hn ⟨hold, hun⟩]
          exact hside u
        · next hold => exact ⟨fun hun => absurd hun.1 hold, fun _ => hside u⟩

/-- Nothing changes further below. -/
theorem replaceDown_of_length_lt {u : List Bool} (hu : h < u.length) :
    replaceDown old new h P v (u ++ P) = v (u ++ P) := by
  have hne : u ++ P ≠ P := by
    intro heq
    have hlen := congrArg List.length heq
    rw [length_append] at hlen
    omega
  induction h generalizing P v u with
  | zero => exact update_of_ne hne ..
  | succ h ih =>
    rw [replaceDown, update_of_ne hne]
    cases u using List.reverseRecOn with
    | nil => exact absurd hu (Nat.not_lt_zero _)
    | append_singleton u b =>
      have happ : u ++ [b] ++ P = u ++ b :: P := by simp
      have hlen : h < u.length := by
        rw [length_append, length_singleton] at hu
        omega
      have hchild : u ++ b :: P ≠ b :: P := by
        intro heq
        have hl := congrArg List.length heq
        rw [length_append] at hl
        omega
      have hstep : ∀ (c : Bool) (w : List Bool → Option ν),
          (if w (c :: P) = old then replaceDown old new h (c :: P) w else w) (u ++ b :: P)
            = w (u ++ b :: P) := by
        intro c w
        split
        · by_cases hbc : c = b
          · subst hbc
            exact ih hlen hchild
          · exact replaceDown_of_not_suffix (not_suffix_sibling hbc u P)
        · rfl
      rw [happ, hstep true, hstep false]

end

end

end OpenBsd.Lib
