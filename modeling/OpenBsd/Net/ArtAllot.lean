/-
  OpenBsd.Net.ArtAllot

  `art_allot` of `sys/net/art.c`: its `goto`s put the new route into the slots below an
  index down to those that have another route than the old one.
-/

import OpenBsd.Net.ArtRep

namespace OpenBsd.Net

open OpenBsd.Lib

section

variable {ν τ : Type} [DecidableEq ν] [DecidableEq τ]

variable {ar : ArtRoot τ} {mem mem' : ArtMem ν τ} {T : List Bool → Option τ}
  {V V' : List Bool → Option ν} {c : List Bool → Int} {g s : List Bool} {t : τ}
  {old new : Option ν} {i l w k m n : Nat}

omit [DecidableEq ν] [DecidableEq τ] in
theorem ArtRep.table_at (h : ArtRep ar mem T V c) (hT : T g = some t)
    (hl : g.length = strideSum ar.bits l) (hw : ar.bits[l]? = some w) :
    ∃ tbl, mem t = some tbl ∧ TableRep ar.bits T V c g tbl ∧ tbl.bits = w := by
  obtain ⟨tbl, hmem, ht⟩ := h.table g t hT
  refine ⟨tbl, hmem, ht, ?_⟩
  have hpos := ht.bits_pos h.strides
  have hwpos : 0 < w := by
    rcases h.strides.stride hw with hw | hw <;> omega
  have hstart := ht.start
  have hlevel : tbl.level = l := by
    rcases Nat.lt_trichotomy tbl.level l with hlt | heq | hlt
    · have hmono := strideSum_mono ar.bits (Nat.succ_le_of_lt hlt)
      rw [Nat.succ_eq_add_one, strideSum_succ ht.stride] at hmono
      omega
    · exact heq
    · have hmono := strideSum_mono ar.bits (Nat.succ_le_of_lt hlt)
      rw [Nat.succ_eq_add_one, strideSum_succ hw] at hmono
      omega
  have hstride := ht.stride
  rw [hlevel, hw] at hstride
  exact (Option.some.inj hstride).symm

theorem ArtRep.allotFringe (h : ArtRep ar mem T V c) (hT : T g = some t)
    (hl : g.length = strideSum ar.bits l) (hw : ar.bits[l]? = some w) (hs : s.length = w)
    (old new : Option ν) :
    ∃ mem', artAllotFringe mem t (heapIdx s) old new = some mem' ∧
      ArtRep ar mem' T
        (if V (s ++ g) = old then replaceDown old new 0 (s ++ g) V else V) c := by
  obtain ⟨tbl, hmem, ht, rfl⟩ := h.table_at hT hl hw
  have hitem := ht.fringe s hs
  cases hc : T (s ++ g) with
  | some c' =>
    rw [artItem, hc] at hitem
    obtain ⟨sub, hsub, hrep⟩ := h.table _ _ hc
    simp only [artAllotFringe, hmem, hitem, hsub, hrep.dflt h.strides, Option.bind_eq_bind,
      Option.bind_some, ArtItem.node.injEq]
    split
    · obtain ⟨hset, hrep'⟩ := h.setItem hc hsub hrep (Nat.zero_le _)
        (fun hz : ([] : List Bool).length = sub.bits =>
          absurd hz (Nat.ne_of_lt (hrep.bits_pos h.strides))) new
      exact ⟨_, hset, hrep'⟩
    · exact ⟨mem, rfl, h⟩
  | none =>
    rw [artItem, hc] at hitem
    simp only [artAllotFringe, hmem, hitem, Option.bind_eq_bind, Option.bind_some]
    split
    · obtain ⟨hset, hrep'⟩ := h.setItem hT hmem ht (Nat.le_of_eq hs) (fun _ => hc) new
      exact ⟨_, hset, hrep'⟩
    · exact ⟨mem, rfl, h⟩

/-- `m` steps lead from one place to another. -/
def AllotSteps (t : τ) (i : Nat) (old new : Option ν) (m : Nat)
    (s s' : AllotLabel × Nat × ArtMem ν τ) : Prop :=
  ∀ fuel, artAllotLoop t i old new (fuel + m) s.1 s.2.1 s.2.2
    = artAllotLoop t i old new fuel s'.1 s'.2.1 s'.2.2

theorem AllotSteps.trans {s s' s'' : AllotLabel × Nat × ArtMem ν τ}
    (h : AllotSteps t i old new m s s') (h' : AllotSteps t i old new n s' s'') :
    AllotSteps t i old new (n + m) s s'' := by
  intro fuel
  rw [← Nat.add_assoc, h, h']

theorem ArtRep.allot_moveup (h : ArtRep ar mem T V c) (hT : T g = some t)
    (hl : g.length = strideSum ar.bits l) (hw : ar.bits[l]? = some w) (hs : s.length < w)
    (i : Nat) (old new : Option ν) :
    ∃ mem', ArtRep ar mem' T (Function.update V (s ++ g) new) c ∧
      ∀ fuel, artAllotLoop t i old new (fuel + 1) .moveup (heapIdx (true :: s)) mem
        = if heapIdx s ≠ i then artAllotLoop t i old new fuel .moveon (heapIdx s) mem'
          else some mem' := by
  obtain ⟨tbl, hmem, ht, rfl⟩ := h.table_at hT hl hw
  obtain ⟨hset, hrep⟩ := h.setItem hT hmem ht (Nat.le_of_lt hs)
    (fun he => absurd he (Nat.ne_of_lt hs)) new
  refine ⟨_, hrep, fun fuel => ?_⟩
  rw [artAllotLoop, heapIdx_cons_div, hset]
  rfl

theorem ArtRep.allot_child (h : ArtRep ar mem T V c) (hT : T g = some t)
    (hl : g.length = strideSum ar.bits l) (hw : ar.bits[l]? = some w) (hs : s.length < w)
    (hwalk : V (s ++ g) = old → ∃ m ≤ n, ∃ mem',
      ArtRep ar mem' T (replaceDown old new k (s ++ g) V) c ∧
      AllotSteps t i old new m (.again, heapIdx s, mem) (.moveon, heapIdx s, mem')) :
    ∃ m ≤ n + 1, ∃ mem',
      ArtRep ar mem' T (if V (s ++ g) = old then replaceDown old new k (s ++ g) V else V) c ∧
      AllotSteps t i old new m (.nonfringe, heapIdx s, mem) (.moveon, heapIdx s, mem') := by
  obtain ⟨tbl, hmem, ht, rfl⟩ := h.table_at hT hl hw
  have hitem := ht.inner s hs
  split
  · next hold =>
    obtain ⟨m, hm, mem', hrep, hsteps⟩ := hwalk hold
    refine ⟨m + 1, Nat.succ_le_succ hm, mem', hrep, AllotSteps.trans (fun fuel => ?_) hsteps⟩
    simp only [artAllotLoop, hmem, Option.bind_eq_bind, Option.bind_some, hitem, hold, if_true]
  · next hold =>
    refine ⟨1, Nat.succ_le_succ (Nat.zero_le n), mem, h, fun fuel => ?_⟩
    simp only [artAllotLoop, hmem, Option.bind_eq_bind, Option.bind_some, hitem,
      ArtItem.node.injEq, if_neg hold]

omit [DecidableEq ν] [DecidableEq τ] in
theorem heapIdx_false (s : List Bool) : heapIdx (false :: s) = 2 * heapIdx s := rfl

omit [DecidableEq ν] [DecidableEq τ] in
theorem heapIdx_true (s : List Bool) : heapIdx (true :: s) = 2 * heapIdx s + 1 := rfl

section

variable (h : ArtRep ar mem T V c) (hT : T g = some t) (hl : g.length = strideSum ar.bits l)
  (hw : ar.bits[l]? = some w)
include h hT hl hw

theorem ArtRep.allot_fringe_pair (hs : s.length + 1 = w) (i : Nat) (old new : Option ν) :
    ∃ mem₁, ArtRep ar mem₁ T
        (let V₁ := if V (false :: (s ++ g)) = old then
            replaceDown old new 0 (false :: (s ++ g)) V else V
          if V₁ (true :: (s ++ g)) = old then
            replaceDown old new 0 (true :: (s ++ g)) V₁ else V₁) c ∧
      AllotSteps t i old new 3 (.again, heapIdx s, mem) (.moveup, heapIdx (true :: s), mem₁) := by
  have hs₁ : ∀ b : Bool, (b :: s).length = w := fun b => hs
  obtain ⟨tbl, hmem, ht, hbits⟩ := h.table_at hT hl hw
  obtain ⟨mem₁, hrun₁, hrep₁⟩ := h.allotFringe hT hl hw (hs₁ false) old new
  obtain ⟨mem₂, hrun₂, hrep₂⟩ := hrep₁.allotFringe hT hl hw (hs₁ true) old new
  refine ⟨mem₂, hrep₂, fun fuel => ?_⟩
  have hfringe : ¬ 2 * heapIdx s < tbl.minfringe := by
    rw [ht.minfringe, hbits, ← heapIdx_false, heapIdx_lt_two_pow_iff, hs₁ false]
    exact Nat.lt_irrefl w
  have heven : ¬ 2 * heapIdx s % 2 = 1 := by omega
  have hodd : (2 * heapIdx s + 1) % 2 = 1 := by omega
  rw [heapIdx_false] at hrun₁
  rw [heapIdx_true] at hrun₂ ⊢
  simp only [artAllotLoop, hmem, Option.bind_eq_bind, Option.bind_some, if_neg hfringe, hrun₁,
    if_neg heven, hrun₂, if_pos hodd]

/-- From `again` at a slot the walk comes back to it, with the new route put into it and
    below it. -/
theorem ArtRep.allot_again (hs : s.length + (n + 1) = w) (hi : i ≤ heapIdx s) :
    ∃ m, m + 6 ≤ 5 * 2 ^ (n + 1) ∧ ∃ mem',
      ArtRep ar mem' T (replaceDown old new (n + 1) (s ++ g) V) c ∧
      ∀ fuel, artAllotLoop t i old new (fuel + m) .again (heapIdx s) mem
        = if heapIdx s ≠ i then artAllotLoop t i old new fuel .moveon (heapIdx s) mem'
          else some mem' := by
  induction n generalizing s mem V with
  | zero =>
    obtain ⟨mem₁, hrep₁, hsteps⟩ := h.allot_fringe_pair hT hl hw hs i old new
    have hlt : s.length < w := by omega
    obtain ⟨mem₂, hrep₂, hup⟩ := hrep₁.allot_moveup hT hl hw hlt i old new
    refine ⟨4, by decide, mem₂, hrep₂, fun fuel => ?_⟩
    rw [← hup fuel]
    exact hsteps (fuel + 1)
  | succ n ih =>
    have hpos := heapIdx_pos s
    have hlen : ∀ b : Bool, (b :: s).length < w := fun b => by
      rw [List.length_cons]
      omega
    -- the walk of a child comes back to the child, which is not where it began
    have hwalk : ∀ (b : Bool) {mem : ArtMem ν τ} {V : List Bool → Option ν},
        ArtRep ar mem T V c → V (b :: s ++ g) = old →
        ∃ m ≤ 5 * 2 ^ (n + 1) - 6, ∃ mem',
          ArtRep ar mem' T (replaceDown old new (n + 1) (b :: s ++ g) V) c ∧
          AllotSteps t i old new m (.again, heapIdx (b :: s), mem)
            (.moveon, heapIdx (b :: s), mem') := by
      intro b mem V h _
      have hbelow : i < heapIdx (b :: s) := by
        rw [heapIdx]
        omega
      have hlen' : (b :: s).length + (n + 1) = w := by
        rw [List.length_cons]
        omega
      obtain ⟨m, hm, mem', hrep, hrun⟩ := ih h hlen' (Nat.le_of_lt hbelow)
      refine ⟨m, by omega, mem', hrep, fun fuel => ?_⟩
      rw [hrun fuel, if_pos (Nat.ne_of_gt hbelow)]
    obtain ⟨tbl, hmem, ht, hbits⟩ := h.table_at hT hl hw
    obtain ⟨m₁, hm₁, mem₁, hrep₁, hrun₁⟩ := h.allot_child hT hl hw (hlen false) (hwalk false h)
    obtain ⟨m₂, hm₂, mem₂, hrep₂, hrun₂⟩ :=
      hrep₁.allot_child hT hl hw (hlen true) (hwalk true hrep₁)
    obtain ⟨mem₃, hrep₃, hup⟩ :=
      hrep₂.allot_moveup hT hl hw (Nat.lt_of_succ_lt (hlen true)) i old new
    have hinner : 2 * heapIdx s < tbl.minfringe := by
      rw [ht.minfringe, hbits, ← heapIdx_false, heapIdx_lt_two_pow_iff]
      exact hlen false
    have hstart : AllotSteps t i old new 1 (.again, heapIdx s, mem)
        (.nonfringe, heapIdx (false :: s), mem) := by
      intro fuel
      simp only [artAllotLoop, hmem, Option.bind_eq_bind, Option.bind_some, if_pos hinner,
        heapIdx_false]
    have hright : AllotSteps t i old new 1 (.moveon, heapIdx (false :: s), mem₁)
        (.nonfringe, heapIdx (true :: s), mem₁) := by
      intro fuel
      have heven : ¬ 2 * heapIdx s % 2 = 1 := by omega
      show artAllotLoop t i old new (fuel + 1) .moveon (2 * heapIdx s) mem₁
        = artAllotLoop t i old new fuel .nonfringe (2 * heapIdx s + 1) mem₁
      rw [artAllotLoop, if_neg heven]
    have hback : AllotSteps t i old new 1 (.moveon, heapIdx (true :: s), mem₂)
        (.moveup, heapIdx (true :: s), mem₂) := by
      intro fuel
      have hodd : (2 * heapIdx s + 1) % 2 = 1 := by omega
      show artAllotLoop t i old new (fuel + 1) .moveon (2 * heapIdx s + 1) mem₂
        = artAllotLoop t i old new fuel .moveup (2 * heapIdx s + 1) mem₂
      rw [artAllotLoop, if_pos hodd]
    have hall := (((hstart.trans hrun₁).trans hright).trans hrun₂).trans hback
    refine ⟨1 + (1 + (m₂ + (1 + (m₁ + 1)))), ?_, mem₃, hrep₃, fun fuel => ?_⟩
    · have hpow : 2 ^ (n + 1 + 1) = 2 * 2 ^ (n + 1) := Nat.pow_succ'
      have hge : 2 ^ 1 ≤ 2 ^ (n + 1) :=
        Nat.pow_le_pow_right Nat.two_pos (Nat.succ_le_succ (Nat.zero_le n))
      omega
    · rw [← hup fuel, ← Nat.add_assoc fuel 1]
      exact hall (fuel + 1)

theorem ArtRep.allot (hs : s.length + (n + 1) = w) :
    ∃ mem', artAllot mem t (heapIdx s) old new = some mem' ∧
      ArtRep ar mem' T (replaceDown old new (n + 1) (s ++ g) V) c := by
  obtain ⟨tbl, hmem, ht, hbits⟩ := h.table_at hT hl hw
  obtain ⟨m, hm, mem', hrep, hrun⟩ := h.allot_again hT hl hw hs (Nat.le_refl _)
  have hlt : heapIdx s < tbl.minfringe := by
    rw [ht.minfringe, hbits, heapIdx_lt_two_pow_iff]
    omega
  have hfuel : m ≤ 6 * tbl.minfringe := by
    have hpow : 2 ^ (n + 1) ≤ 2 ^ w := Nat.pow_le_pow_right Nat.two_pos (by omega)
    rw [ht.minfringe, hbits]
    omega
  refine ⟨mem', ?_, hrep⟩
  have hsteps := hrun (6 * tbl.minfringe - m)
  rw [Nat.sub_add_cancel hfuel, if_neg (not_not_intro rfl)] at hsteps
  simp only [artAllot, hmem, Option.bind_eq_bind, Option.bind_some, guard, if_pos hlt]
  exact hsteps

end

end

end OpenBsd.Net
