/-
  OpenBsd.Lib.Loop

  `while` loops as functions of a bound on the number of their iterations.

  A function with loops takes the bound as an argument and gives no result if it
  is reached, or if the program faults.  `Returns` says that every bound that is
  large enough gives the same result.
-/

import Mathlib.Data.List.Basic
import Mathlib.Tactic.Ring

namespace OpenBsd.Lib

/-! ## Results for large enough bounds -/

section

variable {α β : Type}

/-- Every bound from some point on gives the result `a`. -/
def Returns (f : Nat → Option α) (a : α) : Prop := ∃ n, ∀ fuel ≥ n, f fuel = some a

variable {f : Nat → Option α} {a : α}

theorem Returns.unique {b : α} (ha : Returns f a) (hb : Returns f b) : a = b := by
  obtain ⟨n, hn⟩ := ha
  obtain ⟨m, hm⟩ := hb
  have hboth : some a = some b := by
    rw [← hn (max n m) (Nat.le_max_left n m), ← hm (max n m) (Nat.le_max_right n m)]
  exact Option.some.inj hboth

theorem Returns.const (a : α) : Returns (fun _ => some a) a := ⟨0, fun _ _ => rfl⟩

variable {g : α → Nat → Option β} {b : β}

theorem Returns.bind (hf : Returns f a) (hg : Returns (g a) b) :
    Returns (fun fuel => f fuel >>= fun a => g a fuel) b := by
  obtain ⟨n, hn⟩ := hf
  obtain ⟨m, hm⟩ := hg
  refine ⟨max n m, ?_⟩
  intro fuel hfuel
  simp only [hn fuel ((Nat.le_max_left n m).trans hfuel), Option.bind_eq_bind, Option.bind_some]
  exact hm fuel ((Nat.le_max_right n m).trans hfuel)

theorem Returns.map (hf : Returns f a) (g : α → β) :
    Returns (fun fuel => (f fuel).map g) (g a) := by
  obtain ⟨n, hn⟩ := hf
  refine ⟨n, ?_⟩
  intro fuel hfuel
  simp only [hn fuel hfuel, Option.map_some]

/-- What comes behind a first part that returns. -/
theorem Returns.of_bind
    (hf : Returns f a) (h : Returns (fun fuel => f fuel >>= fun a => g a fuel) b) :
    Returns (g a) b := by
  obtain ⟨n, hn⟩ := hf
  obtain ⟨m, hm⟩ := h
  refine ⟨max n m, ?_⟩
  intro fuel hfuel
  have hbind := hm fuel ((Nat.le_max_right n m).trans hfuel)
  simp only [hn fuel ((Nat.le_max_left n m).trans hfuel), Option.bind_eq_bind,
    Option.bind_some] at hbind
  exact hbind

end

/-! ## Loops -/

section

variable {σ ρ : Type}

/-- The loop with this body: an iteration faults, goes on or leaves the loop. -/
def loop (body : σ → Option (σ ⊕ ρ)) : Nat → σ → Option ρ
  | 0, _ => none
  | fuel + 1, s =>
    match body s with
    | none => none
    | some (.inl s') => loop body fuel s'
    | some (.inr r) => some r

variable {body : σ → Option (σ ⊕ ρ)} {s s' : σ} {r : ρ}

theorem loop_succ (fuel : Nat) (s : σ) : loop body (fuel + 1) s =
    match body s with
    | none => none
    | some (.inl s') => loop body fuel s'
    | some (.inr r) => some r := rfl

theorem loop_exit (h : body s = some (.inr r)) : Returns (fun fuel => loop body fuel s) r := by
  refine ⟨1, ?_⟩
  intro fuel hfuel
  obtain ⟨k, rfl⟩ := Nat.exists_eq_add_of_le hfuel
  simp only [Nat.add_comm 1 k, loop_succ, h]

theorem loop_next (h : body s = some (.inl s'))
    (hrest : Returns (fun fuel => loop body fuel s') r) :
    Returns (fun fuel => loop body fuel s) r := by
  obtain ⟨n, hn⟩ := hrest
  refine ⟨n + 1, ?_⟩
  intro fuel hfuel
  obtain ⟨k, rfl⟩ := Nat.exists_eq_add_of_le hfuel
  have hk : n + 1 + k = (n + k) + 1 := by omega
  simp only [hk, loop_succ, h]
  exact hn (n + k) (Nat.le_add_right n k)

variable {I : σ → Prop}

/-- What holds at the start and is kept by each iteration decides the result. -/
theorem loop_invariant {Q : ρ → Prop} (hstep : ∀ s s', I s → body s = some (.inl s') → I s')
    (hexit : ∀ s r, I s → body s = some (.inr r) → Q r) :
    ∀ (fuel : Nat) (s : σ), I s → loop body fuel s = some r → Q r := by
  intro fuel
  induction fuel with
  | zero => intro s _ h; cases h
  | succ fuel ih =>
    intro s hI h
    rw [loop_succ] at h
    split at h
    · cases h
    · rename_i s' hbody
      exact ih s' (hstep s s' hI hbody) h
    · rename_i r' hbody
      cases h
      exact hexit s r hI hbody

/-- A loop that does not fault and makes `μ` smaller ends. -/
theorem loop_isSome (μ : σ → Nat)
    (hstep : ∀ s, I s → (∃ r, body s = some (.inr r)) ∨
      ∃ s', body s = some (.inl s') ∧ I s' ∧ μ s' < μ s) :
    ∀ (fuel : Nat) (s : σ), I s → μ s < fuel → (loop body fuel s).isSome := by
  intro fuel
  induction fuel with
  | zero => intro s _ h; exact absurd h (Nat.not_lt_zero (μ s))
  | succ fuel ih =>
    intro s hI hμ
    rw [loop_succ]
    obtain ⟨r, hr⟩ | ⟨s', hs', hI', hlt⟩ := hstep s hI
    · simp only [hr, Option.isSome_some]
    · simp only [hs']
      exact ih s' hI' (by omega)

/-- Bodies that agree as long as the invariant holds give the same loop. -/
theorem loop_congr {body' : σ → Option (σ ⊕ ρ)} (hsame : ∀ s, I s → body' s = body s)
    (hstep : ∀ s s', I s → body s = some (.inl s') → I s') :
    ∀ (fuel : Nat) (s : σ), I s → loop body' fuel s = loop body fuel s := by
  intro fuel
  induction fuel with
  | zero => intro s _; rfl
  | succ fuel ih =>
    intro s hI
    rw [loop_succ, loop_succ, hsame s hI]
    split
    · rfl
    · rename_i s' hbody
      exact ih s' (hstep s s' hI hbody)
    · rfl

/-- A loop that ends for some bound ends in the same way for larger ones. -/
theorem loop_returns : ∀ {n : Nat} {s : σ}, loop body n s = some r →
    Returns (fun fuel => loop body fuel s) r := by
  intro n
  induction n with
  | zero => intro s h; cases h
  | succ n ih =>
    intro s h
    rw [loop_succ] at h
    split at h
    · cases h
    · rename_i s' hbody
      exact loop_next hbody (ih h)
    · rename_i r' hbody
      cases h
      exact loop_exit hbody

end

/-! ## Functions that any bound settles -/

section

variable {α β : Type}

/-- A result for some bound is the result for every larger one. -/
def Settles (f : Nat → Option α) : Prop := ∀ (n : Nat) (a : α), f n = some a → Returns f a

theorem Settles.const (a : Option α) : Settles (fun _ => a) := fun _ _ h => ⟨0, fun _ _ => h⟩

theorem Settles.loop {σ ρ : Type} (body : σ → Option (σ ⊕ ρ)) (s : σ) :
    Settles (fun fuel => loop body fuel s) := fun _ _ => loop_returns

theorem Settles.bind {f : Nat → Option α} {g : α → Nat → Option β} (hf : Settles f)
    (hg : ∀ a, Settles (g a)) : Settles (fun fuel => f fuel >>= fun a => g a fuel) := by
  intro n b h
  obtain ⟨a, ha, hb⟩ := Option.bind_eq_some_iff.mp h
  exact (hf n a ha).bind (hg a n b hb)

theorem Settles.map {f : Nat → Option α} (hf : Settles f) (g : α → β) :
    Settles (fun fuel => (f fuel).map g) := by
  intro n b h
  obtain ⟨a, ha, rfl⟩ := Option.map_eq_some_iff.mp h
  exact (hf n a ha).map g

end

/-! ## Two loops in step -/

section

variable {σ ρ τ κ : Type} {R : σ → τ → Prop} {Q : ρ → κ → Prop}

/-- Two iterations both go on, or both leave their loop. -/
def OutcomesAgree (R : σ → τ → Prop) (Q : ρ → κ → Prop) :
    Option (σ ⊕ ρ) → Option (τ ⊕ κ) → Prop
  | some (.inl s), some (.inl t) => R s t
  | some (.inr r), some (.inr q) => Q r q
  | _, _ => False

/-- Where every iteration keeps the relation, one loop ends if the other one does. -/
theorem loop_simulates {body : σ → Option (σ ⊕ ρ)} {body' : τ → Option (τ ⊕ κ)}
    (hstep : ∀ s t, R s t → OutcomesAgree R Q (body s) (body' t)) {q : κ} :
    ∀ (fuel : Nat) (s : σ) (t : τ), R s t → loop body' fuel t = some q →
      ∃ r, loop body fuel s = some r ∧ Q r q := by
  intro fuel
  induction fuel with
  | zero => intro s t _ h; cases h
  | succ fuel ih =>
    intro s t hR h
    have hagree := hstep s t hR
    rw [loop_succ] at h
    split at h
    · cases h
    · rename_i t' hbody'
      rw [hbody'] at hagree
      match hbody : body s with
      | none =>
        rw [hbody] at hagree
        exact hagree.elim
      | some (.inr r) =>
        rw [hbody] at hagree
        exact hagree.elim
      | some (.inl s') =>
        rw [hbody] at hagree
        obtain ⟨r, hr, hQ⟩ := ih s' t' hagree h
        exact ⟨r, by simp only [loop_succ, hbody, hr], hQ⟩
    · rename_i q' hbody'
      cases h
      rw [hbody'] at hagree
      match hbody : body s with
      | none =>
        rw [hbody] at hagree
        exact hagree.elim
      | some (.inl s') =>
        rw [hbody] at hagree
        exact hagree.elim
      | some (.inr r) =>
        rw [hbody] at hagree
        exact ⟨r, by simp only [loop_succ, hbody], hagree⟩

end

end OpenBsd.Lib
